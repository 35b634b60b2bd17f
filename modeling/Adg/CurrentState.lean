import Adg.KeyedTables
import Adg.VersionTable

/-!
# Current state

One table a kind holds the newest reading of each object beside the provenance
of that reading. A second table remembers what each run observed. The history
of an object is kept next to both.
-/

set_option autoImplicit false

namespace Adg.CurrentState
open Adg.ObjectVersions Adg.KeyedTables Adg.VersionTable

/-- `CURRENT_STATE_KEYS`: the column that carries an object's key. -/
def keyColumn : ObservationKind → String
  | .principal => "principal_key"
  | .membershipEdge => "edge_key"
  | .server => "server_key"
  | .smbShare => "share_key"
  | .smbAce => "ace_key"
  | .ntfsResource => "resource_key"
  | .ntfsAce => "ace_key"

/-- `BINDINGS`, the container column. -/
def containerColumn : ObservationKind → Option String
  | .principal => some "host_key"
  | .membershipEdge => some "group_key"
  | .server => none
  | .smbShare => some "server_key"
  | .smbAce => some "share_key"
  | .ntfsResource => some "share_key"
  | .ntfsAce => some "resource_key"

/-- `BINDINGS`, the column of the far end. -/
def relatedColumn : ObservationKind → Option String
  | .principal => some "domain_sid"
  | .membershipEdge => some "member_key"
  | .server => none
  | .smbShare => none
  | .smbAce => some "trustee_key"
  | .ntfsResource => some "server_key"
  | .ntfsAce => some "trustee_key"

/-- A text column; a null and a missing one are alike. -/
def textColumn (columns : State) (name : String) : Option String :=
  match columns.lookup name with
  | some (.text s) => some s
  | _ => none

/-- A row of a current-state table, its key aside. The columns are the ones the
upsert of its kind rewrites. -/
structure StoredRow where
  columns : State
  firstObservedAt : Instant
  firstObservedRunId : RunId
  lastObservedAt : Instant
  lastObservedRunId : RunId
  deriving DecidableEq, Repr

/-- One row dictionary that a batch writes. -/
structure Reading where
  key : String
  columns : State
  observedAt : Instant
  runId : RunId
  deriving DecidableEq, Repr

def Reading.row (r : Reading) : StoredRow where
  columns := r.columns
  firstObservedAt := r.observedAt
  firstObservedRunId := r.runId
  lastObservedAt := r.observedAt
  lastObservedRunId := r.runId

/-- A column of the row dictionary, its key column included. -/
def Reading.column (kind : ObservationKind) (r : Reading) (name : String) : Option String :=
  if name = keyColumn kind then some r.key else textColumn r.columns name

/-- `_newest_wins`. Every descriptive column is rewritten under one condition. -/
def newestWins (stored excluded : StoredRow) : StoredRow where
  columns := if stored.lastObservedAt ≤ excluded.lastObservedAt then excluded.columns
    else stored.columns
  lastObservedAt := max stored.lastObservedAt excluded.lastObservedAt
  lastObservedRunId := if stored.lastObservedAt ≤ excluded.lastObservedAt then
    excluded.lastObservedRunId else stored.lastObservedRunId
  firstObservedAt := min stored.firstObservedAt excluded.firstObservedAt
  firstObservedRunId := if excluded.firstObservedAt < stored.firstObservedAt then
    excluded.firstObservedRunId else stored.firstObservedRunId

/-- A row of `observations`, its run and source key aside. -/
structure ObservationRow where
  kind : ObservationKind
  batchId : String
  observedAt : Instant
  subjectKey : String
  deriving DecidableEq, Repr

/-- A row of `principal_aliases`, its key aside: the principal, the kind of name
and the folded name. -/
structure AliasRow where
  value : String
  firstObservedAt : Instant
  lastObservedAt : Instant
  deriving DecidableEq, Repr

/-- What the upsert of an alias makes of two rows. -/
def newestAlias (stored excluded : AliasRow) : AliasRow where
  value := if stored.lastObservedAt ≤ excluded.lastObservedAt then excluded.value
    else stored.value
  firstObservedAt := min stored.firstObservedAt excluded.firstObservedAt
  lastObservedAt := max stored.lastObservedAt excluded.lastObservedAt

/-- The tables an ingestion transaction reads and writes. -/
structure Database where
  current : ObservationKind → KeyedTable String StoredRow := fun _ => .empty
  aliases : KeyedTable (String × String × String) AliasRow := .empty
  references : KeyedTable (String × String × String) StoredRow := .empty
  observations : KeyedTable (RunId × String) ObservationRow := .empty
  versions : Table := {}

namespace Database

def blank : Database := { versions := Table.blank }

def row (db : Database) (kind : ObservationKind) (key : String) : Option StoredRow :=
  (db.current kind).get? key

/-- A column of a stored row, its key column included. -/
def column (kind : ObservationKind) (entry : String × StoredRow) (name : String) : Option String :=
  if name = keyColumn kind then some entry.1 else textColumn entry.2.columns name

/-- Whether a run observed an object, by its own record. -/
def observed (db : Database) (runId : RunId) (kind : ObservationKind) (key : String) : Bool :=
  db.observations.entries.any fun e => e.1.1 = runId ∧ e.2.kind = kind ∧ e.2.subjectKey = key

/-- The rows one upsert statement writes. -/
def upsertRows (db : Database) (kind : ObservationKind) (rs : List Reading) : Database :=
  { db with
    current := fun k =>
      if k = kind then (db.current k).upsertAll newestWins (rs.map fun r => (r.key,r.row))
      else db.current k }

end Database

/-- The single open version of an object, when there is one. -/
def openVersion (t : Table) (kind : ObservationKind) (key : String) : Option ObjectVersion :=
  t.rows.find? fun v => v.kind = kind ∧ v.key = key ∧ v.isOpen

/-- `currently_present`: no open tombstone hides the row. -/
def currentlyPresent (db : Database) (kind : ObservationKind) : List (String × StoredRow) :=
  (db.current kind).entries.filter fun e =>
    ¬ db.versions.rows.any fun v => v.kind = kind ∧ v.key = e.1 ∧ v.isOpen ∧ ¬ v.isPresent

theorem openVersion_some {t : Table} {kind : ObservationKind} {key : String} {v : ObjectVersion} :
    openVersion t kind key = some v ↔ v ∈ t.rows ∧ v.object = (kind,key) ∧ v.isOpen = true := by
  unfold openVersion
  constructor
  · intro h
    have hp : v.kind = kind ∧ v.key = key ∧ v.isOpen = true := by
      simpa [decide_eq_true_eq] using List.find?_some h
    exact ⟨List.mem_of_find?_eq_some h,by rw [ObjectVersion.object, hp.1, hp.2.1],hp.2.2⟩
  · rintro ⟨hv,hobj,hopen⟩
    obtain ⟨rfl,rfl⟩ := Prod.mk.inj hobj
    cases hf : t.rows.find? fun w => w.kind = v.kind ∧ w.key = v.key ∧ w.isOpen with
    | none => exact absurd (List.find?_eq_none.mp hf v hv) (by simp [hopen])
    | some w =>
      have hw : w.kind = v.kind ∧ w.key = v.key ∧ w.isOpen = true := by
        simpa [decide_eq_true_eq] using List.find?_some hf
      by_contra hne
      have hcompat := t.compatible_of_ne (List.mem_of_find?_eq_some hf) hv
        fun e => hne (by rw [e])
      exact (hcompat (by rw [ObjectVersion.object, hw.1, hw.2.1, ObjectVersion.object])).2
        ⟨hw.2.2,hopen⟩

theorem openVersion_none {t : Table} {kind : ObservationKind} {key : String} :
    openVersion t kind key = none ↔
      ∀ v ∈ t.rows, v.object = (kind,key) → v.isOpen = false := by
  constructor
  · intro h v hv hobj
    by_contra hopen
    rw [Bool.not_eq_false] at hopen
    rw [openVersion_some.mpr ⟨hv,hobj,hopen⟩] at h
    cases h
  · intro h
    cases ho : openVersion t kind key with
    | none => rfl
    | some v =>
      obtain ⟨hv,hobj,hopen⟩ := openVersion_some.mp ho
      rw [h v hv hobj] at hopen
      cases hopen

end Adg.CurrentState
