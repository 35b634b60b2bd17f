import Adg.AlertDetection
import Adg.HistoryRuns

/-!
# Histories that name their ends

The current-state rows of entries, edges and places are never without the keys
of what they connect, and the writer copies those keys into every version it
opens, rewrites or buries. So a version names its ends, and does not need the
version before it to say what it is about.
-/

set_option autoImplicit false

namespace Adg.NamedHistories
open Adg.ObjectVersions Adg.VersionTable Adg.CurrentState Adg.ScopeClosure Adg.HistoryWriter
open Adg.HistorySteps Adg.ClosureSteps Adg.Timelines Adg.HistoryRuns
open Adg.AlertModel (given)
open Adg.AlertDetection (membershipChangeKinds aclChangeKinds)
open Adg.Fallible (bind_ok map_ok)

/-- A column is filled when the kind has it, and null when it has not. -/
def filled (column key : Option String) : Bool := if column.isSome then given key else key.isNone

/-- A version of an entry, an edge or a place names its ends. -/
def Named (v : ObjectVersion) : Prop :=
  v.kind ∈ membershipChangeKinds ++ aclChangeKinds →
    filled (containerColumn v.kind) v.containerKey = true ∧
      filled (relatedColumn v.kind) v.relatedKey = true

/-- A version table of named versions. -/
structure ChangeHistory where
  table : Table
  named : ∀ v ∈ table.rows, Named v

/-- The readings a call records have the columns that may not be null. -/
def Complete : Call → Prop
  | .record kind rows => kind ∈ membershipChangeKinds ++ aclChangeKinds → ∀ r ∈ rows,
      (∀ column, containerColumn kind = some column → given (r.column kind column) = true) ∧
        ∀ column, relatedColumn kind = some column → given (r.column kind column) = true
  | _ => True

section Naming
variable {hash : State → String} {casefold : String → String}

/-- What a column of a reading is filled with. -/
theorem filled_bind {column : Option String} {read : String → Option String}
    (h : ∀ name, column = some name → given (read name) = true) :
    filled column (column.bind read) = true := by
  cases column with
  | none => rfl
  | some name => exact h name rfl

/-- The keys of a version and its kind decide whether it is named. -/
theorem Named.of_same {v w : ObjectVersion} (h : Named v) (hkind : w.kind = v.kind)
    (hcontainer : w.containerKey = v.containerKey) (hrelated : w.relatedKey = v.relatedKey) :
    Named w := by
  unfold Named
  rw [hkind, hcontainer, hrelated]
  exact h

theorem Named.grow {v : ObjectVersion} (h : Named v) (moment : Instant) (runId : RunId) :
    Named (grow moment runId v) := by
  rw [grow_eq]
  exact h

theorem named_of_reading {kind : ObservationKind} {rows : List Reading}
    (hc : Complete (.record kind rows)) {r : Reading} (hr : r ∈ rows) {v : ObjectVersion}
    (hkind : v.kind = kind)
    (hcontainer : v.containerKey = (containerColumn kind).bind (r.column kind))
    (hrelated : v.relatedKey = (relatedColumn kind).bind (r.column kind)) : Named v := by
  intro hin
  rw [hkind] at hin ⊢
  rw [hcontainer, hrelated]
  exact ⟨filled_bind (hc hin r hr).1,filled_bind (hc hin r hr).2⟩

theorem recorded_named {kind : ObservationKind} {rows : List Reading}
    (hc : Complete (.record kind rows)) {v : ObjectVersion} (h : Named v) :
    Named (recorded hash kind rows v) := by
  rcases recorded_cases hash kind rows v with hv | ⟨e,he,hobj,-,hm⟩
  · rw [hv]
    exact h
  · obtain ⟨r,hr,rfl⟩ := incoming_origin he
    cases hm with
    | agrees _ hw =>
      rw [hw]
      exact h.grow _ _
    | stale _ _ hw =>
      rw [hw]
      exact h
    | replaced _ _ _ hw =>
      rw [hw]
      exact named_of_reading hc hr (congrArg Prod.fst hobj) rfl rfl
    | superseded _ hw =>
      rw [hw]
      exact h.of_same rfl rfl rfl

theorem opened_named {t : Table} {kind : ObservationKind} {rows : List Reading}
    (hc : Complete (.record kind rows)) {x : ObjectVersion} (hx : x ∈ opened hash t kind rows) :
    Named x := by
  obtain ⟨e,he,rfl,-⟩ := mem_opened.mp hx
  obtain ⟨r,hr,rfl⟩ := incoming_origin he
  exact named_of_reading hc hr rfl rfl rfl

theorem absented_named {db : Database} {runId : RunId} {collector : CollectorKind}
    {scopeKind : ScopeKind} {scopeKey : String} {completedAt : Instant} {v : ObjectVersion}
    (h : Named v) : Named (absented casefold db runId collector scopeKind scopeKey completedAt v) := by
  unfold absented closedBy
  split
  · split
    · exact h.of_same rfl rfl rfl
    · exact h.of_same rfl rfl rfl
  · exact h

theorem named_of_rows {t t' : Table} {g : ObjectVersion → ObjectVersion}
    {news : List ObjectVersion} {n : ℕ} (hrows : t'.rows = t.rows.map g ++ numberedFrom n news)
    (hg : ∀ v ∈ t.rows, Named (g v)) (hn : ∀ x ∈ news, Named x) : ∀ v ∈ t'.rows, Named v := by
  intro v hv
  rcases mem_moved hrows v hv with ⟨w,hw,rfl⟩ | ⟨x,hx,m,-,rfl⟩
  · exact hg w hw
  · exact (hn x hx).of_same rfl rfl rfl

/-- A call of the writer leaves named versions named. -/
theorem perform_named {t t' : Table} (h : ∀ v ∈ t.rows, Named v) {call : Call}
    (hc : Complete call) (hp : perform hash casefold t call = .ok t') : ∀ v ∈ t'.rows, Named v := by
  have hnone : ∀ x ∈ ([] : List ObjectVersion), Named x := fun x hx => nomatch hx
  cases call with
  | record kind rows =>
    obtain ⟨⟨t1,o⟩,ho,rfl⟩ := map_ok.mp hp
    exact named_of_rows (record_rows ho) (fun v hv => recorded_named hc (h v hv))
      fun x hx => opened_named hc hx
  | affirm kind keys observedAt runId =>
    obtain ⟨⟨t1,o⟩,ho,rfl⟩ := map_ok.mp hp
    have hrows : t1.rows = t.rows.map (affirmed kind keys observedAt runId) ++
        numberedFrom 0 [] := by rw [affirm_rows ho, numberedFrom, List.append_nil]
    refine named_of_rows hrows (fun v hv => ?_) hnone
    unfold affirmed
    split
    · exact (h v hv).grow _ _
    · exact h v hv
  | affirmContained kind containerKeys observedAt runId =>
    obtain ⟨⟨t1,o⟩,ho,rfl⟩ := map_ok.mp hp
    have hrows : t1.rows = t.rows.map (contained kind containerKeys observedAt runId) ++
        numberedFrom 0 [] := by rw [affirmContained_rows ho, numberedFrom, List.append_nil]
    refine named_of_rows hrows (fun v hv => ?_) hnone
    unfold contained
    split
    · exact (h v hv).grow _ _
    · exact h v hv
  | closeAbsent db runId collector scopeKind scopeKey completedAt =>
    obtain ⟨⟨t1,o⟩,ho,rfl⟩ := map_ok.mp hp
    obtain ⟨news,hrows,hnews⟩ := closeAbsent_rows ho
    refine named_of_rows hrows (fun v hv => absented_named (h v hv)) fun x hx => ?_
    obtain ⟨v,hv,-,-,rfl⟩ := (hnews x).mp hx
    exact (h v hv).of_same rfl rfl rfl

/-- Whatever the writer is called with, its versions name their ends. -/
theorem performAll_named {t t' : Table} (h : ∀ v ∈ t.rows, Named v) {calls : List Call}
    (hc : ∀ call ∈ calls, Complete call) (hp : performAll hash casefold t calls = .ok t') :
    ∀ v ∈ t'.rows, Named v := by
  induction calls generalizing t with
  | nil =>
    cases hp
    exact h
  | cons call calls ih =>
    obtain ⟨t1,h1,hrest⟩ := bind_ok.mp hp
    have hstep := perform_named h (hc call List.mem_cons_self) h1
    exact ih hstep (fun c hin => hc c (List.mem_cons_of_mem call hin)) hrest

end Naming

theorem blank_named : ∀ v ∈ Table.blank.rows, Named v := by
  intro v hv
  cases hv

/-- The history a run of the writer leaves. -/
def ChangeHistory.ofRun {hash : State → String} {casefold : String → String} {calls : List Call}
    {t : Table} (hc : ∀ call ∈ calls, Complete call)
    (hp : performAll hash casefold Table.blank calls = .ok t) : ChangeHistory where
  table := t
  named := performAll_named blank_named hc hp

end Adg.NamedHistories
