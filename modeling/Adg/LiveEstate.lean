import Adg.HistoryRuns
import Adg.Ingestion

/-!
# The live estate and the estate as of now

Current state and history are written from the same rows by two rules. They
stay in step as long as no reading revives an object from before the instant
its row was last confirmed at, which an affirmation may have moved past the
tombstone.
-/

set_option autoImplicit false

namespace Adg.LiveEstate
open Adg.Observation Adg.ObjectVersions Adg.KeyedTables Adg.VersionTable Adg.CurrentState
open Adg.ScopeClosure Adg.HistoryWriter Adg.HistorySteps Adg.ClosureSteps Adg.Timelines
open Adg.HistoryRuns Adg.Ingestion
open Adg.Fallible (bind_ok map_ok)

/-- A stored row as a state. -/
def rowState (kind : ObservationKind) (key : String) (r : StoredRow) : State :=
  (keyColumn kind,.text key) :: r.columns

/-- The live estate and the open versions say the same. -/
structure InStep (db : Database) : Prop where
  visible : ∀ kind key, (∃ v ∈ db.versions.rows, v.object = (kind,key)) →
    ((∃ r, (key,r) ∈ currentlyPresent db kind) ↔
      ∃ v, openVersion db.versions kind key = some v ∧ v.isPresent = true)
  same : ∀ kind key r v, (key,r) ∈ currentlyPresent db kind →
    openVersion db.versions kind key = some v → ∃ s, v.state = some s ∧
      digestibleState (rowState kind key r) = digestibleState s ∧
      r.lastObservedAt = v.lastSeenAt

/-- No reading of these rows revives an object from before the instant its row
was last confirmed at. -/
def NoLateRevival (db : Database) (kind : ObservationKind) (rows : List Reading) : Prop :=
  ∀ r ∈ rows, ∀ v, openVersion db.versions kind r.key = some v → v.isPresent = false →
    v.lastSeenAt ≤ r.observedAt → ∀ s, db.row kind r.key = some s → s.lastObservedAt ≤ r.observedAt

def Timely (db : Database) : Transaction → Prop
  | .batch b => ∀ kind, NoLateRevival db kind (plannedRows b kind)
  | .completion _ => True

/-- Every batch of a run is timely where it is applied. -/
def AllTimely (hash : State → String) (casefold : String → String) :
    Database → List Transaction → Prop
  | _, [] => True
  | db, x :: xs => Timely db x ∧ AllTimely hash casefold (commit hash casefold db x) xs

/-- The states that the batches of a run hold. -/
def batchStates (xs : List Transaction) : List State :=
  xs.flatMap fun x => match x with
    | .batch b => b.observations.map fun o => digestibleState (storedState o.kind o.row)
    | .completion _ => []

/-! ### A row and the version it stands beside -/

def containerOf (kind : ObservationKind) (key : String) (r : StoredRow) : Option String :=
  (containerColumn kind).bind (Database.column kind (key,r))

/-- A present version and the row of its object. -/
structure Matches (hash : State → String) (states : List State) (v : ObjectVersion)
    (r : StoredRow) : Prop where
  state : ∃ s, v.state = some s ∧ v.stateHash = some (stateDigest hash s) ∧
    digestibleState s ∈ states ∧ digestibleState s = digestibleState (rowState v.kind v.key r)
  last : v.lastSeenAt = r.lastObservedAt
  container : v.containerKey = containerOf v.kind v.key r

/-- What the transactions keep. -/
structure Coupled (hash : State → String) (states : List State) (db : Database) : Prop where
  tracked : ∀ kind key, db.row kind key = none ↔ ∀ v ∈ db.versions.rows, v.object ≠ (kind,key)
  opened : ∀ v ∈ db.versions.rows, ∃ w ∈ db.versions.rows, w.object = v.object ∧ w.isOpen = true
  matched : ∀ v ∈ db.versions.rows, v.isOpen = true → v.isPresent = true →
    ∀ r, db.row v.kind v.key = some r → Matches hash states v r

/-- The objects with a row are the ones with a version, and of the versions of an
object the open one was confirmed last. -/
structure Tracked (db : Database) : Prop where
  tracked : ∀ kind key, db.row kind key = none ↔ ∀ v ∈ db.versions.rows, v.object ≠ (kind,key)
  opened : ∀ v ∈ db.versions.rows, ∃ w ∈ db.versions.rows, w.object = v.object ∧
    w.isOpen = true ∧ v.lastSeenAt ≤ w.lastSeenAt

/-- Stored versions that moved with new ones behind them. A version that is closed
has a new one behind it. -/
structure Succeeded (t : Table) (g : ObjectVersion → ObjectVersion)
    (news : List ObjectVersion) : Prop where
  object : ∀ v ∈ t.rows, (g v).object = v.object
  closed : ∀ v ∈ t.rows, v.isOpen = false → g v = v
  seen : ∀ v ∈ t.rows, v.lastSeenAt ≤ (g v).lastSeenAt
  followed : ∀ v ∈ t.rows, v.isOpen = true → (g v).isOpen = true ∨
    ∃ x ∈ news, x.object = v.object ∧ (g v).lastSeenAt ≤ x.lastSeenAt
  fresh : ∀ x ∈ news, x.isOpen = true

/-- Rows that appear with their versions keep the objects tracked. -/
theorem Tracked.succeeded {db db' : Database} (h : Tracked db) {g : ObjectVersion → ObjectVersion}
    {news : List ObjectVersion} {n : ℕ} (hs : Succeeded db.versions g news)
    (hrows : db'.versions.rows = db.versions.rows.map g ++ numberedFrom n news)
    (hrow : ∀ kind key, db'.row kind key = none ↔
      db.row kind key = none ∧ ∀ x ∈ news, x.object ≠ (kind,key)) : Tracked db' := by
  refine ⟨fun kind key => ?_,fun v hv => ?_⟩
  · rw [hrow, h.tracked]
    constructor
    · rintro ⟨hold,hnew⟩ v hv hobj
      rcases mem_moved hrows v hv with ⟨w,hw,rfl⟩ | ⟨x,hx,m,-,rfl⟩
      · exact hold w hw ((hs.object w hw).symm.trans hobj)
      · exact hnew x hx hobj
    · intro hnone
      refine ⟨fun v hv hobj => ?_,fun x hx hobj => ?_⟩
      · exact hnone _ (moved_stored hrows v hv) ((hs.object v hv).trans hobj)
      · obtain ⟨m,hm⟩ := moved_added hrows x hx
        exact hnone _ hm hobj
  · -- an open version is its own latest, and a closed one did not move
    have hlatest : ∀ w ∈ db.versions.rows, ∃ u ∈ db.versions.rows, u.object = w.object ∧
        u.isOpen = true ∧ (g w).lastSeenAt ≤ (g u).lastSeenAt := fun w hw => by
      cases ho : w.isOpen with
      | true => exact ⟨w,hw,rfl,ho,le_rfl⟩
      | false =>
        obtain ⟨u,hu,hobj,hopen,hle⟩ := h.opened w hw
        rw [hs.closed w hw ho]
        exact ⟨u,hu,hobj,hopen,hle.trans (hs.seen u hu)⟩
    rcases mem_moved hrows v hv with ⟨w,hw,rfl⟩ | ⟨x,hx,m,-,rfl⟩
    · obtain ⟨u,hu,hobj,hopen,hle⟩ := hlatest w hw
      rw [hs.object w hw]
      rcases hs.followed u hu hopen with hg | ⟨x,hx,hxobj,hxle⟩
      · exact ⟨g u,moved_stored hrows u hu,(hs.object u hu).trans hobj,hg,hle⟩
      · obtain ⟨m,hm⟩ := moved_added hrows x hx
        exact ⟨_,hm,hxobj.trans hobj,(hs.fresh x hx : x.isOpen = true),hle.trans hxle⟩
    · exact ⟨_,hv,rfl,(hs.fresh x hx : x.isOpen = true),le_rfl⟩

theorem Tracked.couple {hash : State → String} {states : List State} {db : Database}
    (h : Tracked db) (hm : ∀ v ∈ db.versions.rows, v.isOpen = true → v.isPresent = true →
      ∀ r, db.row v.kind v.key = some r → Matches hash states v r) : Coupled hash states db :=
  ⟨h.tracked,fun v hv =>
    have ⟨w,hw,hobj,hopen,_⟩ := h.opened v hv
    ⟨w,hw,hobj,hopen⟩,hm⟩

theorem textColumn_digestible {columns : State} {name : String} (h : name ≠ sourceKey) :
    textColumn (digestibleState columns) name = textColumn columns name := by
  unfold textColumn digestibleState
  congr 1
  induction columns with
  | nil => rfl
  | cons c columns ih =>
    by_cases hc : c.1 = sourceKey
    · have hn : (name == c.1) = false := by simpa [hc] using h
      rw [List.filter_cons_of_neg (by simp [hc]), List.lookup_cons, hn]
      exact ih
    · rw [List.filter_cons_of_pos (by simp [hc]), List.lookup_cons, List.lookup_cons, ih]

theorem keyColumn_ne (kind : ObservationKind) : keyColumn kind ≠ sourceKey := by
  cases kind <;> decide

theorem digestible_cons (kind : ObservationKind) (key : String) (columns : State) :
    digestibleState ((keyColumn kind,.text key) :: columns) =
      (keyColumn kind,.text key) :: digestibleState columns := by
  unfold digestibleState
  rw [List.filter_cons_of_pos (by simpa using keyColumn_ne kind)]

/-- Rows that differ in the observation key alone have the same container. -/
theorem containerOf_digestible {kind : ObservationKind} {key : String} {r s : StoredRow}
    (h : digestibleState (rowState kind key r) = digestibleState (rowState kind key s)) :
    containerOf kind key r = containerOf kind key s := by
  unfold rowState at h
  rw [digestible_cons, digestible_cons] at h
  have hcols : digestibleState r.columns = digestibleState s.columns := (List.cons.inj h).2
  have htext : ∀ name, name ≠ sourceKey → textColumn r.columns name = textColumn s.columns name :=
    fun name hn => by rw [← textColumn_digestible hn, hcols, textColumn_digestible hn]
  unfold containerOf Database.column
  cases hc : containerColumn kind with
  | none => rfl
  | some name =>
    have hn : name ≠ sourceKey := by
      cases kind <;> simp only [containerColumn, Option.some.injEq, reduceCtorEq] at hc <;>
        (subst hc; decide)
    show (if name = keyColumn kind then some key else textColumn r.columns name) =
      if name = keyColumn kind then some key else textColumn s.columns name
    rw [htext name hn]

/-! ### Rows -/

theorem current_upsertRows (db : Database) (kind : ObservationKind) (rows : List Reading)
    (k : ObservationKind) : (db.upsertRows kind rows).current k =
      if k = kind then (db.current k).upsertAll newestWins (rows.map fun r => (r.key,r.row))
      else db.current k := rfl

theorem row_upsertRows_other {db : Database} {kind k : ObservationKind} (rows : List Reading)
    (h : k ≠ kind) (key : String) : (db.upsertRows kind rows).row k key = db.row k key := by
  unfold Database.row
  rw [current_upsertRows, if_neg h]

theorem row_upsertRows_untouched {db : Database} {kind : ObservationKind} {rows : List Reading}
    {key : String} (h : key ∉ rows.map (·.key)) :
    (db.upsertRows kind rows).row kind key = db.row kind key := by
  unfold Database.row
  rw [current_upsertRows, if_pos rfl]
  refine KeyedTable.get?_upsertAll_other _ _ ?_
  rw [List.map_map]
  exact h

theorem row_upsertRows {db : Database} {kind : ObservationKind} {rows : List Reading}
    (hn : (rows.map (·.key)).Nodup) {r : Reading} (hr : r ∈ rows) :
    (db.upsertRows kind rows).row kind r.key =
      some (KeyedTable.arrive newestWins (db.row kind r.key) r.row) := by
  unfold Database.row
  rw [current_upsertRows, if_pos rfl]
  have hkeys : ((rows.map fun r => (r.key,r.row)).map (·.1)).Nodup := by
    rw [List.map_map]
    exact hn
  exact KeyedTable.get?_upsertAll_once newestWins _ (List.mem_map.mpr ⟨r,hr,rfl⟩) hkeys

/-- An arriving reading that is not older takes over the row. -/
theorem arrive_newer {stored : Option StoredRow} {r : Reading}
    (h : ∀ s, stored = some s → s.lastObservedAt ≤ r.observedAt) :
    (KeyedTable.arrive newestWins stored r.row).columns = r.columns ∧
      (KeyedTable.arrive newestWins stored r.row).lastObservedAt = r.observedAt := by
  cases stored with
  | none => exact ⟨rfl,rfl⟩
  | some s =>
    have hle := h s rfl
    exact ⟨if_pos hle,max_eq_right hle⟩

/-- An older one leaves its columns. -/
theorem arrive_older {s : StoredRow} {r : Reading} (h : r.observedAt < s.lastObservedAt) :
    (KeyedTable.arrive newestWins (some s) r.row).columns = s.columns ∧
      (KeyedTable.arrive newestWins (some s) r.row).lastObservedAt = s.lastObservedAt :=
  ⟨if_neg (not_le.mpr h),max_eq_left h.le⟩

theorem keyed_some {kind : ObservationKind} {o : Observed} {e : String × Reading}
    (h : keyed kind o = some e) : o.kind = kind ∧ e = (o.row.key,o.row) := by
  unfold keyed at h
  split at h
  · next hk => exact ⟨hk,(Option.some.inj h).symm⟩
  · cases h

theorem plannedRows_nodup (b : Batch) (kind : ObservationKind) :
    ((plannedRows b kind).map (·.key)).Nodup := by
  have hkey : ∀ e ∈ (latest Reading.observedAt (b.observations.filterMap (keyed kind))).entries,
      e.2.key = e.1 := by
    refine latest_forall (P := fun (k : String) (r : Reading) => r.key = k) fun e he => ?_
    obtain ⟨o,-,ho⟩ := List.mem_filterMap.mp he
    rw [(keyed_some ho).2]
  unfold plannedRows
  refine ((List.perm_insertionSort _ _).map _).nodup_iff.mpr ?_
  rw [List.map_map]
  refine (List.map_congr_left fun e he => ?_) ▸
    (latest Reading.observedAt (b.observations.filterMap (keyed kind))).keys_nodup
  exact (hkey e he).symm

theorem plannedRows_origin {b : Batch} {kind : ObservationKind} {r : Reading}
    (h : r ∈ plannedRows b kind) : ∃ o ∈ b.observations, o.kind = kind ∧ o.row = r := by
  unfold plannedRows at h
  rw [List.mem_insertionSort] at h
  obtain ⟨e,he,rfl⟩ := List.mem_map.mp h
  refine latest_forall (P := fun (_ : String) (r : Reading) => ∃ o ∈ b.observations, o.kind = kind ∧ o.row = r)
    (fun e he => ?_) e he
  obtain ⟨o,ho,hok⟩ := List.mem_filterMap.mp he
  obtain ⟨hk,rfl⟩ := keyed_some hok
  exact ⟨o,ho,hk,rfl⟩

/-! ### A kind is written -/

section Write
variable {hash : State → String} {states : List State} {db : Database}
  {kind : ObservationKind} {rows : List Reading}

theorem Coupled.tracks (h : Coupled hash states db) {v : ObjectVersion}
    (hv : v ∈ db.versions.rows) : ∃ r, db.row v.kind v.key = some r :=
  Option.ne_none_iff_exists'.mp fun hr => (h.tracked v.kind v.key).mp hr v hv rfl

theorem Tracked.unopened (h : Tracked db) {k : ObservationKind} {key : String} :
    openVersion db.versions k key = none ↔ db.row k key = none := by
  rw [h.tracked, openVersion_none]
  constructor
  · intro hnone v hv hobj
    obtain ⟨w,hw,hwobj,hopen,-⟩ := h.opened v hv
    rw [hnone w hw (hwobj.trans hobj)] at hopen
    cases hopen
  · exact fun hnone v hv hobj => absurd hobj (hnone v hv)

/-- A version that took over a reading's state stands beside the row that did too. -/
theorem matches_reading {v : ObjectVersion} {r : Reading} {s : StoredRow}
    (hin : digestibleState (storedState kind r) ∈ states) (hobj : v.object = (kind,r.key))
    (hstate : v.state = some (storedState kind r))
    (hhash : v.stateHash = some (stateDigest hash (storedState kind r)))
    (hlast : v.lastSeenAt = r.observedAt)
    (hcont : v.containerKey = (containerColumn kind).bind (r.column kind))
    (hs : s.columns = r.columns ∧ s.lastObservedAt = r.observedAt) : Matches hash states v s := by
  obtain ⟨rfl,hkey⟩ := Prod.mk.inj hobj
  refine ⟨⟨_,hstate,hhash,hin,?_⟩,hlast.trans hs.2.symm,?_⟩
  · unfold rowState storedState
    rw [hs.1, hkey]
  · rw [hcont]
    unfold containerOf Reading.column Database.column
    rw [hs.1, hkey]

/-- A version that was confirmed stands beside the row that was. -/
theorem matches_confirmed {v w : ObjectVersion} {r s : StoredRow} (h : Matches hash states v r)
    (hobj : w.object = v.object) (hstate : w.state = v.state) (hhash : w.stateHash = v.stateHash)
    (hcont : w.containerKey = v.containerKey) (hlast : w.lastSeenAt = s.lastObservedAt)
    (hs : digestibleState (rowState v.kind v.key s) = digestibleState (rowState v.kind v.key r)) :
    Matches hash states w s := by
  obtain ⟨x,hx,hxh,hin,heq⟩ := h.state
  obtain ⟨hk,hkey⟩ := Prod.mk.inj hobj
  refine ⟨⟨x,hstate.trans hx,hhash.trans hxh,hin,?_⟩,hlast,?_⟩
  · rw [hk, hkey, heq, hs]
  · rw [hcont, h.container, hk, hkey]
    exact containerOf_digestible hs.symm

theorem mem_incoming (hn : (rows.map (·.key)).Nodup) {e : Incoming} :
    e ∈ incoming hash kind rows ↔ ∃ r ∈ rows, e = incomingOf hash kind r := by
  rw [incoming_of_nodup hash kind hn, List.mem_map]
  exact exists_congr fun r => and_congr_right fun _ => eq_comm

/-- What becomes of the row and of the open version of one object. -/
theorem recorded_matches (h : Coupled hash states db) (hn : (rows.map (·.key)).Nodup)
    (hfree : ∀ a ∈ states, ∀ b ∈ states, hash a = hash b → a = b)
    (hin : ∀ r ∈ rows, digestibleState (storedState kind r) ∈ states)
    (ht : NoLateRevival db kind rows) {v : ObjectVersion} (hv : v ∈ db.versions.rows)
    (hopen : (recorded hash kind rows v).isOpen = true)
    (hp : (recorded hash kind rows v).isPresent = true) {s : StoredRow}
    (hs : (db.upsertRows kind rows).row (recorded hash kind rows v).kind
      (recorded hash kind rows v).key = some s) :
    Matches hash states (recorded hash kind rows v) s := by
  have hvo : v.isOpen = true := by
    by_contra hc
    rw [Bool.not_eq_true] at hc
    rw [recorded_closed hash kind rows hc, hc] at hopen
    cases hopen
  obtain ⟨r,hr⟩ := h.tracks hv
  by_cases hread : v.kind = kind ∧ v.key ∈ rows.map (·.key)
  · obtain ⟨rfl,hkey⟩ := hread
    obtain ⟨x,hx,hxkey⟩ := List.mem_map.mp hkey
    have he : incomingOf hash v.kind x ∈ incoming hash v.kind rows :=
      (mem_incoming hn).mpr ⟨x,hx,rfl⟩
    have hov : openVersion db.versions v.kind x.key = some v :=
      openVersion_some.mpr ⟨hv,by rw [ObjectVersion.object, hxkey],hvo⟩
    have hobj : v.object = (v.kind,x.key) := (openVersion_some.mp hov).2.1
    have hrow : db.row v.kind x.key = some r := by rw [hxkey]; exact hr
    have hsame : ∀ w : ObjectVersion, w.object = v.object →
        (db.upsertRows v.kind rows).row w.kind w.key = some s →
        s = KeyedTable.arrive newestWins (some r) x.row := fun w hw hws => by
      obtain ⟨hk,hkk⟩ := Prod.mk.inj (hw.trans hobj)
      rw [hk, hkk, row_upsertRows hn hx, hrow] at hws
      exact (Option.some.inj hws).symm
    rw [recorded_meets he hov] at hopen hp hs ⊢
    cases follow_moved v (incomingOf hash v.kind x) with
    | agrees hag hw =>
      rw [hw] at hs ⊢
      have hm := h.matched v hv hvo hag.1 r hr
      rw [hsame _ (grow_object v) hs]
      refine matches_confirmed hm (grow_object v) (by rw [grow_eq]) (by rw [grow_eq])
        (by rw [grow_eq]) ?_ ?_
      · rw [grow_eq]
        show (if v.lastSeenAt < x.observedAt then x.observedAt else v.lastSeenAt) =
          max r.lastObservedAt x.observedAt
        rw [hm.last]
        split
        · next hlt => exact (max_eq_right hlt.le).symm
        · next hlt => exact (max_eq_left (not_lt.mp hlt)).symm
      · obtain ⟨y,-,hyh,hyin,hy⟩ := hm.state
        have hstate : digestibleState y = digestibleState (storedState v.kind x) :=
          hfree _ hyin _ (hin x hx) (Option.some.inj (hyh.symm.trans hag.2))
        by_cases hle : r.lastObservedAt ≤ x.observedAt
        · have hnewer : ∀ z, some r = some z → z.lastObservedAt ≤ x.observedAt :=
            fun z hz => Option.some.inj hz ▸ hle
          have hcols := (arrive_newer hnewer).1
          unfold rowState
          rw [hcols, ← hxkey]
          exact hstate.symm.trans hy |>.trans (by rw [← hxkey]; rfl)
        · have hcols := (arrive_older (not_le.mp hle)).1
          unfold rowState
          rw [hcols]
    | stale hna hst hw =>
      rw [hw] at hp hs ⊢
      have hm := h.matched v hv hvo hp r hr
      rw [hsame _ rfl hs]
      have hlt : x.observedAt < r.lastObservedAt := hm.last ▸ hst
      refine matches_confirmed hm rfl rfl rfl rfl ?_ ?_
      · rw [(arrive_older hlt).2, hm.last]
      · unfold rowState
        rw [(arrive_older hlt).1]
    | replaced hna hle hfrom hw =>
      rw [hw] at hs ⊢
      rw [hsame _ rfl hs]
      refine matches_reading (hin x hx) hobj rfl rfl rfl rfl (arrive_newer fun z hz => ?_)
      obtain rfl := Option.some.inj hz
      cases hpv : v.isPresent with
      | true => exact (h.matched v hv hvo hpv r hr).last ▸ hle
      | false => exact ht x hx v hov hpv hle r hrow
    | superseded _ hw =>
      rw [hw] at hopen
      cases hopen
  · have hnone : entryFor kind (incoming hash kind rows) v = none := by
      cases he : entryFor kind (incoming hash kind rows) v with
      | none => rfl
      | some e =>
        obtain ⟨hmem,hobj,-⟩ := entryFor_some he
        obtain ⟨x,hx,rfl⟩ := (mem_incoming hn).mp hmem
        obtain ⟨hk,hkey⟩ := Prod.mk.inj hobj
        exact absurd ⟨hk,hkey ▸ List.mem_map.mpr ⟨x,hx,rfl⟩⟩ hread
    have hrec : recorded hash kind rows v = v := by
      unfold recorded
      rw [hnone]
    rw [hrec] at hp hs ⊢
    have hrow : (db.upsertRows kind rows).row v.kind v.key = db.row v.kind v.key := by
      by_cases hk : v.kind = kind
      · rw [hk]
        exact row_upsertRows_untouched fun hkey => hread ⟨hk,hkey⟩
      · exact row_upsertRows_other rows hk v.key
    rw [hrow] at hs
    exact h.matched v hv hvo hp s hs

/-- A version that was opened stands beside the row of its reading. -/
theorem opened_matches (h : Coupled hash states db) (htr : Tracked db) (hn : (rows.map (·.key)).Nodup)
    (hin : ∀ r ∈ rows, digestibleState (storedState kind r) ∈ states)
    (ht : NoLateRevival db kind rows) {x : ObjectVersion}
    (hx : x ∈ opened hash db.versions kind rows) {s : StoredRow}
    (hs : (db.upsertRows kind rows).row x.kind x.key = some s) : Matches hash states x s := by
  obtain ⟨e,he,rfl,hsup⟩ := mem_opened.mp hx
  obtain ⟨r,hr,rfl⟩ := (mem_incoming hn).mp he
  have hrow : (db.upsertRows kind rows).row kind r.key = some s := hs
  rw [row_upsertRows hn hr] at hrow
  obtain rfl := Option.some.inj hrow
  refine matches_reading (hin r hr) rfl rfl rfl rfl rfl (arrive_newer fun z hz => ?_)
  cases ho : openVersion db.versions kind r.key with
  | none => rw [htr.unopened.mp ho] at hz; cases hz
  | some v =>
    have hfresh := (hsup v ho).fresh
    obtain ⟨hv,hobj,hopen⟩ := openVersion_some.mp ho
    cases hpv : v.isPresent with
    | true =>
      obtain ⟨hk,hkey⟩ := Prod.mk.inj hobj
      exact (h.matched v hv hopen hpv z (by rw [hk, hkey]; exact hz)).last ▸ hfresh
    | false => exact ht r hr v ho hpv hfresh z hz

theorem recorded_object (hash : State → String) (kind : ObservationKind) (rows : List Reading)
    (v : ObjectVersion) : (recorded hash kind rows v).object = v.object := by
  rcases recorded_cases hash kind rows v with hv | ⟨e,-,-,-,hm⟩
  · rw [hv]
  · cases hm with
    | agrees _ hw => rw [hw]; exact grow_object v
    | stale _ _ hw => rw [hw]
    | replaced _ _ _ hw => rw [hw]; rfl
    | superseded _ hw => rw [hw]; rfl

theorem grow_seen (moment : Instant) (runId : RunId) (v : ObjectVersion) :
    v.lastSeenAt ≤ (grow moment runId v).lastSeenAt := by
  rw [grow_eq]
  dsimp only
  split
  · next hlt => exact hlt.le
  · exact le_rfl

/-- A version that a recording closed has a version behind it. -/
theorem recorded_succeeded (hash : State → String) (kind : ObservationKind) (rows : List Reading)
    (t : Table) : Succeeded t (recorded hash kind rows) (opened hash t kind rows) := by
  refine ⟨fun v _ => recorded_object hash kind rows v,fun v _ => recorded_closed hash kind rows,
    fun v _ => ?_,fun v hv hopen => ?_,fun x hx => ?_⟩
  · rcases recorded_cases hash kind rows v with hv | ⟨e,-,-,-,hm⟩
    · rw [hv]
    · cases hm with
      | agrees _ hw => rw [hw]; exact grow_seen e.observedAt e.runId v
      | stale _ _ hw => rw [hw]
      | replaced _ hle _ hw => rw [hw]; exact hle
      | superseded _ hw => rw [hw]; rfl
  · rcases recorded_cases hash kind rows v with hv' | ⟨e,he,hobj,-,hm⟩
    · exact .inl ((congrArg ObjectVersion.isOpen hv').trans hopen)
    · cases hm with
      | agrees _ hw => exact .inl (hw ▸ (grow_isOpen v).trans hopen)
      | stale _ _ hw => exact .inl ((congrArg ObjectVersion.isOpen hw).trans hopen)
      | replaced _ _ _ hw => exact .inl (hw ▸ hopen)
      | superseded hs hw =>
        refine .inr ⟨newVersion kind e,mem_opened.mpr ⟨e,he,rfl,fun w hw' => ?_⟩,hobj.symm,?_⟩
        · rw [openVersion_some.mpr ⟨hv,hobj,hopen⟩] at hw'
          cases hw'
          exact hs
        · rw [hw]
          exact hs.fresh
  · obtain ⟨e,-,rfl,-⟩ := mem_opened.mp hx
    rfl

/-- An object has a row afterwards when it had one or was read. -/
theorem recorded_row (h : Tracked db) (hn : (rows.map (·.key)).Nodup) (k : ObservationKind)
    (key : String) : (db.upsertRows kind rows).row k key = none ↔ db.row k key = none ∧
      ∀ x ∈ opened hash db.versions kind rows, x.object ≠ (k,key) := by
  by_cases hread : k = kind ∧ key ∈ rows.map (·.key)
  · obtain ⟨rfl,hkey⟩ := hread
    obtain ⟨r,hr,rfl⟩ := List.mem_map.mp hkey
    rw [row_upsertRows hn hr]
    refine iff_of_false (Option.some_ne_none _) fun ⟨hrow,hnone⟩ => ?_
    refine hnone (newVersion k (incomingOf hash k r)) (mem_opened.mpr ⟨_,?_,rfl,fun v hv => ?_⟩) rfl
    · exact (mem_incoming hn).mpr ⟨r,hr,rfl⟩
    · cases (h.unopened.mpr hrow).symm.trans hv
  · have hrow : (db.upsertRows kind rows).row k key = db.row k key := by
      by_cases hk : k = kind
      · subst hk
        exact row_upsertRows_untouched fun hkey => hread ⟨rfl,hkey⟩
      · exact row_upsertRows_other rows hk key
    rw [hrow]
    refine ⟨fun hnone => ⟨hnone,fun x hx hobj => hread ?_⟩,fun hnone => hnone.1⟩
    obtain ⟨e,he,rfl,-⟩ := mem_opened.mp hx
    obtain ⟨r,hr,rfl⟩ := (mem_incoming hn).mp he
    obtain ⟨hk,hkey⟩ := Prod.mk.inj hobj
    exact ⟨hk.symm,hkey ▸ List.mem_map.mpr ⟨r,hr,rfl⟩⟩

/-- Writing rows that were not refused is an upsert and a recording of the same rows. -/
theorem writeRows_ok {db' : Database} {o : HistoryOutcome}
    (hw : writeRows hash kind rows db = .ok (db',o)) :
    db' = db ∨ ∃ t' o', record hash kind rows db.versions = .ok (t',o') ∧
      db' = { db.upsertRows kind rows with versions := t' } := by
  unfold writeRows at hw
  split at hw
  · exact .inl (Prod.mk.inj (Except.ok.inj hw)).1.symm
  · obtain ⟨⟨t',o'⟩,hrec,hw⟩ := bind_ok.mp hw
    exact .inr ⟨t',o',hrec,(Prod.mk.inj (Except.ok.inj hw)).1.symm⟩

theorem writeRows_tracked (h : Tracked db) (hn : (rows.map (·.key)).Nodup) {db' : Database}
    {o : HistoryOutcome} (hw : writeRows hash kind rows db = .ok (db',o)) : Tracked db' := by
  rcases writeRows_ok hw with rfl | ⟨t',o',hrec,rfl⟩
  · exact h
  · exact h.succeeded (recorded_succeeded hash kind rows db.versions) (record_rows hrec)
      (recorded_row h hn)

/-- Writing the rows of one kind keeps row and version in step. -/
theorem writeRows_coupled (h : Coupled hash states db) (htr : Tracked db)
    (hn : (rows.map (·.key)).Nodup)
    (hfree : ∀ a ∈ states, ∀ b ∈ states, hash a = hash b → a = b)
    (hin : ∀ r ∈ rows, digestibleState (storedState kind r) ∈ states)
    (ht : NoLateRevival db kind rows) {db' : Database} {o : HistoryOutcome}
    (hw : writeRows hash kind rows db = .ok (db',o)) : Coupled hash states db' := by
  refine (writeRows_tracked htr hn hw).couple fun v hv hopen hp s hs => ?_
  rcases writeRows_ok hw with rfl | ⟨t',o',hrec,rfl⟩
  · exact h.matched v hv hopen hp s hs
  · rcases mem_moved (record_rows hrec) v hv with ⟨w,hw,rfl⟩ | ⟨x,hx,m,-,rfl⟩
    · exact recorded_matches h hn hfree hin ht hw hopen hp hs
    · obtain ⟨hst,hlast,hcont⟩ := opened_matches h htr hn hin ht hx hs
      exact ⟨hst,hlast,hcont⟩

end Write

/-! ### The other writes -/

section Frame
variable {hash : State → String} {states : List State} {db db' : Database}

theorem openVersion_congr {t t' : Table} {kind : ObservationKind} {key : String}
    (h : ∀ v : ObjectVersion, v.object = (kind,key) → (v ∈ t'.rows ↔ v ∈ t.rows)) :
    openVersion t' kind key = openVersion t kind key := by
  refine Option.ext fun v => ?_
  rw [openVersion_some, openVersion_some]
  constructor
  · exact fun ⟨hv,hobj,hopen⟩ => ⟨(h v hobj).mp hv,hobj,hopen⟩
  · exact fun ⟨hv,hobj,hopen⟩ => ⟨(h v hobj).mpr hv,hobj,hopen⟩

/-- Writing one kind leaves the rows and the open versions of the others. -/
theorem writeRows_frame {kind k : ObservationKind} {rows : List Reading} {o : HistoryOutcome}
    (hw : writeRows hash kind rows db = .ok (db',o)) (hk : k ≠ kind) (key : String) :
    db'.row k key = db.row k key ∧
      openVersion db'.versions k key = openVersion db.versions k key := by
  rcases writeRows_ok hw with rfl | ⟨t',o',hrec,rfl⟩
  · exact ⟨rfl,rfl⟩
  · refine ⟨row_upsertRows_other rows hk key,openVersion_congr fun v hobj => ?_⟩
    have hvk : v.kind ≠ kind := fun e => hk ((Prod.mk.inj hobj).1.symm.trans e)
    have hsame : recorded hash kind rows v = v := by
      unfold recorded entryFor
      rw [if_neg fun hc => hvk hc.1]
    show v ∈ t'.rows ↔ v ∈ db.versions.rows
    constructor
    · intro hv
      rcases mem_moved (record_rows hrec) v hv with ⟨w,hw,rfl⟩ | ⟨x,hx,m,-,rfl⟩
      · have hwk : w.kind ≠ kind := fun e => hvk (by
          rw [kind_of_object (recorded_object hash kind rows w), e])
        have hwsame : recorded hash kind rows w = w := by
          unfold recorded entryFor
          rw [if_neg fun hc => hwk hc.1]
        rw [hwsame]
        exact hw
      · obtain ⟨e,-,rfl,-⟩ := mem_opened.mp hx
        exact absurd rfl hvk
    · exact fun hv => hsame ▸ moved_stored (record_rows hrec) v hv

theorem NoLateRevival.frame {kind : ObservationKind} {rows : List Reading}
    (h : NoLateRevival db kind rows) (hf : ∀ key, db'.row kind key = db.row kind key ∧
      openVersion db'.versions kind key = openVersion db.versions kind key) :
    NoLateRevival db' kind rows := by
  intro r hr v hv hp hle s hs
  rw [(hf r.key).2] at hv
  rw [(hf r.key).1] at hs
  exact h r hr v hv hp hle s hs

theorem writeKinds_tracked {b : Batch} {kinds : List ObservationKind} {o o' : HistoryOutcome}
    (h : Tracked db) (hw : writeKinds hash b kinds o db = .ok (db',o')) : Tracked db' := by
  induction kinds generalizing db o with
  | nil =>
    obtain rfl : db = db' := (Prod.mk.inj (Except.ok.inj hw)).1
    exact h
  | cons kind kinds ih =>
    obtain ⟨⟨db1,o1⟩,hw1,hw⟩ := bind_ok.mp hw
    exact ih (writeRows_tracked h (plannedRows_nodup b kind) hw1) hw

/-- Writing the kinds of a batch keeps row and version in step. -/
theorem writeKinds_coupled {b : Batch} {kinds : List ObservationKind} (hk : kinds.Nodup)
    (hfree : ∀ a ∈ states, ∀ b ∈ states, hash a = hash b → a = b)
    (hin : ∀ kind, ∀ r ∈ plannedRows b kind, digestibleState (storedState kind r) ∈ states)
    (ht : ∀ kind ∈ kinds, NoLateRevival db kind (plannedRows b kind))
    (h : Coupled hash states db) (htr : Tracked db) {o o' : HistoryOutcome}
    (hw : writeKinds hash b kinds o db = .ok (db',o')) : Coupled hash states db' := by
  induction kinds generalizing db o with
  | nil =>
    obtain rfl : db = db' := (Prod.mk.inj (Except.ok.inj hw)).1
    exact h
  | cons kind kinds ih =>
    obtain ⟨hfresh,hk⟩ := List.nodup_cons.mp hk
    obtain ⟨⟨db1,o1⟩,hw1,hw⟩ := bind_ok.mp hw
    have h1 : Coupled hash states db1 := writeRows_coupled h htr (plannedRows_nodup b kind) hfree
      (hin kind) (ht kind (List.mem_cons_self ..)) hw1
    refine ih hk (fun k hkm => ?_) h1 (writeRows_tracked htr (plannedRows_nodup b kind) hw1) hw
    have hne : k ≠ kind := fun e => hfresh (e ▸ hkm)
    exact (ht k (List.mem_cons_of_mem kind hkm)).frame fun key => writeRows_frame hw1 hne key

theorem Tracked.congr (h : Tracked db) (hc : db'.current = db.current)
    (hv : db'.versions = db.versions) : Tracked db' := by
  refine ⟨fun kind key => ?_,?_⟩
  · rw [show db'.row kind key = db.row kind key by unfold Database.row; rw [hc], hv]
    exact h.tracked kind key
  · rw [hv]
    exact h.opened

theorem Coupled.congr (h : Coupled hash states db) (hc : db'.current = db.current)
    (hv : db'.versions = db.versions) : Coupled hash states db' := by
  have hrow : ∀ kind key, db'.row kind key = db.row kind key := fun kind key => by
    unfold Database.row
    rw [hc]
  refine ⟨fun kind key => ?_,?_,fun v hm ho hp r hr => ?_⟩
  · rw [hrow, hv]
    exact h.tracked kind key
  · rw [hv]
    exact h.opened
  · rw [hrow] at hr
    exact h.matched v (hv ▸ hm) ho hp r hr

end Frame

/-! ### Affirmations -/

section Affirm
variable {hash : State → String} {states : List State} {db db' : Database} {runId : RunId}
  {batchId : String} {sources : List Affirmation} {group : Instant × List String}
  {result result' : AffirmationResult}

/-- The keys of a group that the timeline confirms. -/
def confirmedKeys (t : Table) (keys : List String) : List String :=
  (uniqueSorted keys).filter fun k => (openVersion t .ntfsResource k).any (·.isPresent)

theorem mem_confirmedKeys {t : Table} {keys : List String} {k : String} :
    k ∈ confirmedKeys t keys ↔
      k ∈ keys ∧ ∃ v, openVersion t .ntfsResource k = some v ∧ v.isPresent = true := by
  unfold confirmedKeys
  rw [List.mem_filter, mem_uniqueSorted, Option.any_eq_true]

theorem mem_selectedKeys {t : Table} {kind : ObservationKind} {keys : List String}
    {p : Option ObjectVersion → Bool} {k : String} :
    k ∈ (((uniqueSorted keys).map fun k => (k,openVersion t kind k)).filter fun c => p c.2).map
      (·.1) ↔ k ∈ keys ∧ p (openVersion t kind k) = true := by
  rw [List.mem_map]
  constructor
  · rintro ⟨c,hc,rfl⟩
    obtain ⟨hc,hp⟩ := List.mem_filter.mp hc
    obtain ⟨x,hx,rfl⟩ := List.mem_map.mp hc
    exact ⟨mem_uniqueSorted.mp hx,hp⟩
  · rintro ⟨hk,hp⟩
    exact ⟨_,List.mem_filter.mpr ⟨List.mem_map.mpr ⟨k,mem_uniqueSorted.mpr hk,rfl⟩,hp⟩,rfl⟩

/-- What an affirmation refuses is what has no open present version. -/
theorem mem_refusedKeys {kind : ObservationKind} {keys : List String} {observedAt : Instant}
    {t t' : Table} {o : AffirmationOutcome} (h : affirm kind keys observedAt runId t = .ok (t',o))
    {k : String} : k ∈ o.refusedKeys ↔
      k ∈ keys ∧ (openVersion t kind k).any (·.isPresent) = false := by
  unfold affirm at h
  obtain ⟨t1,-,h⟩ := bind_ok.mp h
  have ho := (Prod.mk.inj (Except.ok.inj h)).2
  have hu : k ∈ o.untracked ↔ k ∈ keys ∧ (openVersion t kind k).isNone = true := by
    rw [← ho]
    exact mem_selectedKeys
  have ha : k ∈ o.absent ↔
      k ∈ keys ∧ (openVersion t kind k).any (fun v => ¬ v.isPresent) = true := by
    rw [← ho]
    exact mem_selectedKeys
  unfold AffirmationOutcome.refusedKeys
  rw [List.mem_append, hu, ha, ← and_or_left]
  refine and_congr_right fun _ => ?_
  cases openVersion t kind k with
  | none => simp
  | some v => simp

/-- A stored row that a confirmation reaches. -/
def Reached (keys : List String) (observedAt : Instant) (kind : ObservationKind) (key : String)
    (r : StoredRow) : Prop :=
  (kind = .ntfsResource ∧ key ∈ keys ∨ kind = .ntfsAce ∧ hangsUnder keys r = true) ∧
    r.lastObservedAt ≤ observedAt

instance (keys : List String) (observedAt : Instant) (kind : ObservationKind) (key : String)
    (r : StoredRow) : Decidable (Reached keys observedAt kind key r) := by
  unfold Reached; infer_instance

theorem row_confirmCurrentState (keys : List String) (observedAt : Instant)
    (kind : ObservationKind) (key : String) :
    (confirmCurrentState runId batchId keys observedAt db).1.row kind key =
      (db.row kind key).map fun r =>
        if Reached keys observedAt kind key r then confirmRow observedAt runId r else r := by
  have hcurrent : (confirmCurrentState runId batchId keys observedAt db).1.current kind =
      if kind = .ntfsResource then (db.current .ntfsResource).update
        (fun k r => k ∈ keys ∧ r.lastObservedAt ≤ observedAt) (confirmRow observedAt runId)
      else if kind = .ntfsAce then (db.current .ntfsAce).update
        (fun _ r => hangsUnder keys r ∧ r.lastObservedAt ≤ observedAt)
        (confirmRow observedAt runId)
      else db.current kind := rfl
  unfold Database.row
  rw [hcurrent]
  by_cases hr : kind = .ntfsResource
  · subst hr
    rw [if_pos rfl, KeyedTable.get?_update]
    simp [Reached]
  · by_cases ha : kind = .ntfsAce
    · subst ha
      rw [if_neg (by decide), if_pos rfl, KeyedTable.get?_update]
      simp [Reached]
    · rw [if_neg hr, if_neg ha]
      simp [Reached, hr, ha]

/-- A stored version after a group was applied. -/
def settled (t : Table) (runId : RunId) (group : Instant × List String) (v : ObjectVersion) :
    ObjectVersion :=
  contained .ntfsAce (confirmedKeys t group.2) group.1 runId
    (affirmed .ntfsResource group.2 group.1 runId v)

/-- What applying a group does to the rows and the versions. -/
theorem applyGroup_effect
    (h : applyGroup runId batchId sources group result db = .ok (db',result')) :
    db'.versions.rows = db.versions.rows.map (settled db.versions runId group) ∧
      ∀ kind key, db'.row kind key = (db.row kind key).map fun r =>
        if Reached (confirmedKeys db.versions group.2) group.1 kind key r then
          confirmRow group.1 runId r else r := by
  unfold applyGroup at h
  obtain ⟨⟨t1,o⟩,haff,h⟩ := bind_ok.mp h
  have hconf : (uniqueSorted group.2).filter (· ∉ uniqueSorted o.refusedKeys) =
      confirmedKeys db.versions group.2 := by
    refine List.filter_congr fun k hk => ?_
    have hk := mem_uniqueSorted.mp hk
    have href := mem_refusedKeys haff (k := k)
    rw [← mem_uniqueSorted] at href
    cases ha : (openVersion db.versions .ntfsResource k).any (·.isPresent) with
    | true => exact decide_eq_true fun hc => by rw [(href.mp hc).2] at ha; cases ha
    | false => exact decide_eq_false fun hc => hc (href.mpr ⟨hk,ha⟩)
  dsimp only at h
  rw [hconf] at h
  split at h
  · next hnil =>
    obtain rfl : { db with versions := t1 } = db' := (Prod.mk.inj (Except.ok.inj h)).1
    constructor
    · show t1.rows = _
      rw [affirm_rows haff]
      refine List.map_congr_left fun v _ => ?_
      unfold settled contained
      rw [if_neg]
      intro hc
      obtain ⟨-,-,-,c,hc,-⟩ := openPresent_iff.mp hc
      rw [hnil] at hc
      cases hc
    · intro kind key
      rw [hnil]
      show db.row kind key = _
      cases hr : db.row kind key with
      | none => rfl
      | some r =>
        have hnot : ¬ Reached [] group.1 kind key r := by
          rintro ⟨⟨-,hk⟩ | ⟨-,hu⟩,-⟩
          · cases hk
          · unfold hangsUnder at hu
            simp at hu
        rw [Option.map_some, if_neg hnot]
  · obtain ⟨⟨t2,o2⟩,hcon,h⟩ := bind_ok.mp h
    obtain rfl := (Prod.mk.inj (Except.ok.inj h)).1
    constructor
    · show t2.rows = _
      rw [affirmContained_rows hcon, affirm_rows haff, List.map_map]
      rfl
    · exact fun kind key => row_confirmCurrentState _ _ kind key

theorem affirmed_object (kind : ObservationKind) (keys : List String) (observedAt : Instant)
    (runId : RunId) (v : ObjectVersion) :
    (affirmed kind keys observedAt runId v).object = v.object := by
  unfold affirmed
  split
  · exact grow_object v
  · rfl

theorem affirmed_open (kind : ObservationKind) (keys : List String) (observedAt : Instant)
    (runId : RunId) (v : ObjectVersion) :
    (affirmed kind keys observedAt runId v).isOpen = v.isOpen := by
  unfold affirmed
  split
  · exact grow_isOpen v
  · rfl

theorem settled_object (t : Table) (v : ObjectVersion) :
    (settled t runId group v).object = v.object := by
  unfold settled
  rw [contained_object, affirmed_object]

theorem settled_open (t : Table) (v : ObjectVersion) :
    (settled t runId group v).isOpen = v.isOpen := by
  unfold settled
  rw [contained_open, affirmed_open]

theorem grow_present (moment : Instant) (v : ObjectVersion) :
    (grow moment runId v).isPresent = v.isPresent := by
  rw [grow_eq]

theorem settled_present (t : Table) (v : ObjectVersion) :
    (settled t runId group v).isPresent = v.isPresent := by
  unfold settled contained
  have haff : (affirmed .ntfsResource group.2 group.1 runId v).isPresent = v.isPresent := by
    unfold affirmed
    split
    · exact grow_present group.1 v
    · rfl
  split
  · exact (grow_present group.1 _).trans haff
  · exact haff

/-- The version of a confirmed resource grows, and so does the version of an
entry whose row hangs under one. -/
theorem settled_eq (h : Coupled hash states db) {v : ObjectVersion} (hv : v ∈ db.versions.rows)
    (hopen : v.isOpen = true) (hp : v.isPresent = true) {r : StoredRow}
    (hr : db.row v.kind v.key = some r) : settled db.versions runId group v =
      if v.kind = .ntfsResource ∧ v.key ∈ confirmedKeys db.versions group.2 ∨
        v.kind = .ntfsAce ∧ hangsUnder (confirmedKeys db.versions group.2) r = true then
        grow group.1 runId v else v := by
  have hov : openVersion db.versions v.kind v.key = some v := openVersion_some.mpr ⟨hv,rfl,hopen⟩
  unfold settled
  by_cases hres : v.kind = .ntfsResource
  · have hnot : ∀ w : ObjectVersion, w.object = v.object →
        contained .ntfsAce (confirmedKeys db.versions group.2) group.1 runId w = w := fun w hw => by
      unfold contained
      rw [if_neg fun hc => ?_]
      have hk := (openPresent_iff.mp hc).1
      rw [kind_of_object hw, hres] at hk
      cases hk
    rw [hnot _ (affirmed_object ..)]
    unfold affirmed
    refine if_congr ?_ rfl rfl
    rw [hres] at hov
    constructor
    · exact fun hc => .inl ⟨hres,mem_confirmedKeys.mpr ⟨hc.2.1,v,hov,hp⟩⟩
    · rintro (⟨-,hk⟩ | ⟨hk,-⟩)
      · exact ⟨hres,(mem_confirmedKeys.mp hk).1,hopen,hp⟩
      · rw [hres] at hk
        cases hk
  · have hsame : affirmed .ntfsResource group.2 group.1 runId v = v := by
      unfold affirmed
      rw [if_neg fun hc => hres hc.1]
    rw [hsame]
    unfold contained
    refine if_congr ?_ rfl rfl
    rw [openPresent_iff]
    have hcont := (h.matched v hv hopen hp r hr).container
    constructor
    · rintro ⟨hk,-,-,c,hc,hvc⟩
      rw [hvc, hk] at hcont
      refine .inr ⟨hk,?_⟩
      have hcol : some c = textColumn r.columns "resource_key" := hcont
      unfold hangsUnder
      rw [← hcol]
      simpa using hc
    · rintro (⟨hk,-⟩ | ⟨hk,hu⟩)
      · exact absurd hk hres
      · rw [hk] at hcont
        have hcol : v.containerKey = textColumn r.columns "resource_key" := hcont
        unfold hangsUnder at hu
        rw [← hcol] at hu
        obtain ⟨c,hc,hmem⟩ := (Option.any_eq_true _ _).mp hu
        exact ⟨hk,hopen,hp,c,of_decide_eq_true hmem,hc⟩

theorem affirmed_succeeded (t : Table) : Succeeded t (settled t runId group) [] := by
  have hgrown : ∀ v : ObjectVersion, settled t runId group v = v ∨ v.isOpen = true ∧
      v.lastSeenAt ≤ (settled t runId group v).lastSeenAt := fun v => by
    have haff : affirmed .ntfsResource group.2 group.1 runId v = v ∨ v.isOpen = true ∧
        v.lastSeenAt ≤ (affirmed .ntfsResource group.2 group.1 runId v).lastSeenAt := by
      unfold affirmed
      split
      · next hc => exact .inr ⟨hc.2.2.1,grow_seen group.1 runId v⟩
      · exact .inl rfl
    unfold settled contained
    split
    · next hc =>
      have hopen := (openPresent_iff.mp hc).2.1
      rw [affirmed_open] at hopen
      refine .inr ⟨hopen,le_trans ?_ (grow_seen group.1 runId _)⟩
      rcases haff with haff | haff
      · rw [haff]
      · exact haff.2
    · exact haff
  refine ⟨fun v _ => settled_object t v,fun v _ hc => ?_,fun v _ => ?_,
    fun v _ hopen => .inl ((settled_open t v).trans hopen),fun x hx => absurd hx List.not_mem_nil⟩
  · rcases hgrown v with hv | ⟨hopen,-⟩
    · exact hv
    · rw [hc] at hopen
      cases hopen
  · rcases hgrown v with hv | ⟨-,hle⟩
    · rw [hv]
    · exact hle

theorem applyGroup_tracked (h : Tracked db)
    (hg : applyGroup runId batchId sources group result db = .ok (db',result')) : Tracked db' := by
  obtain ⟨hversions,hrows⟩ := applyGroup_effect hg
  refine h.succeeded (n := 0) (affirmed_succeeded db.versions)
    (by rw [hversions, numberedFrom, List.append_nil]) fun kind key => ?_
  rw [hrows, Option.map_eq_none_iff]
  exact ⟨fun hnone => ⟨hnone,fun x hx => absurd hx List.not_mem_nil⟩,fun hnone => hnone.1⟩

theorem applyGroups_tracked {groups : List (Instant × List String)} (h : Tracked db)
    (hg : applyGroups runId batchId sources groups result db = .ok (db',result')) :
    Tracked db' := by
  induction groups generalizing db result with
  | nil =>
    obtain rfl : db = db' := (Prod.mk.inj (Except.ok.inj hg)).1
    exact h
  | cons group groups ih =>
    obtain ⟨⟨db1,result1⟩,h1,hg⟩ := bind_ok.mp hg
    exact ih (applyGroup_tracked h h1) hg

/-- Applying a group of affirmations keeps row and version in step. -/
theorem applyGroup_coupled (h : Coupled hash states db) (htr : Tracked db)
    (hg : applyGroup runId batchId sources group result db = .ok (db',result')) :
    Coupled hash states db' := by
  obtain ⟨hversions,hrows⟩ := applyGroup_effect hg
  refine (applyGroup_tracked htr hg).couple fun w hw hopen hp s hs => ?_
  rw [hversions] at hw
  obtain ⟨v,hv,rfl⟩ := List.mem_map.mp hw
  rw [settled_open] at hopen
  rw [settled_present] at hp
  obtain ⟨r,hr⟩ := h.tracks hv
  have hobj : (settled db.versions runId group v).object = v.object := settled_object ..
  obtain ⟨hk,hkey⟩ := Prod.mk.inj hobj
  rw [show (settled db.versions runId group v).kind = v.kind from hk,
    show (settled db.versions runId group v).key = v.key from hkey, hrows, hr] at hs
  have hs : (if Reached (confirmedKeys db.versions group.2) group.1 v.kind v.key r then
      confirmRow group.1 runId r else r) = s := Option.some.inj hs
  have hm := h.matched v hv hopen hp r hr
  rw [settled_eq h hv hopen hp hr]
  by_cases hreach : v.kind = .ntfsResource ∧ v.key ∈ confirmedKeys db.versions group.2 ∨
      v.kind = .ntfsAce ∧ hangsUnder (confirmedKeys db.versions group.2) r = true
  · have hcols : s.columns = r.columns := by rw [← hs]; split <;> rfl
    have hlast : s.lastObservedAt =
        if r.lastObservedAt < group.1 then group.1 else r.lastObservedAt := by
      rw [← hs]
      by_cases hle : r.lastObservedAt ≤ group.1
      · rw [if_pos (show Reached _ _ _ _ _ from ⟨hreach,hle⟩)]
        show group.1 = _
        split
        · rfl
        · next hlt => exact le_antisymm (not_lt.mp hlt) hle
      · rw [if_neg (show ¬ Reached _ _ _ _ _ from fun hc => hle hc.2),
          if_neg fun hlt => hle hlt.le]
    rw [if_pos hreach]
    refine matches_confirmed hm (grow_object v) (by rw [grow_eq]) (by rw [grow_eq])
      (by rw [grow_eq]) ?_ ?_
    · rw [grow_eq, hlast, ← hm.last]
    · unfold rowState
      rw [hcols]
  · rw [if_neg hreach]
    rw [if_neg (show ¬ Reached _ _ _ _ _ from fun hc => hreach hc.1)] at hs
    exact hs ▸ hm

theorem applyGroups_coupled {groups : List (Instant × List String)} (h : Coupled hash states db)
    (htr : Tracked db)
    (hg : applyGroups runId batchId sources groups result db = .ok (db',result')) :
    Coupled hash states db' := by
  induction groups generalizing db result with
  | nil =>
    obtain rfl : db = db' := (Prod.mk.inj (Except.ok.inj hg)).1
    exact h
  | cons group groups ih =>
    obtain ⟨⟨db1,result1⟩,h1,hg⟩ := bind_ok.mp hg
    exact ih (applyGroup_coupled h htr h1) (applyGroup_tracked htr h1) hg

end Affirm

/-! ### Completions and runs -/

section Runs
variable {hash : State → String} {casefold : String → String} {states : List State}
  {db db' : Database}

/-- Of the versions a scope loses, the present ones are closed and the tombstones confirmed. -/
theorem absented_cases {runId : RunId} {collector : CollectorKind} {scopeKind : ScopeKind}
    {scopeKey : String} {completedAt : Instant} (v : ObjectVersion) :
    (lostToScope casefold db runId collector scopeKind scopeKey completedAt v = false ∧
      absented casefold db runId collector scopeKind scopeKey completedAt v = v) ∨
    (lostToScope casefold db runId collector scopeKind scopeKey completedAt v = true ∧
      v.isPresent = true ∧ absented casefold db runId collector scopeKind scopeKey completedAt v =
        (closing v.versionId completedAt .absent runId).2 v) ∨
    (lostToScope casefold db runId collector scopeKind scopeKey completedAt v = true ∧
      v.isPresent = false ∧ absented casefold db runId collector scopeKind scopeKey completedAt v =
        (reaffirmation v completedAt runId).2 v) := by
  unfold absented closedBy
  split
  · next hl =>
    split
    · next hp => exact .inr (.inl ⟨hl,hp,rfl⟩)
    · next hp => exact .inr (.inr ⟨hl,Bool.not_eq_true _ ▸ hp,rfl⟩)
  · next hl => exact .inl ⟨Bool.not_eq_true _ ▸ hl,rfl⟩

theorem closeAbsent_succeeded {runId : RunId} {collector : CollectorKind} {scopeKind : ScopeKind}
    {scopeKey : String} {completedAt : Instant} {news : List ObjectVersion}
    (hnews : ∀ w, w ∈ news ↔ ∃ v ∈ db.versions.rows,
      lostToScope casefold db runId collector scopeKind scopeKey completedAt v = true ∧
      v.isPresent = true ∧ w = tombstone v completedAt runId) :
    Succeeded db.versions (absented casefold db runId collector scopeKind scopeKey completedAt)
      news := by
  refine ⟨fun v _ => absented_object v,fun v _ => absented_closed,fun v _ => ?_,
    fun v hv hopen => ?_,fun x hx => ?_⟩
  · rcases absented_cases v with ⟨-,hv⟩ | ⟨-,-,hv⟩ | ⟨hl,-,hv⟩
    · rw [hv]
    · rw [hv]
      rfl
    · rw [hv]
      exact (lostToScope_open hl).2
  · rcases absented_cases v with ⟨-,hv'⟩ | ⟨hl,hp,hv'⟩ | ⟨-,-,hv'⟩
    · exact .inl ((congrArg ObjectVersion.isOpen hv').trans hopen)
    · refine .inr ⟨tombstone v completedAt runId,(hnews _).mpr ⟨v,hv,hl,hp,rfl⟩,rfl,?_⟩
      rw [hv']
      exact (lostToScope_open hl).2
    · exact .inl ((congrArg ObjectVersion.isOpen hv').trans hopen)
  · obtain ⟨v,-,-,-,rfl⟩ := (hnews x).mp hx
    rfl

theorem closeAbsent_tracked (h : Tracked db) {runId : RunId} {collector : CollectorKind}
    {scopeKind : ScopeKind} {scopeKey : String} {completedAt : Instant} {t' : Table}
    {o : ClosureOutcome}
    (hc : closeAbsent casefold db runId collector scopeKind scopeKey completedAt = .ok (t',o)) :
    Tracked { db with versions := t' } := by
  obtain ⟨news,hrows,hnews⟩ := closeAbsent_rows hc
  refine h.succeeded (closeAbsent_succeeded hnews) hrows fun kind key => ?_
  show db.row kind key = none ↔ _
  refine ⟨fun hnone => ⟨hnone,fun x hx hobj => ?_⟩,fun hnone => hnone.1⟩
  obtain ⟨v,hv,-,-,rfl⟩ := (hnews x).mp hx
  exact (h.tracked kind key).mp hnone v hv hobj

theorem closeReconciled_tracked {runId : RunId} {collector : CollectorKind} {completedAt : Instant}
    {scopes : List (ScopeKind × String)} {o : List ClosureOutcome} (h : Tracked db)
    (hc : closeReconciled casefold runId collector completedAt scopes db = .ok (db',o)) :
    Tracked db' := by
  induction scopes generalizing db o with
  | nil =>
    obtain rfl : db = db' := (Prod.mk.inj (Except.ok.inj hc)).1
    exact h
  | cons scope scopes ih =>
    obtain ⟨⟨t1,o1⟩,h1,hc⟩ := bind_ok.mp hc
    obtain ⟨⟨db2,o2⟩,h2,hc⟩ := bind_ok.mp hc
    obtain rfl : db2 = db' := (Prod.mk.inj (Except.ok.inj hc)).1
    exact ih (closeAbsent_tracked h h1) h2

/-- Closing a scope hides what it loses and leaves the rest in step. -/
theorem closeAbsent_coupled (h : Coupled hash states db) (htr : Tracked db) {runId : RunId}
    {collector : CollectorKind} {scopeKind : ScopeKind} {scopeKey : String} {completedAt : Instant}
    {t' : Table} {o : ClosureOutcome}
    (hc : closeAbsent casefold db runId collector scopeKind scopeKey completedAt = .ok (t',o)) :
    Coupled hash states { db with versions := t' } := by
  obtain ⟨news,hrows,hnews⟩ := closeAbsent_rows hc
  refine (closeAbsent_tracked htr hc).couple fun w hw hopen hp r hr => ?_
  rcases mem_moved hrows w hw with ⟨v,hv,rfl⟩ | ⟨x,hx,m,-,rfl⟩
  · have hsame : absented casefold db runId collector scopeKind scopeKey completedAt v = v := by
      unfold absented closedBy at hopen hp ⊢
      split
      · next hl =>
        rw [if_pos hl] at hopen hp
        split at hopen
        · cases hopen
        · next hpv =>
          rw [if_neg hpv] at hp
          exact absurd hp hpv
      · rfl
    rw [hsame] at hopen hp hr ⊢
    exact h.matched v hv hopen hp r hr
  · obtain ⟨v,-,-,-,rfl⟩ := (hnews x).mp hx
    cases hp

theorem closeReconciled_coupled {runId : RunId} {collector : CollectorKind} {completedAt : Instant}
    {scopes : List (ScopeKind × String)} {o : List ClosureOutcome} (h : Coupled hash states db)
    (htr : Tracked db)
    (hc : closeReconciled casefold runId collector completedAt scopes db = .ok (db',o)) :
    Coupled hash states db' := by
  induction scopes generalizing db o with
  | nil =>
    obtain rfl : db = db' := (Prod.mk.inj (Except.ok.inj hc)).1
    exact h
  | cons scope scopes ih =>
    obtain ⟨⟨t1,o1⟩,h1,hc⟩ := bind_ok.mp hc
    obtain ⟨⟨db2,o2⟩,h2,hc⟩ := bind_ok.mp hc
    obtain rfl : db2 = db' := (Prod.mk.inj (Except.ok.inj hc)).1
    exact ih (closeAbsent_coupled h htr h1) (closeAbsent_tracked htr h1) h2

theorem applyBatch_tracked {b : Batch} (h : Tracked db) {o : HistoryOutcome × AffirmationResult}
    (hb : applyBatch hash b db = .ok (db',o)) : Tracked db' := by
  obtain ⟨⟨db1,o1⟩,h1,hb⟩ := bind_ok.mp hb
  obtain ⟨⟨db2,r2⟩,h2,hb⟩ := bind_ok.mp hb
  obtain rfl : db2 = db' := (Prod.mk.inj (Except.ok.inj hb)).1
  obtain ⟨⟨db3,r3⟩,h3,h2⟩ := bind_ok.mp h2
  obtain rfl : db3 = db2 := (Prod.mk.inj (Except.ok.inj h2)).1
  have hwritten : Tracked (writeObservations b (writeReferences b (writeAliases b db1))) :=
    (writeKinds_tracked h h1).congr rfl rfl
  exact applyGroups_tracked hwritten h3

theorem applyBatch_coupled {b : Batch} (h : Coupled hash states db) (htr : Tracked db)
    (hfree : ∀ a ∈ states, ∀ b ∈ states, hash a = hash b → a = b)
    (hin : batchStates [.batch b] ⊆ states) (ht : Timely db (.batch b))
    {o : HistoryOutcome × AffirmationResult} (hb : applyBatch hash b db = .ok (db',o)) :
    Coupled hash states db' := by
  obtain ⟨⟨db1,o1⟩,h1,hb⟩ := bind_ok.mp hb
  obtain ⟨⟨db2,r2⟩,h2,hb⟩ := bind_ok.mp hb
  obtain rfl : db2 = db' := (Prod.mk.inj (Except.ok.inj hb)).1
  obtain ⟨⟨db3,r3⟩,h3,h2⟩ := bind_ok.mp h2
  obtain rfl : db3 = db2 := (Prod.mk.inj (Except.ok.inj h2)).1
  have hkinds : Coupled hash states db1 := by
    refine writeKinds_coupled (by decide) hfree (fun kind r hr => ?_) (fun kind _ => ht kind) h htr h1
    obtain ⟨o,ho,rfl,rfl⟩ := plannedRows_origin hr
    exact hin (List.mem_flatMap.mpr ⟨_,List.mem_singleton_self _,List.mem_map.mpr ⟨o,ho,rfl⟩⟩)
  have hwritten : Coupled hash states (writeObservations b (writeReferences b (writeAliases b db1))) :=
    hkinds.congr rfl rfl
  exact applyGroups_coupled hwritten ((writeKinds_tracked htr h1).congr rfl rfl) h3

/-- No transaction loses track of an object. -/
theorem commit_tracked (h : Tracked db) (x : Transaction) :
    Tracked (commit hash casefold db x) := by
  unfold commit
  cases hx : x.write hash casefold db with
  | error e => exact h
  | ok db' =>
    cases x with
    | batch b =>
      obtain ⟨⟨db1,o⟩,hb,rfl⟩ := map_ok.mp hx
      exact applyBatch_tracked h hb
    | completion c =>
      obtain ⟨⟨db1,o⟩,hc,rfl⟩ := map_ok.mp hx
      exact closeReconciled_tracked h hc

theorem tracked_empty : Tracked {} :=
  ⟨fun _ _ => iff_of_true rfl fun _ hv => (nomatch hv),fun _ hv => (nomatch hv)⟩

theorem commitAll_tracked (h : Tracked db) (xs : List Transaction) :
    Tracked (commitAll hash casefold db xs) := by
  induction xs generalizing db with
  | nil => exact h
  | cons x xs ih => exact ih (commit_tracked h x)

/-- A transaction that is timely keeps row and version in step, and one that is
refused changes nothing. -/
theorem commit_coupled {x : Transaction} (h : Coupled hash states db) (htr : Tracked db)
    (hfree : ∀ a ∈ states, ∀ b ∈ states, hash a = hash b → a = b)
    (hin : batchStates [x] ⊆ states) (ht : Timely db x) :
    Coupled hash states (commit hash casefold db x) := by
  unfold commit
  cases hx : x.write hash casefold db with
  | error e => exact h
  | ok db' =>
    cases x with
    | batch b =>
      obtain ⟨⟨db1,o⟩,hb,rfl⟩ := map_ok.mp hx
      exact applyBatch_coupled h htr hfree hin ht hb
    | completion c =>
      obtain ⟨⟨db1,o⟩,hc,rfl⟩ := map_ok.mp hx
      exact closeReconciled_coupled h htr hc

theorem commitAll_coupled {xs : List Transaction} (h : Coupled hash states db) (htr : Tracked db)
    (hfree : ∀ a ∈ states, ∀ b ∈ states, hash a = hash b → a = b)
    (hin : batchStates xs ⊆ states) (ht : AllTimely hash casefold db xs) (n : ℕ) :
    Coupled hash states (commitAll hash casefold db (xs.take n)) := by
  induction xs generalizing db n with
  | nil => simpa [commitAll] using h
  | cons x xs ih =>
    cases n with
    | zero => exact h
    | succ n =>
      have hsplit : batchStates (x :: xs) = batchStates [x] ++ batchStates xs := by
        simp [batchStates]
      rw [hsplit] at hin
      have hstep : Coupled hash states (commit hash casefold db x) :=
        commit_coupled h htr hfree (fun s hs => hin (List.mem_append_left _ hs)) ht.1
      exact ih hstep (commit_tracked htr x) (fun s hs => hin (List.mem_append_right _ hs)) ht.2 n

theorem mem_currentlyPresent {kind : ObservationKind} {key : String} {r : StoredRow} :
    (key,r) ∈ currentlyPresent db kind ↔ db.row kind key = some r ∧
      ∀ v, openVersion db.versions kind key = some v → v.isPresent = true := by
  unfold currentlyPresent Database.row
  rw [List.mem_filter, KeyedTable.get?_eq_some]
  refine and_congr_right fun _ => ?_
  have hany : (db.versions.rows.any fun v =>
      v.kind = kind ∧ v.key = key ∧ v.isOpen ∧ ¬ v.isPresent) = true ↔
      ∃ v, openVersion db.versions kind key = some v ∧ ¬ v.isPresent = true := by
    rw [List.any_eq_true]
    constructor
    · rintro ⟨v,hv,h⟩
      obtain ⟨hk,hkey,hopen,hp⟩ := of_decide_eq_true h
      exact ⟨v,openVersion_some.mpr ⟨hv,Prod.ext hk hkey,hopen⟩,hp⟩
    · rintro ⟨v,hv,hp⟩
      obtain ⟨hm,hobj,hopen⟩ := openVersion_some.mp hv
      obtain ⟨hk,hkey⟩ := Prod.mk.inj hobj
      exact ⟨v,hm,decide_eq_true ⟨hk,hkey,hopen,hp⟩⟩
  rw [decide_eq_true_eq, hany, not_exists]
  exact forall_congr' fun v => by rw [not_and, not_not]

theorem Coupled.inStep (h : Coupled hash states db) : InStep db := by
  refine ⟨fun kind key hex => ?_,fun kind key r v hr hv => ?_⟩
  · obtain ⟨w,hw,hobj⟩ := hex
    obtain ⟨u,hu,huobj,hopen⟩ := h.opened w hw
    have hou : openVersion db.versions kind key = some u :=
      openVersion_some.mpr ⟨hu,huobj.trans hobj,hopen⟩
    constructor
    · rintro ⟨r,hr⟩
      exact ⟨u,hou,(mem_currentlyPresent.mp hr).2 u hou⟩
    · rintro ⟨v,hv,hp⟩
      obtain rfl : v = u := Option.some.inj (hv.symm.trans hou)
      obtain ⟨r,hr⟩ := h.tracks hu
      obtain ⟨hk,hkey⟩ := Prod.mk.inj (huobj.trans hobj)
      rw [hk, hkey] at hr
      refine ⟨r,mem_currentlyPresent.mpr ⟨hr,fun x hx => ?_⟩⟩
      rw [Option.some.inj (hx.symm.trans hou)]
      exact hp
  · obtain ⟨hrow,hpres⟩ := mem_currentlyPresent.mp hr
    obtain ⟨hm,hobj,hopen⟩ := openVersion_some.mp hv
    obtain ⟨rfl,rfl⟩ := Prod.mk.inj hobj
    obtain ⟨⟨s,hs,-,-,heq⟩,hlast,-⟩ := h.matched v hm hopen (hpres v hv) r hrow
    exact ⟨s,hs,heq.symm,hlast.symm⟩

end Runs

/-- From an empty database, as long as no reading revives an object from before
the instant its row was last confirmed at, the live estate and the open versions
say the same in every state the transactions reach. -/
theorem estates_in_step (hash : State → String) (casefold : String → String)
    (xs : List Transaction)
    (hfree : ∀ a ∈ batchStates xs, ∀ b ∈ batchStates xs, hash a = hash b → a = b)
    (ht : AllTimely hash casefold {} xs) (n : ℕ) :
    InStep (commitAll hash casefold {} (xs.take n)) := by
  have hstart : Coupled hash (batchStates xs) {} :=
    ⟨fun _ _ => iff_of_true rfl fun v hv => (nomatch hv),fun v hv => (nomatch hv),
      fun v hv => (nomatch hv)⟩
  exact (commitAll_coupled hstart tracked_empty hfree (List.Subset.refl _) ht n).inStep

namespace Sample

def digest (state : State) : String :=
  (textColumn state "resource_key").getD "" ++ (textColumn state "ace_key").getD ""

def folder (runId : RunId) (observedAt : Instant) : Observed where
  kind := .ntfsResource
  sourceKey := "resource|folder"
  row :=
    { key := "folder"
      columns := [("share_key",.text "fs01|data"), ("acl_hash",.text "h"),
        (sourceKey,.text "resource|folder")]
      observedAt := observedAt
      runId := runId }

def entry (runId : RunId) (observedAt : Instant) : Observed where
  kind := .ntfsAce
  sourceKey := "ntfs_ace|ace"
  row :=
    { key := "ace"
      columns := [("resource_key",.text "folder"), (sourceKey,.text "ntfs_ace|ace")]
      observedAt := observedAt
      runId := runId }

def firstScan : Transaction := .batch ⟨"r1","b1",[folder "r1" 1, entry "r1" 1],[]⟩

/-- The second run finds the folder without the entry and reconciles its share.
The third affirms the folder, and then a delayed reading of the entry arrives. -/
def lateRevival : List Transaction :=
  [firstScan, .batch ⟨"r2","b2",[folder "r2" 2],[]⟩,
    .completion ⟨"r2",.ntfs,[(.share,"fs01|data")],3⟩,
    .batch ⟨"r3","b3",[],[⟨"resource|folder","folder","h",9⟩]⟩,
    .batch ⟨"r4","b4",[entry "r4" 5],[]⟩]

end Sample

theorem estates_in_step_sample :
    InStep (commitAll Sample.digest id {} ([Sample.firstScan].take 1)) :=
  estates_in_step Sample.digest id [Sample.firstScan] (by decide +kernel)
    ⟨fun _ _ _ _ hv => (nomatch hv),trivial⟩ 1

/-- The affirmed folder moved the row of its tombstoned entry to the ninth
instant; the version that revived it was last seen at the fifth. -/
theorem late_revival_out_of_step :
    ¬ InStep (commitAll Sample.digest id {} Sample.lateRevival) := by
  have hrow : ((currentlyPresent (commitAll Sample.digest id {} Sample.lateRevival) .ntfsAce).map
      fun e => (e.1,e.2.lastObservedAt)) = [("ace",9)] := by decide +kernel
  have hversion : (openVersion (commitAll Sample.digest id {} Sample.lateRevival).versions .ntfsAce
      "ace").map (·.lastSeenAt) = some 5 := by decide +kernel
  intro h
  obtain ⟨e,he,hes⟩ : ∃ e ∈ currentlyPresent (commitAll Sample.digest id {} Sample.lateRevival)
      .ntfsAce, (e.1,e.2.lastObservedAt) = ("ace",9) :=
    List.mem_map.mp (hrow ▸ List.mem_singleton_self _)
  obtain ⟨v,hv,hlast⟩ := Option.map_eq_some_iff.mp hversion
  obtain ⟨hkey,hrow⟩ := Prod.mk.inj hes
  obtain ⟨s,-,-,hsame⟩ := h.same .ntfsAce e.1 e.2 v he (by rw [hkey]; exact hv)
  rw [hrow, hlast] at hsame
  cases hsame

end Adg.LiveEstate
