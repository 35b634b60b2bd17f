import Adg.ClosureSteps
import Adg.RunInterleaving

/-!
# A finished run

A completion judges on the batches it counts while it holds the run's row. A
batch that read the status before does not wait for it, and commits later.
When none is under way as the completion commits, the run is finished: no batch
commits after it, its count stays right, and it buried nothing that was seen.
-/

set_option autoImplicit false

namespace Adg.FinishedRun
open Adg.ObjectVersions Adg.KeyedTables Adg.VersionTable Adg.CurrentState Adg.ScopeClosure
open Adg.HistoryWriter Adg.Ingestion Adg.Checkpoints Adg.ScanRuns Adg.SourceKeys
open Adg.RunInterleaving

variable {text : TextRules} {w w' : World text}

/-! ### The invariant -/

/-- An object stands in the committed record of the run. -/
def OnRecord (w : World text) (o : Object) : Prop :=
  ∃ e ∈ w.db.observations.entries, e.1.1 = w.runId ∧ (e.2.kind,e.2.subjectKey) = o

theorem observed_iff {o : Object} : w.db.observed w.runId o.1 o.2 = true ↔ OnRecord w o := by
  simp only [Database.observed, List.any_eq_true, decide_eq_true_eq, OnRecord, Prod.ext_iff]

theorem onRecord_iff {o : Object} :
    OnRecord w o ↔ ∃ e ∈ ownRecord w.runId w.db, (e.2.kind,e.2.subjectKey) = o := by
  simp [OnRecord, ownRecord, and_assoc]

/-- A transaction that has the row of the run. -/
def holds : Tx text → Bool
  | .batch _ (.counted _) | .completion _ (.locked _) | .completion _ (.closing _ _) => true
  | _ => false

/-- What a transaction knows is still so. -/
def Current (w : World text) : Tx text → Prop
  | .batch b _ => wellFormed w.runId b = true
  | .completion c phase =>
    (∀ row, phase = .locked row → row = w.run) ∧
    ∀ row tombstones, phase = .closing row tombstones →
      row = w.run ∧ accepts c row = true ∧ ∀ o ∈ tombstones, ¬ OnRecord w o

structure Coherent (w : World text) : Prop where
  received : w.run.batchCountReceived = w.applied.length
  unfinished : w.judged = none → w.run.status.isTerminal = false ∧ w.tombstoned = []
  finished : ∀ n, w.judged = some n → w.run.status.isTerminal = true ∧ w.applied.length = n ∧
    (∀ (i : ℕ) (tx : Tx text), w.txs[i]? = some tx → tx.inFlight = false) ∧ ∀ o ∈ w.tombstoned, o ∉ w.seen
  alone : ∀ (i : ℕ) (tx : Tx text), w.txs[i]? = some tx → holds tx = true → w.lock = some i
  current : ∀ (i : ℕ) (tx : Tx text), w.txs[i]? = some tx → Current w tx
  record : ∀ o ∈ w.seen, OnRecord w o
  keyed : ∀ e ∈ w.db.observations.entries, e.1.1 = w.runId →
    e.1.2 = sourceKeyOf (e.2.kind,e.2.subjectKey)

theorem Opened.coherent (h : Opened w) : Coherent w := by
  have hnone : ∀ (i : ℕ) (tx : Tx text), w.txs[i]? ≠ some tx := by
    intro i tx hi
    rw [h.txs, List.getElem?_nil] at hi
    cases hi
  exact
    { received := by rw [h.received, h.applied, List.length_nil]
      unfinished := fun _ => ⟨by rw [h.running]; rfl,h.tombstoned⟩
      finished := fun n hn => by rw [h.judged] at hn; cases hn
      alone := fun i tx hi => absurd hi (hnone i tx)
      current := fun i tx hi => absurd hi (hnone i tx)
      record := fun o ho => by rw [h.seen] at ho; cases ho
      keyed := fun e he hrun => by
        have : e ∈ ownRecord w.runId w.db := List.mem_filter.mpr ⟨he,by simpa using hrun⟩
        rw [h.record] at this
        cases this }

theorem get_put {txs : List (Tx text)} {i j : ℕ} {old new tx : Tx text} (hi : txs[i]? = some old)
    (h : (txs.set i new)[j]? = some tx) : j = i ∧ tx = new ∨ j ≠ i ∧ txs[j]? = some tx := by
  rw [List.getElem?_set] at h
  by_cases hij : i = j
  · subst hij
    have hlt : i < txs.length := (List.getElem?_eq_some_iff.mp hi).1
    rw [if_pos rfl, if_pos hlt] at h
    exact .inl ⟨rfl,(Option.some.inj h).symm⟩
  · rw [if_neg hij] at h
    exact .inr ⟨fun e => hij e.symm,h⟩

/-- A transaction moves on and nothing is committed. -/
theorem Coherent.put (h : Coherent w) {i : ℕ} {old new : Tx text} (hi : w.txs[i]? = some old)
    (lock : Option ℕ) (hnew : holds new = true → lock = some i)
    (hothers : ∀ (j : ℕ) (tx : Tx text), j ≠ i → w.txs[j]? = some tx → holds tx = true → lock = some j)
    (hcurrent : Current w new) (hquiet : w.judged.isSome = true → new.inFlight = false) :
    Coherent { w.put i new with lock := lock } where
  received := h.received
  unfinished := h.unfinished
  finished n hn := by
    obtain ⟨hterm,hcount,hflight,hsafe⟩ := h.finished n hn
    refine ⟨hterm,hcount,fun j tx hj => ?_,hsafe⟩
    rcases get_put hi hj with ⟨-,rfl⟩ | ⟨-,hj⟩
    · exact hquiet (by rw [show w.judged = some n from hn]; rfl)
    · exact hflight j tx hj
  alone j tx hj hh := by
    rcases get_put hi hj with ⟨rfl,rfl⟩ | ⟨hne,hj⟩
    · exact hnew hh
    · exact hothers j tx hne hj hh
  current j tx hj := by
    have hsame : ∀ tx, Current w tx → Current { w.put i new with lock := lock } tx := by
      intro tx ht
      cases tx <;> exact ht
    rcases get_put hi hj with ⟨-,rfl⟩ | ⟨-,hj⟩
    · exact hsame _ hcurrent
    · exact hsame _ (h.current j tx hj)
  record := h.record
  keyed := h.keyed

/-- A transaction that does not have the row goes on without it. -/
theorem Coherent.move (h : Coherent w) {i : ℕ} {old new : Tx text} (hi : w.txs[i]? = some old)
    (hnew : holds new = false) (hcurrent : Current w new)
    (hquiet : w.judged.isSome = true → new.inFlight = false) : Coherent (w.put i new) :=
  h.put hi w.lock (fun hh => absurd hh (by rw [hnew]; exact Bool.false_ne_true))
    (fun j tx _ hj hh => h.alone j tx hj hh) hcurrent hquiet

/-- A transaction ends without writing and gives the row back. -/
theorem Coherent.leave (h : Coherent w) {i : ℕ} {old new : Tx text} (hi : w.txs[i]? = some old)
    (hnew : holds new = false) (hcurrent : Current w new) (hflight : new.inFlight = false) :
    Coherent ((w.put i new).release i) := by
  refine h.put hi _ (fun hh => absurd hh (by rw [hnew]; exact Bool.false_ne_true))
    (fun j tx hne hj hh => ?_) hcurrent fun _ => hflight
  have hlock : w.lock = some j := h.alone j tx hj hh
  show (if w.lock = some i then none else w.lock) = some j
  rw [hlock, if_neg fun e => hne (Option.some.inj e)]

/-- While the row is free no transaction has it. -/
theorem Coherent.free (h : Coherent w) (hlock : w.lock.isSome = false) {i : ℕ} {tx : Tx text}
    (hi : w.txs[i]? = some tx) : holds tx = false := by
  by_contra hh
  rw [Bool.not_eq_false] at hh
  rw [h.alone i tx hi hh] at hlock
  cases hlock

/-- A batch that is under way started before any completion committed. -/
theorem Coherent.unjudged (h : Coherent w) {i : ℕ} {tx : Tx text} (hi : w.txs[i]? = some tx)
    (hf : tx.inFlight = true) : w.judged = none := by
  cases hj : w.judged with
  | none => rfl
  | some n =>
    obtain ⟨-,-,hflight,-⟩ := h.finished n hj
    rw [hflight i tx hi] at hf
    cases hf

theorem current_batch {b : Batch} {p q : BatchPhase} (h : Current w (.batch b p)) :
    Current w (.batch b q) := h

/-- A completion that does not have the row knows nothing of it. -/
theorem current_idle {c : ScanRunCompletion text} {phase : CompletionPhase}
    (h : holds (.completion c phase) = false) : Current w (.completion c phase) := by
  constructor
  · rintro row rfl
    cases h
  · rintro row tombstones rfl
    cases h

theorem current_locked (c : ScanRunCompletion text) :
    Current w (.completion c (.locked w.run)) :=
  ⟨fun _ hr => (CompletionPhase.locked.inj hr).symm,fun _ _ hr => CompletionPhase.noConfusion hr⟩

theorem current_closing {c : ScanRunCompletion text} {row : ScanRun} {tombstones : List Object}
    (hrow : row = w.run) (hok : accepts c row = true) (h : ∀ o ∈ tombstones, ¬ OnRecord w o) :
    Current w (.completion c (.closing row tombstones)) := by
  refine ⟨fun _ hr => CompletionPhase.noConfusion hr,fun row' tombstones' hr => ?_⟩
  obtain ⟨rfl,rfl⟩ := CompletionPhase.closing.inj hr
  exact ⟨hrow,hok,h⟩

/-! ### One statement -/

theorem begin_coherent (h : Coherent w) {tx : Tx text} (hs : step w (.begin tx) = some w') :
    Coherent w' := by
  obtain ⟨new,hnew,rfl⟩ := Option.map_eq_some_iff.mp hs
  have hfacts : holds new = false ∧ new.inFlight = false ∧ Current w new := by
    cases tx with
    | batch b phase =>
      simp only [opening] at hnew
      split at hnew
      · next hform =>
        obtain rfl := Option.some.inj hnew
        exact ⟨rfl,rfl,hform⟩
      · cases hnew
    | completion c phase =>
      simp only [opening] at hnew
      split at hnew
      · obtain rfl := Option.some.inj hnew
        exact ⟨rfl,rfl,current_idle rfl⟩
      · cases hnew
  obtain ⟨hholds,hflight,hcurrent⟩ := hfacts
  have hget : ∀ {j : ℕ} {t : Tx text}, (w.txs ++ [new])[j]? = some t →
      w.txs[j]? = some t ∨ t = new := by
    intro j t hj
    rcases Nat.lt_or_ge j w.txs.length with hlt | hge
    · rw [List.getElem?_append_left hlt] at hj
      exact .inl hj
    · rw [List.getElem?_append_right hge] at hj
      exact .inr (List.mem_singleton.mp (List.mem_of_getElem? hj))
  have hsame : ∀ t, Current w t → Current { w with txs := w.txs ++ [new] } t := by
    intro t ht
    cases t <;> exact ht
  exact
    { received := h.received
      unfinished := h.unfinished
      finished := fun n hn => by
        obtain ⟨hterm,hcount,hfl,hsafe⟩ := h.finished n hn
        refine ⟨hterm,hcount,fun j t hj => ?_,hsafe⟩
        rcases hget hj with hj | rfl
        · exact hfl j t hj
        · exact hflight
      alone := fun j t hj hh => by
        rcases hget hj with hj | rfl
        · exact h.alone j t hj hh
        · rw [hholds] at hh
          cases hh
      current := fun j t hj => by
        rcases hget hj with hj | rfl
        · exact hsame t (h.current j t hj)
        · exact hsame t hcurrent
      record := h.record
      keyed := h.keyed }

theorem readStatus_coherent (h : Coherent w) {i : ℕ} (hs : step w (.readStatus i) = some w') :
    Coherent w' := by
  simp only [step] at hs
  split at hs
  · next b hi =>
    obtain rfl := Option.some.inj hs
    refine h.move hi (by split <;> rfl) (current_batch (h.current i _ hi)) fun hj => ?_
    obtain ⟨n,hn⟩ := Option.isSome_iff_exists.mp hj
    rw [(h.finished n hn).1]
    rfl
  · cases hs

theorem claim_coherent (h : Coherent w) {i : ℕ} (hs : step w (.claim i) = some w') :
    Coherent w' := by
  simp only [step] at hs
  split at hs
  · next b hi =>
    split at hs
    · cases hs
    · obtain rfl := Option.some.inj hs
      refine h.move hi (by split <;> rfl) (current_batch (h.current i _ hi)) fun hj => ?_
      rw [h.unjudged hi rfl] at hj
      cases hj
  · cases hs

theorem write_coherent (h : Coherent w) {i : ℕ} {written : Written}
    (hs : step w (.write i written) = some w') : Coherent w' := by
  simp only [step] at hs
  split at hs
  · next b hi =>
    obtain rfl := Option.some.inj hs
    refine h.move hi rfl (current_batch (h.current i _ hi)) fun hj => ?_
    rw [h.unjudged hi rfl] at hj
    cases hj
  · cases hs

theorem count_coherent (h : Coherent w) {i : ℕ} (hs : step w (.count i) = some w') :
    Coherent w' := by
  simp only [step] at hs
  split at hs
  · next b written hi =>
    split at hs
    · cases hs
    · next hfree =>
      obtain rfl := Option.some.inj hs
      refine h.put hi _ (fun _ => rfl) (fun j tx _ hj hh => ?_) (current_batch (h.current i _ hi)) fun hj => ?_
      · rw [h.free (by simpa using hfree) hj] at hh
        cases hh
      · rw [h.unjudged hi rfl] at hj
        cases hj
  · cases hs

theorem lockRun_coherent (h : Coherent w) {i : ℕ} (hs : step w (.lockRun i) = some w') :
    Coherent w' := by
  simp only [step] at hs
  split at hs
  · next c hi =>
    split at hs
    · cases hs
    · next hfree =>
      obtain rfl := Option.some.inj hs
      refine h.put hi _ (fun _ => rfl) (fun j tx _ hj hh => ?_)
        (current_locked c) fun _ => rfl
      rw [h.free (by simpa using hfree) hj] at hh
      cases hh
  · cases hs

theorem conclude_coherent (h : Coherent w) {i : ℕ} (hs : step w (.conclude i) = some w') :
    Coherent w' := by
  simp only [step] at hs
  split at hs
  · next c row hi =>
    obtain ⟨hrow,-⟩ := h.current i _ hi
    split at hs
    · next hok =>
      obtain rfl := Option.some.inj hs
      exact h.put hi w.lock (fun _ => h.alone i _ hi rfl) (fun j tx _ hj hh => h.alone j tx hj hh)
        (current_closing (hrow row rfl) hok fun o ho => absurd ho List.not_mem_nil) fun _ => rfl
    · obtain rfl := Option.some.inj hs
      exact h.leave hi rfl (current_idle rfl) rfl
  · cases hs

theorem close_coherent (h : Coherent w) {i : ℕ} {kind : ObservationKind} {candidates : List String}
    (hs : step w (.close i kind candidates) = some w') : Coherent w' := by
  simp only [step] at hs
  split at hs
  · next c row tombstones hi =>
    obtain ⟨-,hclosing⟩ := h.current i _ hi
    obtain ⟨hrow,hok,hsafe⟩ := hclosing row tombstones rfl
    split at hs
    · cases hs
    · obtain rfl := Option.some.inj hs
      refine h.put hi w.lock (fun _ => h.alone i _ hi rfl) (fun j tx _ hj hh => h.alone j tx hj hh)
        (current_closing hrow hok fun o ho => ?_) fun _ => rfl
      rcases List.mem_append.mp ho with ho | ho
      · exact hsafe o ho
      · obtain ⟨v,hv,rfl⟩ := List.mem_map.mp ho
        obtain ⟨-,rfl,-,-,-,hobs⟩ := ClosureSteps.mem_unobserved.mp (List.mem_filter.mp hv).1
        rw [← observed_iff, ObjectVersion.object, hobs]
        exact Bool.false_ne_true
  · cases hs

theorem rollback_coherent (h : Coherent w) {i : ℕ} (hs : step w (.rollback i) = some w') :
    Coherent w' := by
  simp only [step] at hs
  split at hs
  · next b phase hi =>
    obtain rfl := Option.some.inj hs
    exact h.leave hi rfl (current_batch (h.current i _ hi)) rfl
  · next c phase hi =>
    obtain rfl := Option.some.inj hs
    exact h.leave hi rfl (current_idle rfl) rfl
  · cases hs

theorem environment_coherent (h : Coherent w) {db : Database}
    (hs : step w (.environment db) = some w') : Coherent w' := by
  simp only [step] at hs
  split at hs
  · next hrecord =>
    obtain rfl := Option.some.inj hs
    have hsame : ∀ o, OnRecord { w with db := db } o ↔ OnRecord w o := by
      intro o
      rw [onRecord_iff, onRecord_iff, ← hrecord]
    exact
      { received := h.received
        unfinished := h.unfinished
        finished := h.finished
        alone := h.alone
        current := fun j tx hj => by
          have ht := h.current j tx hj
          cases tx with
          | batch b p => exact ht
          | completion c phase =>
            refine ⟨ht.1,fun row ts hr => ?_⟩
            obtain ⟨hrow,hok,hsafe⟩ := ht.2 row ts hr
            exact ⟨hrow,hok,fun o ho hc => hsafe o ho ((hsame o).mp hc)⟩
        record := fun o ho => (hsame o).mpr (h.record o ho)
        keyed := fun e he hrun => by
          have hmem : e ∈ ownRecord w.runId db := List.mem_filter.mpr ⟨he,by simpa using hrun⟩
          rw [hrecord] at hmem
          exact h.keyed e (List.mem_filter.mp hmem).1 hrun }
  · cases hs

/-- Once the rows are inserted, the record shows everything the batch observed. -/
theorem recorded_onRecord {runId : RunId} {t : KeyedTable (RunId × String) ObservationRow}
    {b : Batch} (written : Written) (hform : wellFormed runId b = true)
    (hkeyed : ∀ e ∈ t.entries, e.1.1 = runId → e.1.2 = sourceKeyOf (e.2.kind,e.2.subjectKey)) :
    (∀ e ∈ (t.insertNew (recordedRows b written)).entries, e.1.1 = runId →
      e.1.2 = sourceKeyOf (e.2.kind,e.2.subjectKey)) ∧
    ∀ o ∈ observedBy b written, ∃ e ∈ (t.insertNew (recordedRows b written)).entries,
      e.1.1 = runId ∧ (e.2.kind,e.2.subjectKey) = o := by
  obtain ⟨hrun,hsource⟩ : b.runId = runId ∧
      ∀ o ∈ b.observations, o.sourceKey = sourceKeyOf (o.kind,o.row.key) := by
    simpa [wellFormed] using hform
  have hall : ∀ e ∈ (t.insertNew (recordedRows b written)).entries, e.1.1 = runId →
      e.1.2 = sourceKeyOf (e.2.kind,e.2.subjectKey) := by
    refine KeyedTable.upsertAll_forall
      (P := fun (k : RunId × String) (r : ObservationRow) =>
        k.1 = runId → k.2 = sourceKeyOf (r.kind,r.subjectKey))
      (fun _ _ _ hs _ => hs) hkeyed fun e he _ => ?_
    rcases List.mem_append.mp he with he | he
    · obtain ⟨o,ho,rfl⟩ := List.mem_map.mp he
      exact hsource o ho
    · obtain ⟨a,-,rfl⟩ := List.mem_map.mp he
      rfl
  refine ⟨hall,fun o ho => ?_⟩
  have hkey : (runId,sourceKeyOf o) ∈ (recordedRows b written).map (·.1) := by
    rw [recordedRows, List.map_append, List.mem_append]
    rcases List.mem_append.mp ho with ho | ho
    · obtain ⟨x,hx,rfl⟩ := List.mem_map.mp ho
      refine .inl (List.mem_map.mpr ⟨_,List.mem_map.mpr ⟨x,hx,rfl⟩,?_⟩)
      rw [observationRow, hrun, hsource x hx]
    · obtain ⟨a,ha,rfl⟩ := List.mem_map.mp ho
      refine .inr (List.mem_map.mpr ⟨_,List.mem_map.mpr ⟨a,ha,rfl⟩,?_⟩)
      rw [affirmedRow, hrun]
  obtain ⟨row,hrow⟩ := Option.isSome_iff_exists.mp
    (KeyedTable.insertNew_isSome.mpr (.inr hkey : (t.get? _).isSome = true ∨ _))
  have hmem := KeyedTable.get?_eq_some.mp hrow
  exact ⟨_,hmem,rfl,(sourceKeyOf_injective (hall _ hmem rfl)).symm⟩

/-- A batch commits while no completion has the row. -/
theorem commit_batch_coherent (h : Coherent w) {i : ℕ} {b : Batch} {written : Written}
    (hi : w.txs[i]? = some (.batch b (.counted written))) :
    Coherent { (w.put i (.batch b .done)).release i with
      run := countBatch b written.counts w.run
      applied := w.applied ++ [b.batchId]
      db := { w.db with observations := w.db.observations.insertNew (recordedRows b written) }
      seen := w.seen ++ observedBy b written } := by
  have hform : wellFormed w.runId b = true := h.current i _ hi
  have hopen : w.judged = none := h.unjudged hi rfl
  have hlock : w.lock = some i := h.alone i _ hi rfl
  obtain ⟨hkeyed,hobserved⟩ := recorded_onRecord written hform h.keyed
  have hidle : ∀ {j : ℕ} {tx : Tx text}, j ≠ i → w.txs[j]? = some tx → holds tx = false := by
    intro j tx hne hj
    by_contra hh
    rw [Bool.not_eq_false] at hh
    exact hne (Option.some.inj (hlock.symm.trans (h.alone j tx hj hh))).symm
  exact
    { received := by
        rw [List.length_append, ← h.received]
        rfl
      unfinished := fun _ => h.unfinished hopen
      finished := fun n hn => by
        have hn : w.judged = some n := hn
        rw [hopen] at hn
        cases hn
      alone := fun j tx hj hh => by
        rcases get_put hi hj with ⟨-,rfl⟩ | ⟨hne,hj⟩
        · cases hh
        · rw [hidle hne hj] at hh
          cases hh
      current := fun j tx hj => by
        rcases get_put hi hj with ⟨-,rfl⟩ | ⟨hne,hj⟩
        · exact hform
        · cases tx with
          | batch b' p => exact h.current j _ hj
          | completion c phase => exact current_idle (hidle hne hj)
      record := fun o ho => by
        rcases List.mem_append.mp ho with ho | ho
        · obtain ⟨e,he,hrun,hobj⟩ := h.record o ho
          exact ⟨e,KeyedTable.get?_eq_some.mp (KeyedTable.within_insertNew _ _ _ _
            (KeyedTable.get?_eq_some.mpr he)),hrun,hobj⟩
        · exact hobserved o ho
      keyed := hkeyed }

theorem resolveStatus_terminal (c : ScanRunCompletion text) (n : ℕ) :
    (resolveStatus c n).1.isTerminal = true := by
  unfold resolveStatus
  split
  · rfl
  · exact c.terminal

/-- A completion commits when no batch is under way. -/
theorem commit_completion_coherent (h : Coherent w) {i : ℕ} {c : ScanRunCompletion text}
    {row : ScanRun} {tombstones : List Object}
    (hi : w.txs[i]? = some (.completion c (.closing row tombstones))) (hquiet : w.quiet = true) :
    Coherent { (w.put i (.completion c .done)).release i with
      run := closeRun c (resolveStatus c row.batchCountReceived).1
        (resolveStatus c row.batchCountReceived).2 (requested c row) w.run
      judged := some row.batchCountReceived
      tombstoned := w.tombstoned ++ tombstones } := by
  obtain ⟨rfl,hok,hsafe⟩ := (h.current i _ hi).2 row tombstones rfl
  have hlock : w.lock = some i := h.alone i _ hi rfl
  have hopen : w.judged = none := by
    cases hj : w.judged with
    | none => rfl
    | some n =>
      have hterm := (h.finished n hj).1
      have hnot : w.run.status.isTerminal = false := by
        simp only [accepts, decide_eq_true_eq] at hok
        simpa using hok.2.2.1
      rw [hnot] at hterm
      cases hterm
  have hidle : ∀ {j : ℕ} {tx : Tx text}, j ≠ i → w.txs[j]? = some tx → holds tx = false := by
    intro j tx hne hj
    by_contra hh
    rw [Bool.not_eq_false] at hh
    exact hne (Option.some.inj (hlock.symm.trans (h.alone j tx hj hh))).symm
  exact
    { received := h.received
      unfinished := fun hn => by cases hn
      finished := fun n hn => by
        obtain rfl : w.run.batchCountReceived = n := Option.some.inj hn
        refine ⟨resolveStatus_terminal c _,h.received.symm,fun j tx hj => ?_,fun o ho hseen => ?_⟩
        · rcases get_put hi hj with ⟨-,rfl⟩ | ⟨-,hj⟩
          · rfl
          · have := List.all_eq_true.mp hquiet tx (List.mem_of_getElem? hj)
            simpa using this
        · rcases List.mem_append.mp ho with ho | ho
          · rw [(h.unfinished hopen).2] at ho
            cases ho
          · exact hsafe o ho (h.record o hseen)
      alone := fun j tx hj hh => by
        rcases get_put hi hj with ⟨-,rfl⟩ | ⟨hne,hj⟩
        · cases hh
        · rw [hidle hne hj] at hh
          cases hh
      current := fun j tx hj => by
        rcases get_put hi hj with ⟨-,rfl⟩ | ⟨hne,hj⟩
        · exact current_idle rfl
        · cases tx with
          | batch b' p => exact h.current j _ hj
          | completion c' phase => exact current_idle (hidle hne hj)
      record := h.record
      keyed := h.keyed }

theorem step_coherent (h : Coherent w) {a : Action text}
    (hu : unhurried w a = true) (hs : step w a = some w') : Coherent w' := by
  cases a with
  | begin tx => exact begin_coherent h hs
  | readStatus i => exact readStatus_coherent h hs
  | claim i => exact claim_coherent h hs
  | write i written => exact write_coherent h hs
  | count i => exact count_coherent h hs
  | lockRun i => exact lockRun_coherent h hs
  | conclude i => exact conclude_coherent h hs
  | close i kind candidates => exact close_coherent h hs
  | rollback i => exact rollback_coherent h hs
  | environment db => exact environment_coherent h hs
  | commit i =>
    simp only [step] at hs
    split at hs
    · next b written hi =>
      obtain rfl := Option.some.inj hs
      exact commit_batch_coherent h hi
    · next c row tombstones hi =>
      obtain rfl := Option.some.inj hs
      refine commit_completion_coherent h hi ?_
      simpa [unhurried, hi, isCompletion] using hu
    · cases hs

theorem run_coherent {as : List (Action text)} (h : Coherent w) (hu : undisturbed w as = true)
    (hr : run w as = some w') : Coherent w' := by
  induction as generalizing w with
  | nil =>
    obtain rfl := Option.some.inj hr
    exact h
  | cons a as ih =>
    obtain ⟨w1,h1,hr⟩ := Option.bind_eq_some_iff.mp hr
    obtain ⟨ha,has⟩ := Bool.and_eq_true_iff.mp hu
    rw [h1, Option.all_some] at has
    exact ih (step_coherent h ha h1) has hr

/-- In every interleaving in which no batch that saw the run open is under way
when a completion commits, a finished run stays finished: what it was judged
on is what it ever applies, nothing it saw is buried, and no batch that could
commit finds it closed. -/
theorem finished_run_stays_finished {as : List (Action text)} (h : Opened w)
    (hu : undisturbed w as = true) (hr : run w as = some w') :
    (∀ n, w'.judged = some n → w'.applied.length = n) ∧
    (∀ o ∈ w'.tombstoned, o ∉ w'.seen) ∧
    ∀ i next, step w' (.commit i) = some next → isCompletion w'.txs[i]? = false →
      w'.run.status.isTerminal = false := by
  have hc := run_coherent (Opened.coherent h) hu hr
  refine ⟨fun n hn => (hc.finished n hn).2.1,fun o ho => ?_,fun i next hs hbatch => ?_⟩
  · cases hj : w'.judged with
    | none =>
      rw [(hc.unfinished hj).2] at ho
      cases ho
    | some n => exact (hc.finished n hj).2.2.2 o ho
  · simp only [step] at hs
    split at hs
    · next b written hi => exact (hc.unfinished (hc.unjudged hi rfl)).1
    · next c row tombstones hi =>
      rw [hi] at hbatch
      cases hbatch
    · cases hs

/-- A batch that has written its rows when a completion commits can still
count itself and commit, and then the completion judged on one batch too few. -/
theorem late_batch_commits (h : Coherent w) {i j : ℕ} {c : ScanRunCompletion text} {row : ScanRun}
    {tombstones : List Object} {b : Batch} {written : Written}
    (hi : w.txs[i]? = some (.completion c (.closing row tombstones)))
    (hj : w.txs[j]? = some (.batch b (.written written))) :
    (run w [.commit i, .count j, .commit j]).map (fun w' => (w'.judged,w'.applied)) =
      some (some w.applied.length,w.applied ++ [b.batchId]) := by
  obtain ⟨rfl,-⟩ := (h.current i _ hi).2 row tombstones rfl
  have hlock : w.lock = some i := h.alone i _ hi rfl
  have hne : i ≠ j := by
    rintro rfl
    rw [hi] at hj
    cases hj
  have hlt : j < w.txs.length := (List.getElem?_eq_some_iff.mp hj).1
  have hcounted : ∀ tx : Tx text, ((w.txs.set i tx).set j (.batch b (.counted written)))[j]? =
      some (.batch b (.counted written)) := fun tx =>
    List.getElem?_set_self (by rwa [List.length_set])
  simp only [run, step, hi, World.put, World.release, hlock, if_true, List.getElem?_set_ne hne, hj,
    Option.isSome_none, Bool.false_eq_true, if_false, Option.bind_some, hcounted, Option.map_some,
    h.received]

/-! ### A completion that does not wait -/

def serverSeen (runId : RunId) (at' : Instant) : Observed where
  kind := .server
  sourceKey := "server|fs01"
  row := ⟨"fs01",[],at',runId⟩

/-- A server that an earlier run stored. -/
def earlierEstate : Database :=
  Ingestion.commit (fun _ => "") id Database.blank
    (.batch { runId := "earlier", batchId := "b0", observations := [serverSeen "earlier" 1] })

def openedRun : World asciiText where
  runId := "run"
  run := { sourceId := (.smb,"collector","smb","","")
           status := .running
           mode := .full
           job := none
           startedAt := 2
           declared := [(.server,"fs01")] }
  db := earlierEstate

/-- A completion that says how many batches were sent. -/
def reporting (batchCount : ℕ) : ScanRunCompletion asciiText where
  runId := "run"
  status := .succeeded
  completedAt := 9
  batchCount := batchCount
  reconciledScopes := [(.server,"fs01")]
  terminal := rfl
  checkpoint_clean := fun _ => ⟨rfl,rfl⟩
  errors_counted := le_refl 0
  succeeded_clean := fun _ => rfl
  reconciles_clean := fun _ => ⟨rfl,rfl⟩

def serverBatch : Batch where
  runId := "run"
  batchId := "b1"
  observations := [serverSeen "run" 5]

def finishing (i : ℕ) (closes : List (Action asciiText)) : List (Action asciiText) :=
  [.lockRun i, .conclude i] ++ closes ++ [.commit i]

def applying (i : ℕ) : List (Action asciiText) :=
  [.claim i, .write i ⟨[],{}⟩, .count i, .commit i]

def arriving (batchCount : ℕ) : List (Action asciiText) :=
  [.begin (.batch serverBatch .arrived), .begin (.completion (reporting batchCount) .arrived),
    .readStatus 0]

theorem finished_run_sample :
    Opened openedRun ∧ ∃ w', run openedRun (arriving 1 ++ applying 0 ++
        finishing 1 [.close 1 .server ["fs01"]]) = some w' ∧
      (∀ n, w'.judged = some n → w'.applied.length = n) ∧
      (∀ o ∈ w'.tombstoned, o ∉ w'.seen) ∧
      ∀ i next, step w' (.commit i) = some next → isCompletion w'.txs[i]? = false →
        w'.run.status.isTerminal = false := by
  have hopen : Opened openedRun := ⟨rfl,rfl,rfl,by decide +kernel,rfl,rfl,rfl,rfl⟩
  obtain ⟨w',hw⟩ := Option.isSome_iff_exists.mp (show (run openedRun (arriving 1 ++ applying 0 ++
    finishing 1 [.close 1 .server ["fs01"]])).isSome = true by decide +kernel)
  exact ⟨hopen,w',hw,finished_run_stays_finished hopen (by decide +kernel) hw⟩

/-- A batch reads the status, the run is completed, and the batch commits: the
run is recorded partial for want of the batch it then applies. When the
completion did not count the batch, what the batch saw is buried. -/
theorem late_batch_after_completion :
    (run openedRun (arriving 1 ++ finishing 1 [] ++ applying 0)).map
        (fun w' => (w'.run.status,w'.judged,w'.applied)) =
      some (.partially,some 0,["b1"]) ∧
    (run openedRun (arriving 0 ++ finishing 1 [.close 1 .server ["fs01"]] ++ applying 0)).map
        (fun w' => (w'.run.status,w'.tombstoned,w'.seen)) =
      some (.succeeded,[(.server,"fs01")],[(.server,"fs01")]) := by
  decide +kernel

end Adg.FinishedRun
