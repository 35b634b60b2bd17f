import Adg.HistoryRuns
import Adg.ScanRuns

/-!
# The resume cursor

A cursor that is stored was carried by a batch that has been applied, or by
the completion of a run that was not found short. It never changes its scale
and never goes back on it. A batch that carries one is not held back until the
batches before it have arrived.
-/

set_option autoImplicit false

namespace Adg.ResumeCursor
open Adg.ObjectVersions Adg.KeyedTables Adg.VersionTable Adg.CurrentState Adg.ScopeClosure
open Adg.HistoryWriter Adg.HistorySteps Adg.Ingestion Adg.RunObservations Adg.Checkpoints
open Adg.ScanRuns
open Adg.Fallible (bind_ok map_ok)

variable {text : TextRules} {hash : State → String}

/-! ### What a message does -/

/-- What carrying a cursor does to the stored ones. -/
def Moves (checkpoint : Option (Checkpoint text)) (run : ScanRun) (runId : RunId)
    (batchId : Option String) (t t' : KeyedTable JobKey (StoredCheckpoint text)) : Prop :=
  t' = t ∨ ∃ c job host now, checkpoint = some c ∧ run.job = some job ∧
    t' = (advance (run.sourceId.1,job) c (some runId) batchId host now t).1

theorem advanceCheckpoint_ok {checkpoint : Option (Checkpoint text)} {runId : RunId}
    {batchId host : Option String} {run : ScanRun} {now : Instant} {s s' : Server text}
    {moved : Option (CheckpointAdvance text)}
    (h : advanceCheckpoint checkpoint runId batchId run host now s = .ok (s',moved)) :
    (s'.db = s.db ∧ s'.runs = s.runs ∧ s'.batches = s.batches) ∧
      Moves checkpoint run runId batchId s.checkpoints s'.checkpoints := by
  unfold advanceCheckpoint at h
  cases hc : checkpoint with
  | none =>
    rw [hc] at h
    obtain rfl : s = s' := (Prod.mk.inj (Except.ok.inj h)).1
    exact ⟨⟨rfl,rfl,rfl⟩,.inl rfl⟩
  | some c =>
    rw [hc] at h
    dsimp only at h
    split at h
    · cases h
    · cases h
    · next job _ hjob =>
      obtain rfl := (Prod.mk.inj (Except.ok.inj h)).1
      exact ⟨⟨rfl,rfl,rfl⟩,.inr ⟨c,job,host,now,rfl,hjob,rfl⟩⟩

theorem violated_ok {α : Type} {x : Except Violation α} {a : α} (h : violated x = .ok a) :
    x = .ok a := by
  cases x with
  | error v => cases h
  | ok b => exact congrArg _ (Except.ok.inj h)

/-- What an accepted batch did: nothing when it was applied before. -/
structure Applied (hash : State → String) (m : ObservationBatch text) (s s' : Server text) :
    Prop where
  fresh : s.batches.get? (m.payload.runId,m.payload.batchId) = none
  written : ∃ o, Ingestion.applyBatch hash m.payload s.db = .ok (s'.db,o)
  claimed : s'.batches = s.batches.insertNew [((m.payload.runId,m.payload.batchId),m.row)]
  counted : ∃ run a, s.runs.get? m.payload.runId = some run ∧ run.status.isTerminal = false ∧
    s'.runs = s.runs.update (fun k _ => k = m.payload.runId) (countBatch m.payload a) ∧
    Moves m.checkpoint run m.payload.runId (some m.payload.batchId) s.checkpoints s'.checkpoints

theorem applyBatch_cases {now : Instant} {m : ObservationBatch text} {s s' : Server text}
    {o : BatchOutcome text} (h : ScanRuns.applyBatch hash now m s = .ok (s',o)) :
    s' = s ∨ Applied hash m s s' := by
  unfold ScanRuns.applyBatch at h
  dsimp only at h
  cases hrun : s.runs.get? m.payload.runId with
  | none =>
    rw [hrun] at h
    cases h
  | some run =>
    rw [hrun] at h
    dsimp only at h
    split at h
    · cases h
    · next hopen =>
      split at h
      · exact .inl (Prod.mk.inj (Except.ok.inj h)).1.symm
      · next hfresh =>
        obtain ⟨⟨db,hist,a⟩,hdb,h⟩ := bind_ok.mp h
        obtain ⟨⟨s1,moved⟩,hadv,h⟩ := bind_ok.mp h
        obtain rfl : s1 = s' := (Prod.mk.inj (Except.ok.inj h)).1
        obtain ⟨⟨hdata,hruns,hbatches⟩,hmoves⟩ := advanceCheckpoint_ok hadv
        exact .inr ⟨by simpa using hfresh,⟨(hist,a),hdata ▸ violated_ok hdb⟩,hbatches,
          ⟨run,a,hrun,by simpa using hopen,hruns,hmoves⟩⟩

/-- What an accepted first completion did. -/
structure Completed (c : ScanRunCompletion text) (s s' : Server text) : Prop where
  batches : s'.batches = s.batches
  observations : s'.db.observations = s.db.observations
  closed : ∃ run requested, s.runs.get? c.runId = some run ∧ run.status.isTerminal = false ∧
    s'.runs = s.runs.update (fun k _ => k = c.runId)
      (closeRun c (resolveStatus c run.batchCountReceived).1
        (resolveStatus c run.batchCountReceived).2 requested) ∧
    Moves (if (resolveStatus c run.batchCountReceived).2.isSome then none else c.checkpoint) run
      c.runId none s.checkpoints s'.checkpoints

theorem completeRun_cases {now : Instant} {c : ScanRunCompletion text} {s s' : Server text}
    {o : CompletionOutcome text} (h : completeRun now c s = .ok (s',o)) :
    s' = s ∨ Completed c s s' := by
  unfold completeRun at h
  cases hrun : s.runs.get? c.runId with
  | none =>
    rw [hrun] at h
    cases h
  | some run =>
    rw [hrun] at h
    dsimp only at h
    split at h
    · cases h
    · split at h
      · cases h
      · split at h
        · split at h
          · cases h
          · exact .inl (Prod.mk.inj (Except.ok.inj h)).1.symm
        · next hopen =>
          split at h
          · cases h
          · obtain ⟨⟨s1,moved⟩,hadv,h⟩ := bind_ok.mp h
            obtain ⟨⟨db,closures⟩,hclose,h⟩ := bind_ok.mp h
            obtain rfl := (Prod.mk.inj (Except.ok.inj h)).1
            obtain ⟨⟨hdata,hruns,hbatches⟩,hmoves⟩ := advanceCheckpoint_ok hadv
            refine .inr ⟨hbatches,?_,⟨run,_,hrun,by simpa using hopen,hruns,hmoves⟩⟩
            calc db.observations = s1.db.observations :=
                (closeReconciled_frame (violated_ok hclose)).2
              _ = s.db.observations := by rw [hdata]

/-- What an accepted start did. -/
structure Started (m : ScanRunStart text) (s s' : Server text) : Prop where
  batches : s'.batches = s.batches
  db : s'.db = s.db
  checkpoints : s'.checkpoints = s.checkpoints
  opened : s'.runs = s.runs ∨ s.runs.get? m.runId = none ∧ ∃ run : ScanRun,
    run.batchCountReceived = 0 ∧ s'.runs = s.runs.insertNew [(m.runId,run)]

theorem startRun_cases {m : ScanRunStart text} {s s' : Server text}
    (h : startRun m s = .ok s') : Started m s s' := by
  unfold startRun at h
  dsimp only at h
  split at h
  · next run hrun =>
    split at h
    · obtain rfl := Except.ok.inj h
      exact ⟨rfl,rfl,rfl,.inl rfl⟩
    · cases h
  · next hnone =>
    obtain rfl := Except.ok.inj h
    exact ⟨rfl,rfl,rfl,.inr ⟨hnone,_,rfl,rfl⟩⟩

/-! ### What the tables say of what was delivered -/

/-- The deliveries in which a batch that carries a cursor comes after every
batch of its run that is numbered no higher. -/
def InSequence (hash : State → String) (sent : List (ObservationBatch text)) :
    Server text → List (Delivery text) → Prop
  | _, [] => True
  | s, d :: ds =>
    (∀ now m, d = .batch now m → m.checkpoint.isSome = true → ∀ x ∈ sent,
      x.payload.runId = m.payload.runId → x.sequence ≤ m.sequence →
      x.payload.batchId ≠ m.payload.batchId →
      (s.batches.get? (x.payload.runId,x.payload.batchId)).isSome = true) ∧
    InSequence hash sent (deliver hash s d) ds

/-- A batch of a run that has been applied, its observations with it. -/
def Landed (s : Server text) (m : ObservationBatch text) : Prop :=
  s.batches.get? (m.payload.runId,m.payload.batchId) = some m.row ∧
    ∀ x ∈ m.payload.observations,
      ∃ o, s.db.observations.get? (m.payload.runId,x.sourceKey) = some o

/-- A batch moved the cursor where it is. -/
def MovedByBatch (s : Server text) (p : StoredCheckpoint text) (m : ObservationBatch text) : Prop :=
  p.origin = ((p.checkpoint,some m.payload.runId,some m.payload.batchId)) ∧
    m.checkpoint = some p.checkpoint ∧ Landed s m

/-- The completion of a run moved the cursor where it is, and the run was not
found short. -/
def MovedByCompletion (s : Server text) (p : StoredCheckpoint text)
    (c : ScanRunCompletion text) : Prop :=
  p.origin = (p.checkpoint,some c.runId,none) ∧ c.checkpoint = some p.checkpoint ∧
    ∃ run, s.runs.get? c.runId = some run ∧ run.status = .succeeded ∧ run.downgradeReason = none ∧
      run.batchCountReported = some c.batchCount ∧ c.batchCount ≤ run.batchCountReceived

/-- The batches applied to a run. -/
def batchesOf (s : Server text) (r : RunId) : List ((RunId × String) × AppliedBatch) :=
  s.batches.entries.filter (·.1.1 = r)

/-- What holds of the server once the messages have been delivered. -/
structure Ledger (ds : List (Delivery text)) (s : Server text) : Prop where
  counted : ∀ r run, s.runs.get? r = some run → run.batchCountReceived = (batchesOf s r).length
  owned : ∀ r, s.runs.get? r = none → batchesOf s r = []
  landed : ∀ k row, s.batches.get? k = some row → ∃ now m, .batch now m ∈ ds ∧
    (m.payload.runId,m.payload.batchId) = k ∧ row = m.row ∧ Landed s m
  cursors : ∀ key p, s.checkpoints.get? key = some p →
    (∃ now m, .batch now m ∈ ds ∧ MovedByBatch s p m) ∨
      ∃ now c, .completion now c ∈ ds ∧ MovedByCompletion s p c

/-! ### One delivery -/

/-- A message is refused, replayed, or does what its kind does. -/
theorem deliver_cases (hash : State → String) (s : Server text) (d : Delivery text) :
    deliver hash s d = s ∨ (∃ m, d = .start m ∧ Started m s (deliver hash s d)) ∨
      (∃ now m, d = .batch now m ∧ Applied hash m s (deliver hash s d)) ∨
      ∃ now c, d = .completion now c ∧ Completed c s (deliver hash s d) := by
  unfold deliver
  cases hd : d.perform hash s with
  | error e => exact .inl rfl
  | ok s' =>
    cases d with
    | start m => exact .inr (.inl ⟨m,rfl,startRun_cases hd⟩)
    | batch now m =>
      obtain ⟨⟨s1,o⟩,hb,rfl⟩ := map_ok.mp hd
      rcases applyBatch_cases hb with h | h
      · exact .inl h
      · exact .inr (.inr (.inl ⟨now,m,rfl,h⟩))
    | completion now c =>
      obtain ⟨⟨s1,o⟩,hc,rfl⟩ := map_ok.mp hd
      rcases completeRun_cases hc with h | h
      · exact .inl h
      · exact .inr (.inr (.inr ⟨now,c,rfl,h⟩))

variable {s s' : Server text}

theorem Applied.batches_get {m : ObservationBatch text} (h : Applied hash m s s') :
    s'.batches.get? (m.payload.runId,m.payload.batchId) = some m.row := by
  rw [h.claimed, KeyedTable.get?_insertNew, h.fresh]
  simp [KeyedTable.arrivals]

/-- What was applied and recorded stays. -/
theorem grown (hash : State → String) (s : Server text) (d : Delivery text) :
    s.batches.Within (deliver hash s d).batches ∧
      s.db.observations.Within (deliver hash s d).db.observations := by
  rcases deliver_cases hash s d with h | ⟨m,-,h⟩ | ⟨now,m,-,h⟩ | ⟨now,c,-,h⟩
  · rw [h]
    exact ⟨KeyedTable.Within.refl _,KeyedTable.Within.refl _⟩
  · rw [h.batches, h.db]
    exact ⟨KeyedTable.Within.refl _,KeyedTable.Within.refl _⟩
  · obtain ⟨o,ho⟩ := h.written
    rw [h.claimed]
    exact ⟨KeyedTable.within_insertNew _ _,(applyBatch_observations ho).1⟩
  · rw [h.batches, h.observations]
    exact ⟨KeyedTable.Within.refl _,KeyedTable.Within.refl _⟩

theorem Landed.mono {m : ObservationBatch text} (h : Landed s m)
    (hb : s.batches.Within s'.batches) (ho : s.db.observations.Within s'.db.observations) :
    Landed s' m :=
  ⟨hb _ _ h.1,fun x hx => (h.2 x hx).imp fun _ h => ho _ _ h⟩

/-- The row of a finished run is not written again. -/
theorem finished_kept (hash : State → String) (d : Delivery text) {r : RunId} {run : ScanRun}
    (h : s.runs.get? r = some run) (ht : run.status.isTerminal = true) :
    (deliver hash s d).runs.get? r = some run := by
  have hother : ∀ {k : RunId} {open' : ScanRun} {f : ScanRun → ScanRun},
      s.runs.get? k = some open' → open'.status.isTerminal = false →
      (s.runs.update (fun k' _ => k' = k) f).get? r = some run := by
    intro k run' f hk hopen
    have hne : r ≠ k := by
      rintro rfl
      obtain rfl : run = run' := Option.some.inj (h.symm.trans hk)
      rw [ht] at hopen
      cases hopen
    rw [KeyedTable.get?_update, h, Option.map_some, if_neg (by simpa using hne)]
  rcases deliver_cases hash s d with hd | ⟨m,-,hd⟩ | ⟨now,m,-,hd⟩ | ⟨now,c,-,hd⟩
  · rw [hd, h]
  · rcases hd.opened with hruns | ⟨-,run',-,hruns⟩
    · rw [hruns, h]
    · rw [hruns]
      exact KeyedTable.within_insertNew _ _ _ _ h
  · obtain ⟨run',a,hrun,hopen,hruns,-⟩ := hd.counted
    rw [hruns]
    exact hother hrun hopen
  · obtain ⟨run',requested,hrun,hopen,hruns,-⟩ := hd.closed
    rw [hruns]
    exact hother hrun hopen

/-- Where the cursor of a job stands after a message: where it stood, or later
on its scale, where the message put it. -/
theorem cursor_cases (hash : State → String) (s : Server text) (d : Delivery text) (key : JobKey) :
    (((deliver hash s d).checkpoints.get? key).map StoredCheckpoint.origin =
        (s.checkpoints.get? key).map StoredCheckpoint.origin) ∨
    ∃ c r b, ((deliver hash s d).checkpoints.get? key).map StoredCheckpoint.origin =
        some (c,some r,b) ∧
      (∀ p, s.checkpoints.get? key = some p → p.checkpoint.Follows c) ∧
      ((∃ now m, d = .batch now m ∧ Applied hash m s (deliver hash s d) ∧
          m.checkpoint = some c ∧ r = m.payload.runId ∧ b = some m.payload.batchId) ∨
        ∃ now m run requested, d = .completion now m ∧ s.runs.get? m.runId = some run ∧
          (deliver hash s d).runs = s.runs.update (fun k _ => k = m.runId)
            (closeRun m m.status none requested) ∧
          m.checkpoint = some c ∧ r = m.runId ∧ b = none ∧ m.status = .succeeded ∧
          m.batchCount ≤ run.batchCountReceived) := by
  have hmoves : ∀ {checkpoint : Option (Checkpoint text)} {run : ScanRun} {r : RunId}
      {b : Option String}, Moves checkpoint run r b s.checkpoints (deliver hash s d).checkpoints →
      (((deliver hash s d).checkpoints.get? key).map StoredCheckpoint.origin =
        (s.checkpoints.get? key).map StoredCheckpoint.origin) ∨
      ∃ c, checkpoint = some c ∧ ((deliver hash s d).checkpoints.get? key).map
        StoredCheckpoint.origin = some (c,some r,b) ∧
        ∀ p, s.checkpoints.get? key = some p → p.checkpoint.Follows c := by
    rintro checkpoint run r b (h | ⟨c,job,host,now,hc,-,h⟩)
    · exact .inl (by rw [h])
    · rw [h]
      rcases advance_cases key with hsame | ⟨-,hmoved,hfollows⟩
      · exact .inl hsame
      · exact .inr ⟨c,hc,hmoved,hfollows⟩
  rcases deliver_cases hash s d with h | ⟨m,-,h⟩ | ⟨now,m,hd,h⟩ | ⟨now,m,hd,h⟩
  · exact .inl (by rw [h])
  · exact .inl (by rw [h.checkpoints])
  · obtain ⟨run,a,-,-,-,hm⟩ := h.counted
    rcases hmoves hm with hsame | ⟨c,hc,hplace,hfollows⟩
    · exact .inl hsame
    · exact .inr ⟨c,_,_,hplace,hfollows,.inl ⟨now,m,hd,h,hc,rfl,rfl⟩⟩
  · obtain ⟨run,requested,hrun,-,hruns,hm⟩ := h.closed
    rcases hmoves hm with hsame | ⟨c,hc,hplace,hfollows⟩
    · exact .inl hsame
    · refine .inr ⟨c,_,_,hplace,hfollows,.inr ⟨now,m,run,requested,hd,hrun,?_⟩⟩
      unfold resolveStatus at hc hruns
      by_cases hshort : m.status = .succeeded ∧ run.batchCountReceived < m.batchCount
      · rw [if_pos hshort] at hc
        cases hc
      · rw [if_neg hshort] at hc hruns
        have hc : m.checkpoint = some c := hc
        obtain ⟨hsucceeded,-⟩ := m.checkpoint_clean (by rw [hc]; rfl)
        exact ⟨hruns,hc,rfl,rfl,hsucceeded,
          not_lt.mp fun hlt => hshort ⟨hsucceeded,hlt⟩⟩

/-- A cursor that stands with an origin is stored with it. -/
theorem stored_origin {t : KeyedTable JobKey (StoredCheckpoint text)} {key : JobKey}
    {o : Checkpoint text × Option RunId × Option String} :
    (t.get? key).map StoredCheckpoint.origin = some o ↔
      ∃ p, t.get? key = some p ∧ p.origin = o :=
  Option.map_eq_some_iff

/-! ### Every delivery -/

theorem Ledger.count {ds : List (Delivery text)} (h : Ledger ds s) (hash : State → String)
    (d : Delivery text) :
    (∀ r run, (deliver hash s d).runs.get? r = some run →
      run.batchCountReceived = (batchesOf (deliver hash s d) r).length) ∧
    ∀ r, (deliver hash s d).runs.get? r = none → batchesOf (deliver hash s d) r = [] := by
  rcases deliver_cases hash s d with hd | ⟨m,-,hd⟩ | ⟨now,m,-,hd⟩ | ⟨now,c,-,hd⟩
  · rw [hd]
    exact ⟨h.counted,h.owned⟩
  · have hbatches : ∀ r, batchesOf (deliver hash s d) r = batchesOf s r := fun r => by
      rw [batchesOf, hd.batches, batchesOf]
    rcases hd.opened with hruns | ⟨hnone,run',hzero,hruns⟩
    · rw [hruns]
      exact ⟨fun r run hr => by rw [hbatches, h.counted r run hr],
        fun r hr => by rw [hbatches, h.owned r hr]⟩
    · rw [hruns]
      refine ⟨fun r run hr => ?_,fun r hr => ?_⟩
      · rw [KeyedTable.get?_insertNew] at hr
        rw [hbatches]
        cases hs : s.runs.get? r with
        | some run₀ =>
          rw [hs] at hr
          obtain rfl : run₀ = run := Option.some.inj hr
          exact h.counted r run₀ hs
        | none =>
          rw [hs, Option.none_or] at hr
          obtain ⟨e,he,rfl⟩ := List.mem_map.mp (List.mem_of_mem_head? hr)
          obtain rfl := List.mem_singleton.mp (List.mem_filter.mp he).1
          rw [hzero, h.owned r hs, List.length_nil]
      · rw [KeyedTable.get?_insertNew] at hr
        rw [hbatches]
        exact h.owned r (Option.or_eq_none_iff.mp hr).1
  · obtain ⟨run₀,a,hrun,-,hruns,-⟩ := hd.counted
    have hbatches : ∀ r, batchesOf (deliver hash s d) r = batchesOf s r ++
        [((m.payload.runId,m.payload.batchId),m.row)].filter (·.1.1 = r) := fun r => by
      rw [batchesOf, hd.claimed, KeyedTable.insertNew_fresh hd.fresh, List.filter_append, batchesOf]
    rw [hruns]
    refine ⟨fun r run hr => ?_,fun r hr => ?_⟩
    · rw [KeyedTable.get?_update] at hr
      obtain ⟨run₁,hs,rfl⟩ := Option.map_eq_some_iff.mp hr
      rw [hbatches, List.length_append, ← h.counted r run₁ hs]
      by_cases hk : r = m.payload.runId
      · simp [hk, countBatch]
      · simp [hk, Ne.symm hk]
    · rw [KeyedTable.get?_update, Option.map_eq_none_iff] at hr
      have hne : m.payload.runId ≠ r := by
        rintro rfl
        rw [hrun] at hr
        cases hr
      rw [hbatches, h.owned r hr]
      simp [hne]
  · obtain ⟨run₀,requested,hrun,-,hruns,-⟩ := hd.closed
    have hbatches : ∀ r, batchesOf (deliver hash s d) r = batchesOf s r := fun r => by
      rw [batchesOf, hd.batches, batchesOf]
    rw [hruns]
    refine ⟨fun r run hr => ?_,fun r hr => ?_⟩
    · rw [KeyedTable.get?_update] at hr
      obtain ⟨run₁,hs,rfl⟩ := Option.map_eq_some_iff.mp hr
      rw [hbatches, ← h.counted r run₁ hs]
      split <;> rfl
    · rw [KeyedTable.get?_update, Option.map_eq_none_iff] at hr
      rw [hbatches, h.owned r hr]

theorem Ledger.step {ds : List (Delivery text)} (h : Ledger ds s) (d : Delivery text) :
    Ledger (ds ++ [d]) (deliver hash s d) := by
  obtain ⟨hb,ho⟩ := grown hash s d
  have hold : ∀ k row, s.batches.get? k = some row → ∃ now m, .batch now m ∈ ds ++ [d] ∧
      (m.payload.runId,m.payload.batchId) = k ∧ row = m.row ∧ Landed (deliver hash s d) m := by
    intro k row hk
    obtain ⟨now,m,hm,hkey,hrow,hl⟩ := h.landed k row hk
    exact ⟨now,m,List.mem_append_left _ hm,hkey,hrow,hl.mono hb ho⟩
  have hland : ∀ {now m}, d = .batch now m → Applied hash m s (deliver hash s d) →
      Landed (deliver hash s d) m := by
    intro now m _ hm
    obtain ⟨o,hw⟩ := hm.written
    exact ⟨hm.batches_get,fun x hx => (applyBatch_observations hw).2 x hx⟩
  obtain ⟨hcounted,howned⟩ := h.count hash d
  refine ⟨hcounted,howned,fun k row hk => ?_,fun key p hp => ?_⟩
  · rcases deliver_cases hash s d with hd | ⟨m,-,hd⟩ | ⟨now,m,hd,ha⟩ | ⟨now,c,-,hd⟩
    · exact hold k row (by rwa [hd] at hk)
    · exact hold k row (by rwa [hd.batches] at hk)
    · rw [ha.claimed, KeyedTable.get?_insertNew] at hk
      cases hs : s.batches.get? k with
      | some row' =>
        rw [hs] at hk
        exact hold k row (hs.trans hk)
      | none =>
        rw [hs, Option.none_or] at hk
        obtain ⟨e,he,rfl⟩ := List.mem_map.mp (List.mem_of_mem_head? hk)
        obtain ⟨he,hkey⟩ := List.mem_filter.mp he
        obtain rfl := List.mem_singleton.mp he
        exact ⟨now,m,List.mem_append_right _ (by simp [hd]),by simpa using hkey,rfl,hland hd ha⟩
    · exact hold k row (by rwa [hd.batches] at hk)
  · have hplaced : ((deliver hash s d).checkpoints.get? key).map StoredCheckpoint.origin =
        some p.origin := by rw [hp]; rfl
    rcases cursor_cases hash s d key with hsame | ⟨c,r,b,hnew,-,hby⟩
    · rw [hplaced] at hsame
      obtain ⟨q,hq,horigin⟩ := stored_origin.mp hsame.symm
      have hcur : q.checkpoint = p.checkpoint := congrArg Prod.fst horigin
      rcases h.cursors key q hq with ⟨now,m,hm,horg,hc,hl⟩ | ⟨now,m,hm,horg,hc,run,hrun,hst,hrest⟩
      · exact .inl ⟨now,m,List.mem_append_left _ hm,by rw [← horigin, horg, hcur],
          by rw [hc, hcur],hl.mono hb ho⟩
      · exact .inr ⟨now,m,List.mem_append_left _ hm,by rw [← horigin, horg, hcur],
          by rw [hc, hcur],run,finished_kept hash d hrun (by rw [hst]; rfl),hst,hrest⟩
    · rw [hplaced] at hnew
      have horigin : p.origin = (c,some r,b) := Option.some.inj hnew
      have hcur : p.checkpoint = c := congrArg Prod.fst horigin
      rcases hby with ⟨now,m,hd,ha,hc,rfl,rfl⟩ |
        ⟨now,m,run,requested,hd,hrun,hruns,hc,rfl,rfl,hst,hle⟩
      · exact .inl ⟨now,m,List.mem_append_right _ (by simp [hd]),by rw [horigin, hcur],
          by rw [hc, hcur],hland hd ha⟩
      · refine .inr ⟨now,m,List.mem_append_right _ (by simp [hd]),by rw [horigin, hcur],
          by rw [hc, hcur],closeRun m m.status none requested run,?_,hst,rfl,rfl,hle⟩
        rw [hruns, KeyedTable.get?_update, hrun, Option.map_some, if_pos (by simp)]

theorem ledger (hash : State → String) (ds : List (Delivery text)) :
    Ledger ds (deliverAll hash {} ds) := by
  induction ds using List.reverseRecOn with
  | nil =>
    have hempty : ∀ {κ ρ : Type} [DecidableEq κ] {k : κ} {r : ρ},
        KeyedTable.empty.get? k ≠ some r := by
      intro κ ρ _ k r h
      rw [KeyedTable.get?_empty] at h
      cases h
    exact ⟨fun _ _ h => absurd h hempty,fun _ _ => rfl,fun _ _ h => absurd h hempty,
      fun _ _ h => absurd h hempty⟩
  | append_singleton ds d ih =>
    rw [deliverAll, List.foldl_append]
    exact ih.step d

/-- From one message to the next the cursor of a job stays on its scale. -/
theorem cursor_follows (hash : State → String) (s : Server text) (d : Delivery text) {key : JobKey}
    {p : StoredCheckpoint text} (hp : s.checkpoints.get? key = some p) :
    ∃ q, (deliver hash s d).checkpoints.get? key = some q ∧ p.checkpoint.Follows q.checkpoint := by
  rcases cursor_cases hash s d key with hsame | ⟨c,r,b,hnew,hfollows,-⟩
  · rw [hp] at hsame
    obtain ⟨q,hq,horigin⟩ := stored_origin.mp hsame
    have hcur : q.checkpoint = p.checkpoint := congrArg Prod.fst horigin
    exact ⟨q,hq,hcur ▸ Checkpoint.Follows.refl q.checkpoint⟩
  · obtain ⟨q,hq,horigin⟩ := stored_origin.mp hnew
    have hcur : q.checkpoint = c := congrArg Prod.fst horigin
    exact ⟨q,hq,hcur ▸ hfollows p hp⟩

theorem cursor_follows_all (hash : State → String) (s : Server text) (ds : List (Delivery text))
    {key : JobKey} {p : StoredCheckpoint text} (hp : s.checkpoints.get? key = some p) :
    ∃ q, (deliverAll hash s ds).checkpoints.get? key = some q ∧
      p.checkpoint.Follows q.checkpoint := by
  induction ds generalizing s p with
  | nil => exact ⟨p,hp,Checkpoint.Follows.refl _⟩
  | cons d ds ih =>
    obtain ⟨q,hq,hpq⟩ := cursor_follows hash s d hp
    obtain ⟨c,hc,hqc⟩ := ih (deliver hash s d) hq
    exact ⟨c,hc,hpq.trans hqc⟩

/-- Behind a cursor that a batch moved lies every batch numbered no higher. -/
def Preceded (sent : List (ObservationBatch text)) (s : Server text) : Prop :=
  ∀ key p r b row, s.checkpoints.get? key = some p → p.runId = some r → p.batchId = some b →
    s.batches.get? (r,b) = some row → ∀ x ∈ sent, x.payload.runId = r →
    x.sequence ≤ row.sequence → (s.batches.get? (x.payload.runId,x.payload.batchId)).isSome = true

theorem isSome_mono {κ ρ : Type} [DecidableEq κ] {t u : KeyedTable κ ρ} (h : t.Within u) {k : κ}
    (hk : (t.get? k).isSome = true) : (u.get? k).isSome = true := by
  obtain ⟨r,hr⟩ := Option.isSome_iff_exists.mp hk
  rw [h k r hr]
  rfl

theorem Preceded.step {sent : List (ObservationBatch text)} {ds : List (Delivery text)}
    (hl : Ledger ds s) (h : Preceded sent s) (d : Delivery text)
    (hd : ∀ now m, d = .batch now m → m.checkpoint.isSome = true → ∀ x ∈ sent,
      x.payload.runId = m.payload.runId → x.sequence ≤ m.sequence →
      x.payload.batchId ≠ m.payload.batchId →
      (s.batches.get? (x.payload.runId,x.payload.batchId)).isSome = true) :
    Preceded sent (deliver hash s d) := by
  obtain ⟨hb,-⟩ := grown hash s d
  intro key p r b row hp hr hbatch hrow x hx hxr hseq
  have hplaced : ((deliver hash s d).checkpoints.get? key).map StoredCheckpoint.origin =
      some p.origin := by rw [hp]; rfl
  rcases cursor_cases hash s d key with hsame | ⟨c,r',b',hnew,-,hby⟩
  · rw [hplaced] at hsame
    obtain ⟨q,hq,horigin⟩ := stored_origin.mp hsame.symm
    have hqr : q.runId = p.runId := congrArg (fun o => o.2.1) horigin
    have hqb : q.batchId = p.batchId := congrArg (fun o => o.2.2) horigin
    -- The cursor did not move, so its batch was applied before this message.
    have hlanded : ∃ row', s.batches.get? (r,b) = some row' := by
      rcases hl.cursors key q hq with ⟨now,m,-,horg,-,hland⟩ | ⟨now,m,-,horg,-⟩
      · have hmr : some m.payload.runId = some r :=
          (congrArg (fun o => o.2.1) horg).symm.trans (hqr.trans hr)
        have hmb : some m.payload.batchId = some b :=
          (congrArg (fun o => o.2.2) horg).symm.trans (hqb.trans hbatch)
        rw [← Option.some.inj hmr, ← Option.some.inj hmb]
        exact ⟨_,hland.1⟩
      · have hnone : none = some b :=
          (congrArg (fun o => o.2.2) horg).symm.trans (hqb.trans hbatch)
        cases hnone
    obtain ⟨row',hrow'⟩ := hlanded
    obtain rfl : row' = row := Option.some.inj ((hb _ _ hrow').symm.trans hrow)
    exact isSome_mono hb (h key q r b row' hq (hqr.trans hr) (hqb.trans hbatch) hrow' x hx hxr hseq)
  · rw [hplaced] at hnew
    have horigin : p.origin = (c,some r',b') := Option.some.inj hnew
    have hpr : p.runId = some r' := congrArg (fun o => o.2.1) horigin
    have hpb : p.batchId = b' := congrArg (fun o => o.2.2) horigin
    obtain rfl : r' = r := Option.some.inj (hpr.symm.trans hr)
    rcases hby with ⟨now,m,hm,ha,hc,rfl,rfl⟩ | ⟨now,m,run,requested,-,-,-,-,-,rfl,-⟩
    · obtain rfl : m.payload.batchId = b := Option.some.inj (hpb.symm.trans hbatch)
      obtain rfl : m.row = row := Option.some.inj (ha.batches_get.symm.trans hrow)
      by_cases hid : x.payload.batchId = m.payload.batchId
      · rw [hxr, hid, ha.batches_get]
        rfl
      · exact isSome_mono hb (hd now m hm (by rw [hc]; rfl) x hx hxr hseq hid)
    · rw [hpb] at hbatch
      cases hbatch

theorem preceded_all {sent : List (ObservationBatch text)} {done ds : List (Delivery text)}
    (hl : Ledger done s) (h : Preceded sent s) (hseq : InSequence hash sent s ds) :
    Preceded sent (deliverAll hash s ds) := by
  induction ds generalizing s done with
  | nil => exact h
  | cons d ds ih => exact ih (hl.step d) (h.step hl d hseq.1) hseq.2

/-- As many batches as a run reports are all that it sent, when it sent no more. -/
theorem Ledger.all_landed {ds : List (Delivery text)} (h : Ledger ds s) {r : RunId} {run : ScanRun}
    (hrun : s.runs.get? r = some run) {ids : List String}
    (hsent : ∀ now m, Delivery.batch now m ∈ ds → m.payload.runId = r → m.payload.batchId ∈ ids)
    (hlen : ids.length ≤ run.batchCountReceived) :
    ∀ id ∈ ids, (s.batches.get? (r,id)).isSome = true := by
  have hmem : ∀ id, id ∈ (batchesOf s r).map (·.1.2) → (s.batches.get? (r,id)).isSome = true := by
    intro id hid
    obtain ⟨⟨⟨r',b⟩,row⟩,he,rfl⟩ := List.mem_map.mp hid
    obtain ⟨hmem,hr⟩ := List.mem_filter.mp he
    obtain rfl : r' = r := by simpa using hr
    rw [KeyedTable.get?_eq_some.mpr hmem]
    rfl
  have hnodup : ((batchesOf s r).map (·.1.2)).Nodup := by
    refine List.Nodup.map_on (fun x hx y hy hxy => ?_)
      (s.batches.keys_nodup.of_map _ |>.filter _)
    obtain ⟨hx,hxr⟩ := List.mem_filter.mp hx
    obtain ⟨hy,hyr⟩ := List.mem_filter.mp hy
    have hkey : x.1 = y.1 := Prod.ext ((by simpa using hxr : x.1.1 = r).trans
      (by simpa using hyr : y.1.1 = r).symm) hxy
    exact List.inj_on_of_nodup_map s.batches.keys_nodup hx hy hkey
  have hsub : (batchesOf s r).map (·.1.2) ⊆ ids := by
    intro id hid
    obtain ⟨row,hrow⟩ := Option.isSome_iff_exists.mp (hmem id hid)
    obtain ⟨now,m,hm,hkey,-⟩ := h.landed _ row hrow
    obtain ⟨hr,hb⟩ := Prod.mk.inj hkey
    exact hb ▸ hsent now m hm hr
  have hperm := (hnodup.subperm hsub).perm_of_length_le
    (by rwa [List.length_map, ← h.counted r run hrun])
  exact fun id hid => hmem id (hperm.mem_iff.mpr hid)

/-- The resume cursor trails the data. It stands where an applied batch or the
completion of a run with no batch missing moved it. When no batch with a cursor
overtakes another of its run, every batch numbered up to the one that moved it
has been applied. A job's cursor keeps its kind, and on an ordered scale its
issuer, and never goes back. -/
theorem cursor_trails_data (hash : State → String) (ds : List (Delivery text)) :
    let s := deliverAll hash {} ds
    (∀ key p, s.checkpoints.get? key = some p →
      (∃ now m, .batch now m ∈ ds ∧ MovedByBatch s p m) ∨
      ∃ now c, .completion now c ∈ ds ∧ MovedByCompletion s p c ∧
        ∀ ids : List String, (∀ now m, Delivery.batch now m ∈ ds → m.payload.runId = c.runId →
          m.payload.batchId ∈ ids) → ids.length ≤ c.batchCount →
          ∀ id ∈ ids, (s.batches.get? (c.runId,id)).isSome = true) ∧
    (∀ sent, InSequence hash sent {} ds → ∀ key p m, s.checkpoints.get? key = some p →
      MovedByBatch s p m → ∀ x ∈ sent, x.payload.runId = m.payload.runId →
      x.sequence ≤ m.sequence →
      (s.batches.get? (x.payload.runId,x.payload.batchId)).isSome = true) ∧
    ∀ more key p, s.checkpoints.get? key = some p →
      ∃ q, (deliverAll hash {} (ds ++ more)).checkpoints.get? key = some q ∧
        p.checkpoint.Follows q.checkpoint := by
  intro s
  have hl : Ledger ds s := ledger hash ds
  refine ⟨fun key p hp => ?_,fun sent hseq key p m hp hm x hx hr hle => ?_,
    fun more key p hp => ?_⟩
  · rcases hl.cursors key p hp with hbatch | ⟨now,c,hc,hmoved⟩
    · exact .inl hbatch
    · refine .inr ⟨now,c,hc,hmoved,fun ids hsent hlen => ?_⟩
      obtain ⟨-,-,run,hrun,-,-,-,hle⟩ := hmoved
      exact hl.all_landed hrun hsent (hlen.trans hle)
  · have hpreceded : Preceded sent s := by
      refine preceded_all (ledger hash []) (fun key p r b row hp => ?_) hseq
      cases hp
    obtain ⟨horigin,-,hland⟩ := hm
    exact hpreceded key p m.payload.runId m.payload.batchId m.row hp
      (congrArg (fun o => o.2.1) horigin) (congrArg (fun o => o.2.2) horigin) hland.1 x hx hr hle
  · rw [deliverAll, List.foldl_append]
    exact cursor_follows_all hash s more hp

/-! ### A batch that is overtaken -/

theorem usn_cursor_valid : postInit asciiText .usn "5" "DC01|a" = .ok () := by decide +kernel

theorem opaque_cursor_valid : ∀ issuer ∈ ["A", "B"],
    postInit asciiText .opaqueCursor "page" issuer = .ok () := by decide +kernel

def usnCursor : Checkpoint asciiText := ⟨.usn,"5","DC01|a",0,usn_cursor_valid⟩

def opaqueFrom (issuer : String) (h : issuer ∈ ["A", "B"]) : Checkpoint asciiText :=
  ⟨.opaqueCursor,"page",issuer,0,opaque_cursor_valid issuer h⟩

def nightly : ScanRunStart asciiText where
  runId := "run"
  source := { collector := .activeDirectory, collectorHost := "collector", method := "ldap" }
  startedAt := 0
  scopes := [(.domain,"S-1-5-21-1")]
  mode := .delta
  job := some "nightly"

def numbered (sequence : ℕ) (batchId key : String) (checkpoint : Option (Checkpoint asciiText)) :
    ObservationBatch asciiText where
  payload := { runId := "run"
               batchId := batchId
               observations := [⟨.principal,"principal|" ++ key,⟨key,[],1,"run"⟩,[],none⟩] }
  sequence := sequence
  checkpoint := checkpoint

/-- The cursor of the job once the messages have been delivered. -/
def nightlyCursor (ds : List (Delivery asciiText)) : Option (Checkpoint asciiText) :=
  ((deliverAll (fun _ => "") {} (.start nightly :: ds)).checkpoints.get?
    (.activeDirectory,"nightly")).map (·.checkpoint)

/-- The second batch moves the cursor while the first has not arrived. An
unordered cursor is taken from whoever issued it. -/
theorem cursor_ahead_of_data :
    (let first := numbered 1 "b1" "S-1-5-21-1-1" none
      let second := numbered 2 "b2" "S-1-5-21-1-2" (some usnCursor)
      nightlyCursor [.batch 0 second] = second.checkpoint ∧
        first.payload.runId = second.payload.runId ∧ first.sequence ≤ second.sequence ∧
        (deliverAll (fun _ => "") {} [.start nightly, .batch 0 second]).batches.get?
          (first.payload.runId,first.payload.batchId) = none) ∧
    (let first := numbered 1 "b1" "S-1-5-21-1-1" (some (opaqueFrom "A" (by decide)))
      let second := numbered 2 "b2" "S-1-5-21-1-2" (some (opaqueFrom "B" (by decide)))
      (nightlyCursor [.batch 0 first]).map (·.issuer) = some "A" ∧
        (nightlyCursor [.batch 0 first, .batch 0 second]).map (·.issuer) = some "B") := by
  decide +kernel

end Adg.ResumeCursor
