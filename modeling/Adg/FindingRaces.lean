import Adg.FindingLives

/-!
# Evaluations that overlap

An evaluation loads its facts, reads the findings it is about to decide, and
writes. Nothing it has read is held, so another evaluation may write between.
An insertion that meets a row keeps the row, and still leaves the event of a
finding that was opened. Where an evaluation commits on what is still so, and
the evaluations commit in the order they loaded, none undoes another.
-/

set_option autoImplicit false

namespace Adg.FindingRaces
open Adg.ObjectVersions Adg.KeyedTables Adg.FindingModel Adg.FindingRecords Adg.FindingLives

/-! ### Evaluations in their turns -/

section Turns
variable (sha256 : String → String) (ε ι : Type)

/-- How far an evaluation has come, with the instant of its last load. -/
inductive Phase where
  | loading (seen : List ε) (loadedAt : ℕ)
  | reading (loadedAt : ℕ) (call : Call sha256) (existing : List (Option StoredFinding))
  | writing (loadedAt : ℕ) (call : Call sha256) (existing : List (Option StoredFinding))
      (openRows : List StoredFinding) (done : ℕ)
  | committed (loadedAt : ℕ) (call : Call sha256)
  | aborted

/-- The estate and the findings as they are committed, and the evaluations. -/
structure Session where
  estate : ε
  clock : ℕ
  store : FindingStore
  passes : ι → Phase sha256 ε

inductive Turn where
  | change (estate : ε)
  | load (i : ι)
  | evaluate (i : ι)
  | readKey (i : ι)
  | readOpen (i : ι)
  | write (i : ι)
  | commit (i : ι)
  | abort (i : ι)

end Turns

variable {sha256 : String → String} {ε ι : Type}

/-- The keys of the rows an evaluation has written and not committed. -/
def Phase.locks : Phase sha256 ε → List String
  | .writing _ call existing openRows done =>
    ((FindingRecords.decide call existing openRows).2.take done).map FindingWrite.key
  | _ => []

section Steps
variable [DecidableEq ι]

def Session.set (s : Session sha256 ε ι) (i : ι) (phase : Phase sha256 ε) :
    Session sha256 ε ι :=
  { s with passes := Function.update s.passes i phase }

/-- The writes of an evaluation, all at its commit. -/
def Session.commit (s : Session sha256 ε ι) (call : Call sha256)
    (writes : List (FindingWrite sha256)) : Session sha256 ε ι :=
  { s with store := writes.foldl (perform call.evaluationId call.now) s.store }

variable [Fintype ι]

/-- Another evaluation holds the row of a key. -/
def Session.locked (s : Session sha256 ε ι) (i : ι) (key : String) : Bool :=
  Decidable.decide (∃ j, j ≠ i ∧ key ∈ (s.passes j).locks)

variable (request : ι → List ε → Call sha256)

/-- The next statement of one evaluation, unless it has to wait. What it finds follows from
what it has loaded, statement by statement. -/
def step (s : Session sha256 ε ι) : Turn ε ι → Option (Session sha256 ε ι)
  | .change estate => some { s with estate := estate }
  | .load i =>
    match s.passes i with
    | .loading seen _ =>
      some { s.set i (.loading (seen ++ [s.estate]) (s.clock+1)) with clock := s.clock+1 }
    | _ => none
  | .evaluate i =>
    match s.passes i with
    | .loading seen loadedAt => some (s.set i (.reading loadedAt (request i seen) []))
    | _ => none
  | .readKey i =>
    match s.passes i with
    | .reading loadedAt call existing =>
      match (matched call.findings)[existing.length]? with
      | some f => (s.store.get f.key).map fun held =>
        s.set i (.reading loadedAt call (existing ++ [held]))
      | none => none
    | _ => none
  | .readOpen i =>
    match s.passes i with
    | .reading loadedAt call existing =>
      if existing.length = (matched call.findings).length then
        (s.store.openFindings call.rulesRun).map fun openRows =>
          s.set i (.writing loadedAt call existing openRows 0)
      else none
    | _ => none
  | .write i =>
    match s.passes i with
    | .writing loadedAt call existing openRows done =>
      match (FindingRecords.decide call existing openRows).2[done]? with
      | some w =>
        if s.locked i w.key then none
        else some (s.set i (.writing loadedAt call existing openRows (done+1)))
      | none => none
    | _ => none
  | .commit i =>
    match s.passes i with
    | .writing loadedAt call existing openRows done =>
      if done = (FindingRecords.decide call existing openRows).2.length then
        some ((s.commit call (FindingRecords.decide call existing openRows).2).set i
          (.committed loadedAt call))
      else none
    | _ => none
  | .abort i =>
    match s.passes i with
    | .committed _ _ => none
    | _ => some (s.set i .aborted)

def runTurns (s : Session sha256 ε ι) (turns : List (Turn ε ι)) : Option (Session sha256 ε ι) :=
  turns.foldlM (step request) s

end Steps

/-- The evaluations, none of which has begun. -/
def begin (estate : ε) (store : FindingStore) : Session sha256 ε ι where
  estate := estate
  clock := 0
  store := store
  passes := fun _ => .loading [] 0

/-! ### What the claim says of a run -/

/-- How many events opened a finding for the first time. -/
def openedEvents (store : FindingStore) (key : String) : ℕ :=
  (store.events.filter (·.findingKey = key)).countP (·.eventType = .opened)

/-- An evaluation that committed, and loaded its facts after all others that did. -/
def LastLoaded (s : Session sha256 ε ι) (i : ι) (loadedAt : ℕ) (call : Call sha256) : Prop :=
  s.passes i = .committed loadedAt call ∧
    ∀ j, j ≠ i → ∀ at' call', s.passes j = .committed at' call' → at' < loadedAt

/-- No evaluation undid what a later one says of a finding. -/
structure NotUndone (s : Session sha256 ε ι) (key : String) : Prop where
  matched : ∀ i loadedAt call, LastLoaded s i loadedAt call →
    ∀ f ∈ matched call.findings, f.key = key →
      ∃ row, s.store.findings.get? key = some row ∧ row.status = .open ∧
        row.evidenceDigest = f.evidenceDigest
  missed : ∀ i loadedAt call, LastLoaded s i loadedAt call →
    (∀ f ∈ call.findings, f.key ≠ key) → ∀ row record,
      s.store.findings.get? key = some row → stored row = some record →
      entitled call record = true → row.status = .resolved
  once : ∀ row, s.store.findings.get? key = some row → openedEvents s.store key = 1

/-- What an evaluation has read about a key: the finding it matched there, or the open one. -/
def view (call : Call sha256) (existing : List (Option StoredFinding))
    (openRows : List StoredFinding) (key : String) : Option StoredFinding :=
  match ((matched call.findings).zip existing).find? fun pair => pair.1.key = key with
  | some pair => pair.2
  | none => openRows.find? (·.key = key)

/-- What it would read now. -/
def viewNow (call : Call sha256) (store : FindingStore) (key : String) : Option StoredFinding :=
  view call ((matched call.findings).map fun f => storedAt store f.key)
    ((store.openFindings call.rulesRun).getD []) key

/-- An evaluation decides about a finding: it matched it, or may resolve it. -/
def Concerns (call : Call sha256) (seen : Option StoredFinding) (key : String) : Prop :=
  (∃ f ∈ call.findings, f.key = key) ∨ ∃ record, seen = some record ∧ entitled call record = true

/-- Where it decides about the finding, an evaluation commits on what is still so, and no
evaluation that loaded later has committed before it. -/
def Timely (key : String) (s : Session sha256 ε ι) : Turn ε ι → Prop
  | .commit i => ∀ loadedAt call existing openRows done,
      s.passes i = .writing loadedAt call existing openRows done →
      Concerns call (view call existing openRows key) key ∨
        Concerns call (viewNow call s.store key) key →
      view call existing openRows key = viewNow call s.store key ∧
        ∀ j at' call', s.passes j = .committed at' call' → at' < loadedAt
  | _ => True

def TimelyRun [DecidableEq ι] [Fintype ι] (request : ι → List ε → Call sha256) (key : String) :
    Session sha256 ε ι → List (Turn ε ι) → Prop
  | _, [] => True
  | s, turn::rest => Timely key s turn ∧
      ∀ s', step request s turn = some s' → TimelyRun request key s' rest

/-! ### What an evaluation writes about a key -/

theorem matched_complete {findings : List (RiskFinding sha256)} {f : RiskFinding sha256}
    (hf : f ∈ findings) : ∃ g ∈ matched findings, g.key = f.key := by
  have hkey : f.key ∈ SortedLists.sortedBy id (findings.map (·.key)).dedup := by
    rw [SortedLists.mem_sortedBy, List.mem_dedup]
    exact List.mem_map_of_mem hf
  have hsome : (findings.reverse.find? fun g => g.key = f.key).isSome :=
    List.find?_isSome.mpr ⟨f,List.mem_reverse.mpr hf,by simp⟩
  obtain ⟨g,hg⟩ := Option.isSome_iff_exists.mp hsome
  refine ⟨g,List.mem_filterMap.mpr ⟨f.key,hkey,hg⟩,?_⟩
  simpa using List.find?_some hg

section Views
variable {call : Call sha256} {existing : List (Option StoredFinding)}
variable {openRows : List StoredFinding}

theorem view_matched (hlen : existing.length = (matched call.findings).length)
    {pair : RiskFinding sha256 × Option StoredFinding}
    (hpair : pair ∈ (matched call.findings).zip existing) :
    view call existing openRows pair.1.key = pair.2 := by
  have hkeys : (((matched call.findings).zip existing).map fun pair => pair.1.key).Nodup := by
    have hfst : (((matched call.findings).zip existing).map fun pair => pair.1.key) =
        (matched call.findings).map (·.key) := by
      conv_rhs => rw [← @List.map_fst_zip _ _ (matched call.findings) _ hlen.ge]
      exact (List.map_map ..).symm
    rw [hfst]
    exact matched_apart call.findings
  unfold view
  rw [find_keyed hkeys hpair]

theorem view_missed {key : String} (h : ∀ f ∈ call.findings, f.key ≠ key) :
    view call existing openRows key = openRows.find? (·.key = key) := by
  have hnone : ((matched call.findings).zip existing).find?
      (fun pair => pair.1.key = key) = none := by
    apply List.find?_eq_none.mpr
    intro pair hpair hkey
    exact h pair.1 (mem_matched (List.of_mem_zip hpair).1) (of_decide_eq_true hkey)
  unfold view
  rw [hnone]

theorem mem_decided {w : FindingWrite sha256} :
    w ∈ (FindingRecords.decide call existing openRows).2 ↔
      (∃ pair ∈ (matched call.findings).zip existing, decideMatched pair.1 pair.2 = w) ∨
      ∃ r ∈ openRows, (∀ f ∈ call.findings, f.key ≠ r.key) ∧ entitled call r = true ∧
        .resolve r = w := by
  have hmissed : ∀ r : StoredFinding, r.key ∉ (matched call.findings).map (·.key) ↔
      ∀ f ∈ call.findings, f.key ≠ r.key := by
    intro r
    constructor
    · intro hnot f hf hkey
      obtain ⟨g,hg,hsame⟩ := matched_complete hf
      exact hnot (hkey ▸ hsame ▸ List.mem_map_of_mem hg)
    · intro hnone hmem
      obtain ⟨g,hg,hkey⟩ := List.mem_map.mp hmem
      exact hnone g (mem_matched hg) hkey
  show w ∈ List.zipWith decideMatched (matched call.findings) existing ++
    ((openRows.filter fun record : StoredFinding =>
      record.key ∉ (matched call.findings).map RiskFinding.key).filter (entitled call)).map FindingWrite.resolve ↔ _
  rw [List.mem_append, ← List.map_uncurry_zip_eq_zipWith, List.mem_map, List.mem_map]
  apply or_congr Iff.rfl
  simp only [List.mem_filter, decide_eq_true_eq, hmissed, and_assoc]

/-- The writes of an evaluation are about different keys. -/
theorem decided_apart (hlen : existing.length = (matched call.findings).length)
    (hopen : (openRows.map (·.key)).Nodup) :
    ((FindingRecords.decide call existing openRows).2.map FindingWrite.key).Nodup := by
  have hfound : (List.zipWith decideMatched (matched call.findings) existing).map
      FindingWrite.key = (matched call.findings).map (·.key) := by
    rw [← List.map_uncurry_zip_eq_zipWith, List.map_map]
    conv_rhs => rw [← @List.map_fst_zip _ _ (matched call.findings) _ hlen.ge, List.map_map]
    apply List.map_congr_left
    intro pair _
    exact decideMatched_key pair.1 pair.2
  show ((List.zipWith decideMatched (matched call.findings) existing ++
    ((openRows.filter fun record : StoredFinding =>
      record.key ∉ (matched call.findings).map RiskFinding.key).filter (entitled call)).map FindingWrite.resolve).map FindingWrite.key).Nodup
  rw [List.map_append, hfound, List.map_map]
  apply List.nodup_append.mpr
  refine ⟨matched_apart call.findings,?_,?_⟩
  · exact hopen.sublist ((List.filter_sublist.trans List.filter_sublist).map _)
  · intro a ha b hb hab
    obtain ⟨r,hr,rfl⟩ := List.mem_map.mp hb
    have hnot := (List.mem_filter.mp (List.mem_filter.mp hr).1).2
    have hab : a = r.key := hab
    exact (of_decide_eq_true hnot) (hab ▸ ha)

/-- What is written about a key follows from what was read about it. -/
theorem written_about (hlen : existing.length = (matched call.findings).length)
    (hopen : (openRows.map (·.key)).Nodup) {w : FindingWrite sha256} {key : String}
    (hw : w ∈ (FindingRecords.decide call existing openRows).2) (hkey : w.key = key) :
    (∃ f ∈ matched call.findings, f.key = key ∧
      w = decideMatched f (view call existing openRows key)) ∨
    (∀ f ∈ call.findings, f.key ≠ key) ∧ ∃ r, view call existing openRows key = some r ∧
      entitled call r = true ∧ w = .resolve r := by
  rcases mem_decided.mp hw with ⟨pair,hpair,rfl⟩ | ⟨r,hr,hmissed,hentitled,rfl⟩
  · rw [decideMatched_key] at hkey
    refine .inl ⟨pair.1,(List.of_mem_zip hpair).1,hkey,?_⟩
    rw [← hkey, view_matched hlen hpair]
  · have hkey : r.key = key := hkey
    rw [hkey] at hmissed
    refine .inr ⟨hmissed,r,?_,hentitled,rfl⟩
    rw [view_missed hmissed, ← hkey]
    exact find_keyed hopen hr

theorem matched_written (hlen : existing.length = (matched call.findings).length)
    {f : RiskFinding sha256} (hf : f ∈ matched call.findings) :
    decideMatched f (view call existing openRows f.key) ∈
      (FindingRecords.decide call existing openRows).2 := by
  have hfst := @List.map_fst_zip _ _ (matched call.findings) _ hlen.ge
  rw [← hfst] at hf
  obtain ⟨pair,hpair,rfl⟩ := List.mem_map.mp hf
  rw [view_matched hlen hpair]
  exact mem_decided.mpr (.inl ⟨pair,hpair,rfl⟩)

theorem missed_written {key : String} (h : ∀ f ∈ call.findings, f.key ≠ key) {r : StoredFinding}
    (hr : view call existing openRows key = some r) (hentitled : entitled call r = true) :
    r.key = key ∧ .resolve r ∈ (FindingRecords.decide call existing openRows).2 := by
  rw [view_missed h] at hr
  have hkey : r.key = key := by simpa using List.find?_some hr
  refine ⟨hkey,mem_decided.mpr (.inr ⟨r,List.mem_of_find?_eq_some hr,?_,hentitled,rfl⟩)⟩
  rwa [hkey]

end Views

section Now
variable {store : FindingStore} {call : Call sha256}

theorem viewNow_matched {f : RiskFinding sha256} (hf : f ∈ matched call.findings) :
    viewNow call store f.key = storedAt store f.key := by
  have hpair : (f,storedAt store f.key) ∈ (matched call.findings).zip
      ((matched call.findings).map fun f => storedAt store f.key) := by
    rw [List.zip_eq_zipWith, List.zipWith_map_right, List.zipWith_self]
    exact List.mem_map.mpr ⟨f,hf,rfl⟩
  exact view_matched (List.length_map _) hpair

/-- An open finding that was not matched is seen where its rule ran, and nothing else is. -/
theorem viewNow_missed (h : Encoded store) {key : String}
    (hmissed : ∀ f ∈ call.findings, f.key ≠ key) :
    (∀ r, viewNow call store key = some r →
      store.findings.get? key = some (encode r) ∧ r.status = .open) ∧
    ∀ r, store.findings.get? key = some (encode r) → r.status = .open →
      r.ruleId.value ∈ call.rulesRun.map RuleId.value → viewNow call store key = some r := by
  obtain ⟨records,hread,hapart,hheld,hall⟩ := h.openFindings call.rulesRun
  have hview : viewNow call store key = records.find? (·.key = key) := by
    unfold viewNow
    rw [view_missed hmissed, hread]
    rfl
  rw [hview]
  constructor
  · intro r hr
    have hkey : r.key = key := by simpa using List.find?_some hr
    rw [← hkey]
    exact hheld r (List.mem_of_find?_eq_some hr)
  · intro r hr hstatus hrule
    have hkey : r.key = key := h.keyed hr
    rw [← hkey] at hr ⊢
    exact find_keyed hapart (hall r hr hstatus hrule)

end Now

/-! ### Commits -/

section Commits
variable {evaluationId : String} {now : Instant}

/-- A write leaves a row that can be read, whatever it was decided from. -/
theorem rowAfter_encoded {w : FindingWrite sha256} {held : Option FindingRow}
    (h : ∀ row, held = some row → ∃ record, row = encode record ∧ record.key = w.key)
    {row : FindingRow} (hafter : rowAfter evaluationId now w held = some row) :
    ∃ record, row = encode record ∧ record.key = w.key := by
  cases held with
  | none =>
    cases w with
    | insert f =>
      obtain ⟨record,hrecord,-⟩ := (@written_inserted _ evaluationId now f).life.genuine
      rw [← Option.some.inj hafter]
      refine ⟨record,hrecord,?_⟩
      exact (congrArg FindingRow.key hrecord).symm
    | reopen | replaceEvidence | reaffirm | resolve => cases hafter
  | some old =>
    obtain ⟨record,rfl,hkey⟩ := h old rfl
    cases w with
    | insert f =>
      rw [← Option.some.inj hafter]
      exact ⟨{ record with
        lastEvaluatedAt := now
        lastEvaluationId := evaluationId
        severity := f.severity
        confidence := f.confidence },rfl,hkey⟩
    | reopen f current =>
      rw [← Option.some.inj hafter]
      exact ⟨{ record with
        status := .open
        ruleVersion := f.ruleVersion
        severity := f.severity
        confidence := f.confidence
        band := f.band
        qualifiers := f.qualifiers
        evidence := f.evidence
        evidenceDigest := f.evidenceDigest
        detail := f.detail
        detectedAt := now
        lastEvaluatedAt := now
        resolvedAt := none
        resolvedEvaluationId := none
        occurrenceCount := current.occurrenceCount+1
        lastEvaluationId := evaluationId },rfl,hkey⟩
    | replaceEvidence f current =>
      rw [← Option.some.inj hafter]
      exact ⟨{ record with
        ruleVersion := f.ruleVersion
        severity := f.severity
        confidence := f.confidence
        band := f.band
        qualifiers := f.qualifiers
        detail := f.detail
        lastEvaluatedAt := now
        lastEvaluationId := evaluationId
        evidence := f.evidence
        evidenceDigest := f.evidenceDigest },rfl,hkey⟩
    | reaffirm f =>
      rw [← Option.some.inj hafter]
      exact ⟨{ record with
        ruleVersion := f.ruleVersion
        severity := f.severity
        confidence := f.confidence
        band := f.band
        qualifiers := f.qualifiers
        detail := f.detail
        lastEvaluatedAt := now
        lastEvaluationId := evaluationId },rfl,hkey⟩
    | resolve resolvedRecord =>
      rw [← Option.some.inj hafter]
      exact ⟨{ record with
        status := .resolved
        resolvedAt := some now
        resolvedEvaluationId := some evaluationId
        lastEvaluatedAt := now
        lastEvaluationId := evaluationId },rfl,hkey⟩

theorem writes_encoded {ws : List (FindingWrite sha256)} (hapart : (ws.map FindingWrite.key).Nodup)
    {store : FindingStore} (h : Encoded store) :
    Encoded (ws.foldl (perform evaluationId now) store) := by
  intro k row hrow
  by_cases hk : ∃ w ∈ ws, w.key = k
  · obtain ⟨w,hw,rfl⟩ := hk
    rw [performed_own evaluationId now hapart hw] at hrow
    exact rowAfter_encoded (h w.key) hrow
  · have hother : ∀ w ∈ ws, w.key ≠ k := fun w hw hkey => hk ⟨w,hw,hkey⟩
    rw [performed_other evaluationId now hother] at hrow
    exact h k row hrow

/-- A finding is opened for the first time exactly where it is stored. -/
def OpenedOnce (store : FindingStore) (key : String) : Prop :=
  openedEvents store key = if (store.findings.get? key).isSome then 1 else 0

theorem openedOnce_write {w : FindingWrite sha256} {store store' : FindingStore}
    (h : OpenedOnce store w.key) (hsound : Sound (store.findings.get? w.key) w)
    (hrow : store'.findings.get? w.key = rowAfter evaluationId now w (store.findings.get? w.key))
    (hlog : store'.events.filter (·.findingKey = w.key) =
      store.events.filter (·.findingKey = w.key) ++ [eventOf evaluationId now w]) :
    OpenedOnce store' w.key := by
  unfold OpenedOnce openedEvents at *
  rw [hlog, hrow, List.countP_append, h]
  cases w with
  | insert f =>
    rw [show store.findings.get? _ = none from hsound]
    rfl
  | reopen f current =>
    rw [show store.findings.get? _ = _ from hsound.1]
    rfl
  | replaceEvidence f current =>
    rw [show store.findings.get? _ = _ from hsound.1]
    rfl
  | reaffirm f =>
    obtain ⟨current,hheld,-⟩ := hsound
    rw [show store.findings.get? _ = _ from hheld]
    rfl
  | resolve record =>
    rw [show store.findings.get? _ = _ from hsound.1]
    rfl

/-- A finding that was matched is open with the evidence it was matched on. -/
theorem matched_open {f : RiskFinding sha256} {held : Option FindingRow}
    {current : Option StoredFinding} (hsound : Sound held (decideMatched f current)) :
    ∃ row, rowAfter evaluationId now (decideMatched f current) held = some row ∧
      row.status = .open ∧ row.evidenceDigest = f.evidenceDigest := by
  rcases decideMatched_cases f current with
    ⟨-,hw⟩ | ⟨c,-,⟨-,hw⟩ | ⟨-,hw⟩ | ⟨-,-,hw⟩⟩
  · rw [hw] at hsound ⊢
    rw [show held = none from hsound]
    exact ⟨_,rfl,rfl,rfl⟩
  · rw [hw] at hsound ⊢
    rw [hsound.1]
    exact ⟨_,rfl,rfl,rfl⟩
  · rw [hw] at hsound ⊢
    rw [hsound.1]
    exact ⟨_,rfl,hsound.2,rfl⟩
  · rw [hw] at hsound ⊢
    obtain ⟨current,hheld,hstatus,hdigest⟩ := hsound
    rw [hheld]
    exact ⟨_,rfl,hstatus,hdigest⟩

end Commits

/-! ### Turns -/

/-- The reads of an evaluation that is about to write fit what it decides from them. -/
def Fitting : Phase sha256 ε → Prop
  | .writing _ call existing openRows _ =>
    existing.length = (matched call.findings).length ∧ (openRows.map (·.key)).Nodup
  | _ => True

section Moves
variable [DecidableEq ι]

/-- What a turn leaves: findings that are as they were, or the commit of an evaluation. -/
inductive Moved (s : Session sha256 ε ι) : Turn ε ι → Session sha256 ε ι → Prop where
  | quiet {turn : Turn ε ι} {s' : Session sha256 ε ι} (hstore : s'.store = s.store)
      (hcommitted : ∀ i loadedAt call,
        s'.passes i = .committed loadedAt call ↔ s.passes i = .committed loadedAt call)
      (hfits : Encoded s.store → (∀ i, Fitting (s.passes i)) → ∀ i, Fitting (s'.passes i)) :
      Moved s turn s'
  | committed {i : ι} {loadedAt : ℕ} {call : Call sha256} {existing : List (Option StoredFinding)}
      {openRows : List StoredFinding} {done : ℕ}
      (hphase : s.passes i = .writing loadedAt call existing openRows done) :
      Moved s (.commit i) ((s.commit call (FindingRecords.decide call existing openRows).2).set i
        (.committed loadedAt call))

/-- An evaluation that has not committed and does not commit now. -/
theorem moved_on {s s' : Session sha256 ε ι} {turn : Turn ε ι} {i : ι} {phase : Phase sha256 ε}
    (hstore : s'.store = s.store) (hpasses : s'.passes = Function.update s.passes i phase)
    (hwas : ∀ loadedAt call, s.passes i ≠ .committed loadedAt call)
    (hnow : ∀ loadedAt call, phase ≠ .committed loadedAt call)
    (hfits : Encoded s.store → Fitting (s.passes i) → Fitting phase) : Moved s turn s' := by
  refine .quiet hstore ?_ ?_
  · intro j loadedAt call
    rw [hpasses]
    by_cases hj : j = i
    · subst hj
      rw [Function.update_self]
      exact ⟨fun h => absurd h (hnow loadedAt call),fun h => absurd h (hwas loadedAt call)⟩
    · rw [Function.update_of_ne hj]
  · intro hencoded hall j
    rw [hpasses]
    by_cases hj : j = i
    · subst hj
      rw [Function.update_self]
      exact hfits hencoded (hall j)
    · rw [Function.update_of_ne hj]
      exact hall j

variable [Fintype ι] {request : ι → List ε → Call sha256}

theorem step_moved {s s' : Session sha256 ε ι} {turn : Turn ε ι}
    (h : step request s turn = some s') : Moved s turn s' := by
  unfold step at h
  cases turn with
  | change estate =>
    cases h
    exact .quiet rfl (fun _ _ _ => Iff.rfl) fun _ hall => hall
  | load i | evaluate i =>
    dsimp only at h
    split at h
    · rename_i hphase
      cases h
      exact moved_on rfl rfl (by simp [hphase]) (by simp) fun _ _ => trivial
    · cases h
  | readKey i =>
    dsimp only at h
    split at h
    · rename_i hphase
      split at h
      · obtain ⟨held,-,rfl⟩ := Option.map_eq_some_iff.mp h
        exact moved_on rfl rfl (by simp [hphase]) (by simp) fun _ _ => trivial
      · cases h
    · cases h
  | readOpen i =>
    dsimp only at h
    split at h
    · rename_i call existing hphase
      split_ifs at h with hlen
      obtain ⟨openRows,hread,rfl⟩ := Option.map_eq_some_iff.mp h
      refine moved_on rfl rfl (by simp [hphase]) (by simp) fun hencoded _ => ⟨hlen,?_⟩
      obtain ⟨records,hrecords,hapart,-⟩ := hencoded.openFindings call.rulesRun
      rw [Option.some.inj (hread.symm.trans hrecords)]
      exact hapart
    · cases h
  | write i =>
    dsimp only at h
    split at h
    · rename_i hphase
      split at h
      · split_ifs at h
        cases h
        exact moved_on rfl rfl (by simp [hphase]) (by simp) fun _ hfits => by
          rw [hphase] at hfits
          exact hfits
      · cases h
    · cases h
  | commit i =>
    dsimp only at h
    split at h
    · rename_i hphase
      split_ifs at h
      cases h
      exact .committed hphase
    · cases h
  | abort i =>
    dsimp only at h
    split at h
    · cases h
    · rename_i hnot
      cases h
      exact moved_on rfl rfl hnot (by simp) fun _ _ => trivial

end Moves

/-! ### Runs -/

/-- What the turns of a timely run keep about a finding. -/
structure Sane (s : Session sha256 ε ι) (key : String) : Prop where
  encoded : Encoded s.store
  fitting : ∀ i, Fitting (s.passes i)
  once : OpenedOnce s.store key
  matched : ∀ i loadedAt call, LastLoaded s i loadedAt call →
    ∀ f ∈ matched call.findings, f.key = key →
      ∃ row, s.store.findings.get? key = some row ∧ row.status = .open ∧
        row.evidenceDigest = f.evidenceDigest
  missed : ∀ i loadedAt call, LastLoaded s i loadedAt call →
    (∀ f ∈ call.findings, f.key ≠ key) → ∀ row record,
      s.store.findings.get? key = some row → stored row = some record →
      entitled call record = true → row.status = .resolved

theorem Sane.notUndone {s : Session sha256 ε ι} {key : String} (h : Sane s key) :
    NotUndone s key where
  matched := h.matched
  missed := h.missed
  once := by
    intro row hrow
    have honce := h.once
    unfold OpenedOnce at honce
    rw [hrow] at honce
    exact honce

theorem Sane.quiet {s s' : Session sha256 ε ι} {key : String} (h : Sane s key)
    (hstore : s'.store = s.store)
    (hcommitted : ∀ i loadedAt call,
      s'.passes i = .committed loadedAt call ↔ s.passes i = .committed loadedAt call)
    (hfits : Encoded s.store → (∀ i, Fitting (s.passes i)) → ∀ i, Fitting (s'.passes i)) :
    Sane s' key := by
  have hlast : ∀ i loadedAt call, LastLoaded s' i loadedAt call → LastLoaded s i loadedAt call := by
    intro i loadedAt call hi
    exact ⟨(hcommitted i loadedAt call).mp hi.1,fun j hj at' call' hj' =>
      hi.2 j hj at' call' ((hcommitted j at' call').mpr hj')⟩
  constructor
  · rw [hstore]
    exact h.encoded
  · exact hfits h.encoded h.fitting
  · rw [hstore]
    exact h.once
  · intro i loadedAt call hi
    rw [hstore]
    exact h.matched i loadedAt call (hlast i loadedAt call hi)
  · intro i loadedAt call hi
    rw [hstore]
    exact h.missed i loadedAt call (hlast i loadedAt call hi)

section Commit
variable {s : Session sha256 ε ι} {i : ι} {loadedAt : ℕ} {call : Call sha256}
variable {existing : List (Option StoredFinding)} {openRows : List StoredFinding} {done : ℕ}
variable {key : String}

/-- A timely evaluation decides each write about the finding from the row as it is. -/
theorem timely_sound (hencoded : Encoded s.store)
    (hfits : existing.length = (matched call.findings).length ∧ (openRows.map (·.key)).Nodup)
    (htimely : Concerns call (view call existing openRows key) key ∨
        Concerns call (viewNow call s.store key) key →
      view call existing openRows key = viewNow call s.store key ∧
        ∀ j at' call', s.passes j = .committed at' call' → at' < loadedAt)
    {w : FindingWrite sha256} (hw : w ∈ (FindingRecords.decide call existing openRows).2)
    (hkey : w.key = key) : Sound (s.store.findings.get? key) w ∧
      ∀ j at' call', s.passes j = .committed at' call' → at' < loadedAt := by
  rcases written_about hfits.1 hfits.2 hw hkey with
    ⟨f,hf,hfkey,hdecided⟩ | ⟨hmissed,r,hview,hentitled,rfl⟩
  · obtain ⟨hsame,horder⟩ := htimely (.inl (.inl ⟨f,mem_matched hf,hfkey⟩))
    refine ⟨?_,horder⟩
    rw [hdecided, hsame, ← hfkey, viewNow_matched hf]
    exact decideMatched_sound hencoded f
  · obtain ⟨hsame,horder⟩ := htimely (.inl (.inr ⟨r,hview,hentitled⟩))
    exact ⟨(viewNow_missed hencoded hmissed).1 r (hsame ▸ hview),horder⟩

/-- The row of the finding is what a write has made of it, or nothing is written about it. -/
theorem commit_about (hencoded : Encoded s.store)
    (hfits : existing.length = (matched call.findings).length ∧ (openRows.map (·.key)).Nodup)
    (htimely : Concerns call (view call existing openRows key) key ∨
        Concerns call (viewNow call s.store key) key →
      view call existing openRows key = viewNow call s.store key ∧
        ∀ j at' call', s.passes j = .committed at' call' → at' < loadedAt) :
    let store := (s.commit call (FindingRecords.decide call existing openRows).2).store
    (∃ w ∈ (FindingRecords.decide call existing openRows).2, w.key = key ∧
      Sound (s.store.findings.get? key) w ∧
      (∀ j at' call', s.passes j = .committed at' call' → at' < loadedAt) ∧
      store.findings.get? key =
        rowAfter call.evaluationId call.now w (s.store.findings.get? key) ∧
      store.events.filter (·.findingKey = key) = s.store.events.filter (·.findingKey = key) ++
        [eventOf call.evaluationId call.now w]) ∨
    (∀ w ∈ (FindingRecords.decide call existing openRows).2, w.key ≠ key) ∧
      store.findings.get? key = s.store.findings.get? key ∧
      store.events.filter (·.findingKey = key) = s.store.events.filter (·.findingKey = key) := by
  have hapart := decided_apart hfits.1 hfits.2
  by_cases hk : ∃ w ∈ (FindingRecords.decide call existing openRows).2, w.key = key
  · obtain ⟨w,hw,hkey⟩ := hk
    obtain ⟨hsound,horder⟩ := timely_sound hencoded hfits htimely hw hkey
    refine .inl ⟨w,hw,hkey,hsound,horder,?_,?_⟩
    · rw [← hkey]
      exact performed_own call.evaluationId call.now hapart hw s.store
    · rw [← hkey]
      refine (performed_log call.evaluationId call.now _ s.store w.key).trans ?_
      rw [filter_own hapart hw]
      rfl
  · have hother : ∀ w ∈ (FindingRecords.decide call existing openRows).2, w.key ≠ key :=
      fun w hw hkey => hk ⟨w,hw,hkey⟩
    refine .inr ⟨hother,performed_other call.evaluationId call.now hother s.store,?_⟩
    refine (performed_log call.evaluationId call.now _ s.store key).trans ?_
    rw [filter_other hother]
    exact List.append_nil _

variable [DecidableEq ι]

theorem lastLoaded_set {s' : Session sha256 ε ι} {j : ι} {at' : ℕ} {call' : Call sha256}
    (hpasses : s'.passes = s.passes) (hwas : ∀ at' call', s.passes i ≠ .committed at' call')
    (h : LastLoaded (s'.set i (.committed loadedAt call)) j at' call') :
    (j = i ∧ at' = loadedAt ∧ call' = call) ∨
      (LastLoaded s j at' call' ∧ loadedAt < at') := by
  have hother : ∀ k, k ≠ i → (s'.set i (.committed loadedAt call)).passes k = s.passes k := by
    intro k hk
    exact (Function.update_of_ne hk ..).trans (congrFun hpasses k)
  have hself : (s'.set i (.committed loadedAt call)).passes i = .committed loadedAt call :=
    Function.update_self ..
  obtain ⟨hj,hlast⟩ := h
  by_cases hji : j = i
  · rw [hji, hself] at hj
    cases hj
    exact .inl ⟨hji,rfl,rfl⟩
  · refine .inr ⟨⟨(hother j hji).symm.trans hj,fun k hk at'' call'' hcommitted => ?_⟩,
      hlast i (Ne.symm hji) loadedAt call hself⟩
    have hki : k ≠ i := by
      intro hki
      exact hwas at'' call'' (hki ▸ hcommitted)
    exact hlast k hk at'' call'' ((hother k hki).trans hcommitted)

theorem Sane.committed (h : Sane s key)
    (hphase : s.passes i = .writing loadedAt call existing openRows done)
    (htimely : Timely key s (.commit i)) :
    Sane ((s.commit call (FindingRecords.decide call existing openRows).2).set i
      (.committed loadedAt call)) key := by
  have hfits : existing.length = (FindingRecords.matched call.findings).length ∧
      (openRows.map (·.key)).Nodup := by
    have hfitting := h.fitting i
    rw [hphase] at hfitting
    exact hfitting
  have hnow := htimely loadedAt call existing openRows done hphase
  have hapart := decided_apart hfits.1 hfits.2
  have habout := commit_about h.encoded hfits hnow
  have hencoded : Encoded (s.commit call (FindingRecords.decide call existing openRows).2).store :=
    writes_encoded hapart h.encoded
  have hsplit : ∀ {j at' call'}, LastLoaded ((s.commit call
      (FindingRecords.decide call existing openRows).2).set i (.committed loadedAt call)) j at'
      call' → (j = i ∧ at' = loadedAt ∧ call' = call) ∨
        (LastLoaded s j at' call' ∧ loadedAt < at') :=
    fun hlast => lastLoaded_set rfl (by simp [hphase]) hlast
  constructor
  · exact hencoded
  · intro j
    show Fitting (Function.update s.passes i _ j)
    by_cases hj : j = i
    · subst hj
      rw [Function.update_self]
      trivial
    · rw [Function.update_of_ne hj]
      exact h.fitting j
  · rcases habout with ⟨w,-,hkey,hsound,-,hrow,hlog⟩ | ⟨-,hrow,hlog⟩
    · subst hkey
      exact openedOnce_write h.once hsound hrow hlog
    · have honce := h.once
      unfold OpenedOnce openedEvents at *
      rw [← hrow, ← hlog] at honce
      exact honce
  · intro j at' call' hlast f hf hfkey
    rcases hsplit hlast with ⟨-,-,rfl⟩ | ⟨hlast,hlater⟩
    · have hw := @matched_written _ _ _ openRows hfits.1 _ hf
      rw [hfkey] at hw
      have hkey : (decideMatched f (view call' existing openRows key)).key = key :=
        (decideMatched_key f _).trans hfkey
      obtain ⟨hsound,-⟩ := timely_sound h.encoded hfits hnow hw hkey
      obtain ⟨row,hrow,hstatus,hdigest⟩ := @matched_open _ call'.evaluationId
        call'.now _ _ _ hsound
      refine ⟨row,?_,hstatus,hdigest⟩
      have hown := performed_own call'.evaluationId call'.now hapart hw s.store
      rw [hkey] at hown
      exact hown.trans hrow
    · rcases habout with ⟨-,-,-,-,horder,-⟩ | ⟨-,hrow,-⟩
      · exact absurd (horder j at' call' hlast.1) (not_lt_of_gt hlater)
      · obtain ⟨row,hheld,hopen⟩ := h.matched j at' call' hlast f hf hfkey
        exact ⟨row,hrow.trans hheld,hopen⟩
  · intro j at' call' hlast hmissed row record hheld hstored hentitled
    rcases hsplit hlast with ⟨-,-,rfl⟩ | ⟨hlast,hlater⟩
    · rcases habout with ⟨w,hw,hkey,hsound,-,hrow,-⟩ | ⟨hnone,hrow,-⟩
      · rcases written_about hfits.1 hfits.2 hw hkey with ⟨f,hf,hfkey,-⟩ | ⟨-,r,-,-,rfl⟩
        · exact absurd hfkey (hmissed f (mem_matched hf))
        · rw [hsound.1] at hrow
          rw [← Option.some.inj (hrow.symm.trans hheld)]
          rfl
      · by_contra hlive
        have hopen : row.status = .open := by
          cases hstatus : row.status with
          | «open» => rfl
          | resolved => exact absurd hstatus hlive
        have hold : s.store.findings.get? key = some row := hrow.symm.trans hheld
        obtain ⟨record',rfl,-⟩ := h.encoded key row hold
        obtain rfl : record' = record := Option.some.inj ((stored_encode record').symm.trans hstored)
        have hrule := (Bool.and_eq_true_iff.mp hentitled).1
        have hview := (viewNow_missed h.encoded hmissed).2 record' hold hopen
          (of_decide_eq_true hrule)
        obtain ⟨hsame,-⟩ := hnow (.inr (.inr ⟨record',hview,hentitled⟩))
        obtain ⟨hkey,hw⟩ := @missed_written _ _ existing _ _ hmissed _
          (hsame.trans hview) hentitled
        exact hnone _ hw hkey
    · rcases habout with ⟨-,-,-,-,horder,-⟩ | ⟨-,hrow,-⟩
      · exact absurd (horder j at' call' hlast.1) (not_lt_of_gt hlater)
      · exact h.missed j at' call' hlast hmissed row record (hrow.symm.trans hheld) hstored
          hentitled

end Commit

theorem sane_begin {estate : ε} {store : FindingStore} {m : Instant} (h : Kept sha256 store m)
    (key : String) : Sane (begin estate store : Session sha256 ε ι) key where
  encoded := h.encoded
  fitting := fun _ => trivial
  once := by
    show openedEvents store key = if (store.findings.get? key).isSome then 1 else 0
    cases hrow : store.findings.get? key with
    | none => exact congrArg (List.countP _) (h.silent key hrow)
    | some row => exact (h.lives key row hrow).1.logged.once
  matched := fun _ _ _ hlast => Phase.noConfusion rfl rfl (heq_of_eq hlast.1)
  missed := fun _ _ _ hlast => Phase.noConfusion rfl rfl (heq_of_eq hlast.1)

section Runs
variable [DecidableEq ι] [Fintype ι] {request : ι → List ε → Call sha256}

theorem sane_run {s s' : Session sha256 ε ι} {key : String} {turns : List (Turn ε ι)}
    (h : Sane s key) (htimely : TimelyRun request key s turns)
    (hrun : runTurns request s turns = some s') : Sane s' key := by
  induction turns generalizing s with
  | nil =>
    rw [← Option.some.inj hrun]
    exact h
  | cons turn rest ih =>
    obtain ⟨s₁,hstep,hrest⟩ := Option.bind_eq_some_iff.mp hrun
    refine ih ?_ (htimely.2 s₁ hstep) hrest
    cases step_moved hstep with
    | quiet hstore hcommitted hfits => exact h.quiet hstore hcommitted hfits
    | committed hphase => exact h.committed hphase htimely.1

theorem TimelyRun.cons {s s' : Session sha256 ε ι} {key : String} {turn : Turn ε ι}
    {rest : List (Turn ε ι)} (hstep : step request s turn = some s') (hnow : Timely key s turn)
    (hrest : TimelyRun request key s' rest) : TimelyRun request key s (turn::rest) :=
  ⟨hnow,fun _ h => Option.some.inj (hstep.symm.trans h) ▸ hrest⟩

/-- In every run in which the evaluations are timely about a finding, none undoes another. -/
theorem timely_not_undone (estate : ε) {store : FindingStore} {m : Instant}
    (hkept : Kept sha256 store m) (key : String) {turns : List (Turn ε ι)}
    (htimely : TimelyRun request key (begin estate store) turns) {s : Session sha256 ε ι}
    (hrun : runTurns request (begin estate store) turns = some s) : NotUndone s key :=
  (sane_run (sane_begin hkept key) htimely hrun).notUndone

end Runs

/-! ### Two evaluations of one finding -/

/-- What is found follows from whether the entry was there when it was loaded. -/
def sampleRequest (i : Bool) (seen : List Bool) : Call id where
  evaluationId := if i then "b" else "a"
  now := 0
  findings := if seen.getLast? = some true then [sampleFinding] else []
  scope := { complete := true }
  rulesRun := [.directUserAce]

/-- Both read that the finding is not stored, and both insert it. -/
def doubledTurns : List (Turn Bool Bool) :=
  [.load false, .load true, .evaluate false, .evaluate true, .readKey false, .readKey true,
    .readOpen false, .readOpen true, .write false, .commit false, .write true, .commit true]

/-- The entry appears after the first has loaded. The second finds it and commits, and the
first resolves it. -/
def overtakenTurns : List (Turn Bool Bool) :=
  [.load false, .change true, .load true, .evaluate false, .evaluate true, .readKey true,
    .readOpen true, .write true, .commit true, .readOpen false, .write false, .commit false]

theorem doubled_run : ∃ s, runTurns sampleRequest (begin true FindingStore.blank) doubledTurns =
    some s ∧ (s.store.findings.get? sampleFinding.key).isSome ∧
      openedEvents s.store sampleFinding.key = 2 :=
  ⟨_,rfl,rfl,rfl⟩

theorem overtaken_run : ∃ s, runTurns sampleRequest (begin false FindingStore.blank)
    overtakenTurns = some s ∧ s.passes true = .committed 2 (sampleRequest true [true]) ∧
      s.passes false = .committed 1 (sampleRequest false [false]) ∧
      (s.store.findings.get? sampleFinding.key).map (·.status) = some .resolved :=
  ⟨_,rfl,rfl,rfl,rfl⟩

/-- Two evaluations open one finding twice, and one undoes what a later one has found. -/
theorem passes_undone :
    (∃ s, runTurns sampleRequest (begin true FindingStore.blank) doubledTurns = some s ∧
      ¬ NotUndone s sampleFinding.key) ∧
    ∃ s, runTurns sampleRequest (begin false FindingStore.blank) overtakenTurns = some s ∧
      ¬ NotUndone s sampleFinding.key := by
  constructor
  · obtain ⟨s,hrun,hstored,hopened⟩ := doubled_run
    refine ⟨s,hrun,fun h => ?_⟩
    obtain ⟨row,hrow⟩ := Option.isSome_iff_exists.mp hstored
    have honce := h.once row hrow
    omega
  · obtain ⟨s,hrun,hlater,hearlier,hstatus⟩ := overtaken_run
    refine ⟨s,hrun,fun h => ?_⟩
    have hlast : LastLoaded s true 2 (sampleRequest true [true]) := by
      refine ⟨hlater,fun j hj at' call' hcommitted => ?_⟩
      have hj : j = false := Bool.eq_false_iff.mpr hj
      rw [hj, hearlier] at hcommitted
      cases hcommitted
      exact Nat.lt_succ_self 1
    obtain ⟨row,hrow,hopen,-⟩ := h.matched true 2 _ hlast sampleFinding List.mem_cons_self rfl
    rw [hrow] at hstatus
    exact FindingStatus.noConfusion (hopen.symm.trans (Option.some.inj hstatus))

def aloneTurns : List (Turn Bool Bool) :=
  [.load false, .evaluate false, .readKey false, .readOpen false, .write false, .commit false]

theorem alone_timely : TimelyRun sampleRequest sampleFinding.key
    (begin true FindingStore.blank) aloneTurns := by
  refine .cons rfl trivial (.cons rfl trivial (.cons rfl trivial (.cons rfl trivial
    (.cons rfl trivial (.cons rfl ?_ trivial)))))
  intro loadedAt call existing openRows done hphase _
  cases hphase
  refine ⟨rfl,fun j at' call' hcommitted => ?_⟩
  cases j <;> cases hcommitted

theorem alone_not_undone : ∃ s, runTurns sampleRequest (begin true FindingStore.blank)
    aloneTurns = some s ∧ NotUndone s sampleFinding.key :=
  ⟨_,rfl,timely_not_undone true (kept_blank 0) sampleFinding.key alone_timely rfl⟩

end Adg.FindingRaces
