import Adg.Checkpoints

/-!
# Racing checkpoints

Transactions of one job read the row of its cursor under a lock, decide, write
and commit. A row that is not there cannot be locked, and the write does not ask
again whether the cursor that it replaces is further on.
-/

set_option autoImplicit false

namespace Adg.CheckpointRaces
open Adg.Observation Adg.ObjectVersions Adg.KeyedTables Adg.ScopeClosure Adg.Checkpoints

section Race
variable {text : TextRules} {ι : Type} [DecidableEq ι]

/-- One call of `CheckpointStore.advance` for the job. -/
structure Request (text : TextRules) where
  checkpoint : Checkpoint text
  runId : Option RunId
  batchId : Option String
  collectorHost : Option String
  now : Instant

/-- How far a transaction has come. -/
inductive Phase (text : TextRules) where
  | waiting
  | read (previous : Option (Checkpoint text))
  | wrote (answer : CheckpointAdvance text)
  | committed (answer : CheckpointAdvance text)

/-- The row of the job as it is committed, the transaction that holds it, the row as
that transaction has written it, and where every transaction stands. -/
structure World (text : TextRules) (ι : Type) where
  row : Option (StoredCheckpoint text)
  holder : Option ι
  written : Option (StoredCheckpoint text)
  phase : ι → Phase text

def start (row : Option (StoredCheckpoint text)) : World text ι where
  row := row
  holder := none
  written := none
  phase _ := .waiting

inductive Action (ι : Type) where
  | read (i : ι)
  | write (i : ι)
  | commit (i : ι)
  deriving DecidableEq, Repr

/-- What a transaction writes over the row that it finds, and what it answers: a refusal
is noted on the row, and an accepted cursor replaces it. -/
def written (request : Request text) (previous : Option (Checkpoint text))
    (row : Option (StoredCheckpoint text)) :
    Option (StoredCheckpoint text) × CheckpointAdvance text :=
  match request.checkpoint.advancesOver previous with
  | some rejection =>
    (row.map fun r =>
      { r with
        lastRejectionCode := some rejection.code
        lastRejectionMessage := some rejection.message
        lastRejectedAt := some request.now },
      { accepted := false
        checkpoint := request.checkpoint
        previous := previous
        rejection := some rejection })
  | none =>
    (some {
        checkpoint := request.checkpoint
        runId := request.runId
        batchId := request.batchId
        collectorHost := request.collectorHost
        advancedAt := request.now },
      { accepted := true
        checkpoint := request.checkpoint
        previous := previous })

variable (requests : ι → Request text)

/-- One statement of a transaction. A row that another transaction holds is waited for, and
only a committed row can be read and held. -/
def step (w : World text ι) : Action ι → Option (World text ι)
  | .read i => match w.phase i with
    | .waiting => match w.row with
      | none => some { w with phase := Function.update w.phase i (.read none) }
      | some r =>
        if w.holder = none then some { w with
          holder := some i
          phase := Function.update w.phase i (.read (some r.checkpoint)) }
        else none
    | _ => none
  | .write i => match w.phase i with
    | .read previous =>
      if w.holder = none ∨ w.holder = some i then
        let result := written (requests i) previous w.row
        some { w with
          holder := some i
          written := result.1
          phase := Function.update w.phase i (.wrote result.2) }
      else none
    | _ => none
  | .commit i => match w.phase i with
    | .wrote answer => some { w with
        row := w.written
        holder := none
        phase := Function.update w.phase i (.committed answer) }
    | _ => none

def run : List (Action ι) → World text ι → Option (World text ι)
  | [], w => some w
  | a :: actions, w => (step requests w a).bind (run actions)

/-! ### What one step does -/

/-- What a step does, by the action that it takes. -/
theorem step_cases {w w' : World text ι} {a : Action ι} (h : step requests w a = some w') :
    (∃ i, a = .read i ∧ w.row = none ∧
      w' = { w with phase := Function.update w.phase i (.read none) }) ∨
    (∃ i r, a = .read i ∧ w.row = some r ∧ w.holder = none ∧
      w' = { w with
        holder := some i
        phase := Function.update w.phase i (.read (some r.checkpoint)) }) ∨
    (∃ i previous, a = .write i ∧ w.phase i = .read previous ∧
      (w.holder = none ∨ w.holder = some i) ∧
      w' = { w with
        holder := some i
        written := (written (requests i) previous w.row).1
        phase := Function.update w.phase i (.wrote (written (requests i) previous w.row).2) }) ∨
    ∃ i answer, a = .commit i ∧ w.phase i = .wrote answer ∧
      w' = { w with
        row := w.written
        holder := none
        phase := Function.update w.phase i (.committed answer) } := by
  cases a with
  | read i =>
    simp only [step] at h
    split at h
    · split at h
      · next hrow => exact Or.inl ⟨i,rfl,hrow,(Option.some.inj h).symm⟩
      · next r hrow =>
        split_ifs at h with hfree
        exact Or.inr (Or.inl ⟨i,r,rfl,hrow,hfree,(Option.some.inj h).symm⟩)
    · cases h
  | write i =>
    simp only [step] at h
    split at h
    · next previous hphase =>
      split_ifs at h with hfree
      exact Or.inr (Or.inr (Or.inl ⟨i,previous,rfl,hphase,hfree,(Option.some.inj h).symm⟩))
    · cases h
  | commit i =>
    simp only [step] at h
    split at h
    · next answer hphase =>
      exact Or.inr (Or.inr (Or.inr ⟨i,answer,rfl,hphase,(Option.some.inj h).symm⟩))
    · cases h

/-- A transaction that had found no row writes where there still is none, or over a row that its
checkpoint advances over. -/
def Meets (w : World text ι) : Action ι → Prop
  | .write i => ∀ r, w.phase i = .read none → w.row = some r →
      (requests i).checkpoint.advancesOver (some r.checkpoint) = none
  | _ => True

/-- Every step of a run meets the condition in the state that it is taken in. -/
def AllMeet : List (Action ι) → World text ι → Prop
  | [], _ => True
  | a :: actions, w => Meets requests w a ∧ ∀ w', step requests w a = some w' → AllMeet actions w'

/-! ### The cursor of an accepted checkpoint -/

/-- Who has read or written the row holds it, what is written follows what is committed, and what
was accepted is followed by it. -/
structure Ordered (w : World text ι) : Prop where
  reading : ∀ i p, w.phase i = .read (some p) →
    w.holder = some i ∧ ∃ r, w.row = some r ∧ r.checkpoint = p
  writing : ∀ i answer, w.phase i = .wrote answer → w.holder = some i ∧
    (∀ r, w.row = some r → ∃ r', w.written = some r' ∧ r.checkpoint.Follows r'.checkpoint) ∧
    (answer.accepted = true → ∃ r', w.written = some r' ∧ r'.checkpoint = (requests i).checkpoint)
  accepted : ∀ i answer, w.phase i = .committed answer → answer.accepted = true →
    ∃ r, w.row = some r ∧ (requests i).checkpoint.Follows r.checkpoint

omit [DecidableEq ι] in
theorem ordered_start (row : Option (StoredCheckpoint text)) :
    Ordered requests (start row : World text ι) where
  reading := by intro i p h; cases h
  writing := by intro i answer h; cases h
  accepted := by intro i answer h; cases h

/-- What is written over a row follows it, when the transaction decided on that row or may. -/
theorem written_follows {request : Request text} {previous : Option (Checkpoint text)}
    {row : Option (StoredCheckpoint text)}
    (hread : ∀ p, previous = some p → ∃ r, row = some r ∧ r.checkpoint = p)
    (hmeets : ∀ r, previous = none → row = some r →
      request.checkpoint.advancesOver (some r.checkpoint) = none) :
    (∀ r, row = some r → ∃ r', (written request previous row).1 = some r' ∧
      r.checkpoint.Follows r'.checkpoint) ∧
    ((written request previous row).2.accepted = true →
      ∃ r', (written request previous row).1 = some r' ∧ r'.checkpoint = request.checkpoint) := by
  unfold written
  cases hadv : request.checkpoint.advancesOver previous with
  | some rejection =>
    constructor
    · intro r hr
      rw [hr]
      exact ⟨_,rfl,Checkpoint.Follows.refl r.checkpoint⟩
    · intro h
      cases h
  | none =>
    constructor
    · intro r hr
      refine ⟨_,rfl,?_⟩
      apply Checkpoint.follows_of_advances
      cases hprevious : previous with
      | none => exact hmeets r hprevious hr
      | some p =>
        obtain ⟨s,hs,hp⟩ := hread p hprevious
        rw [hr] at hs
        rw [Option.some.inj hs, hp, ← hprevious]
        exact hadv
    · intro _
      exact ⟨_,rfl,rfl⟩

/-- A phase after a step is the one that the step left, or another transaction's. -/
theorem phase_update {phase : ι → Phase text} {i j : ι} {p q : Phase text}
    (h : Function.update phase i p j = q) : j = i ∧ p = q ∨ j ≠ i ∧ phase j = q := by
  by_cases hij : j = i
  · subst hij
    rw [Function.update_self] at h
    exact Or.inl ⟨rfl,h⟩
  · rw [Function.update_of_ne hij] at h
    exact Or.inr ⟨hij,h⟩

theorem ordered_step {w w' : World text ι} {a : Action ι} (hw : Ordered requests w)
    (h : step requests w a = some w') (hmeets : Meets requests w a) : Ordered requests w' := by
  obtain ⟨i,rfl,hrow,rfl⟩ | ⟨i,r,rfl,hrow,hfree,rfl⟩ | ⟨i,previous,rfl,hphase,hfree,rfl⟩ |
    ⟨i,answer,rfl,hphase,rfl⟩ := step_cases requests h
  · constructor
    · intro j p hj
      rcases phase_update hj with ⟨-,hp⟩ | ⟨-,hj⟩
      · cases hp
      · exact hw.reading j p hj
    · intro j answer hj
      rcases phase_update hj with ⟨-,hp⟩ | ⟨-,hj⟩
      · cases hp
      · exact hw.writing j answer hj
    · intro j answer hj
      rcases phase_update hj with ⟨-,hp⟩ | ⟨-,hj⟩
      · cases hp
      · exact hw.accepted j answer hj
  · constructor
    · intro j p hj
      rcases phase_update hj with ⟨rfl,hp⟩ | ⟨-,hj⟩
      · cases hp
        exact ⟨rfl,r,hrow,rfl⟩
      · have hheld := (hw.reading j p hj).1
        rw [hfree] at hheld
        cases hheld
    · intro j answer hj
      rcases phase_update hj with ⟨-,hp⟩ | ⟨-,hj⟩
      · cases hp
      · have hheld := (hw.writing j answer hj).1
        rw [hfree] at hheld
        cases hheld
    · intro j answer hj
      rcases phase_update hj with ⟨-,hp⟩ | ⟨-,hj⟩
      · cases hp
      · exact hw.accepted j answer hj
  · -- nobody else holds the row, so nobody else has read or written it
    have hnobody : ∀ j, j ≠ i → w.holder ≠ some j := by
      intro j hj hheld
      rcases hfree with hnone | hown
      · rw [hnone] at hheld
        cases hheld
      · rw [hown] at hheld
        exact hj (Option.some.inj hheld).symm
    constructor
    · intro j p hj
      rcases phase_update hj with ⟨-,hp⟩ | ⟨hij,hj⟩
      · cases hp
      · exact absurd (hw.reading j p hj).1 (hnobody j hij)
    · intro j answer hj
      rcases phase_update hj with ⟨rfl,hp⟩ | ⟨hij,hj⟩
      · cases hp
        refine ⟨rfl,?_⟩
        apply written_follows
        · intro p hp
          exact (hw.reading j p (hp ▸ hphase)).2
        · intro r hp hr
          exact hmeets r (hp ▸ hphase) hr
      · exact absurd (hw.writing j answer hj).1 (hnobody j hij)
    · intro j answer hj
      rcases phase_update hj with ⟨-,hp⟩ | ⟨-,hj⟩
      · cases hp
      · exact hw.accepted j answer hj
  · obtain ⟨hholder,hfollows,hown⟩ := hw.writing i answer hphase
    have hnobody : ∀ j, j ≠ i → w.holder ≠ some j := by
      intro j hj hheld
      rw [hholder] at hheld
      exact hj (Option.some.inj hheld).symm
    constructor
    · intro j p hj
      rcases phase_update hj with ⟨-,hp⟩ | ⟨hij,hj⟩
      · cases hp
      · exact absurd (hw.reading j p hj).1 (hnobody j hij)
    · intro j answer hj
      rcases phase_update hj with ⟨-,hp⟩ | ⟨hij,hj⟩
      · cases hp
      · exact absurd (hw.writing j answer hj).1 (hnobody j hij)
    · intro j answer' hj haccepted
      rcases phase_update hj with ⟨rfl,hp⟩ | ⟨-,hj⟩
      · cases hp
        obtain ⟨r,hr,hcheckpoint⟩ := hown haccepted
        exact ⟨r,hr,hcheckpoint ▸ Checkpoint.Follows.refl _⟩
      · obtain ⟨r,hr,hbehind⟩ := hw.accepted j answer' hj haccepted
        obtain ⟨r',hr',hahead⟩ := hfollows r hr
        exact ⟨r',hr',hbehind.trans hahead⟩

theorem ordered_run {w w' : World text ι} {actions : List (Action ι)} (hw : Ordered requests w)
    (h : run requests actions w = some w') (hmeets : AllMeet requests actions w) :
    Ordered requests w' := by
  induction actions generalizing w with
  | nil =>
    cases h
    exact hw
  | cons a actions ih =>
    obtain ⟨mid,hmid,hrest⟩ := Option.bind_eq_some_iff.mp h
    exact ih (ordered_step requests hw hmid hmeets.1) hrest (hmeets.2 mid hmid)

/-- In every run whose steps all meet the condition, each accepted checkpoint that is committed is
followed by the stored cursor: of one kind with it, and on an ordered scale from the same issuer
and no further on. -/
theorem accepted_not_lost (row : Option (StoredCheckpoint text)) (actions : List (Action ι))
    {w : World text ι} (h : run requests actions (start row) = some w)
    (hmeets : AllMeet requests actions (start row)) (i : ι) (answer : CheckpointAdvance text)
    (hcommitted : w.phase i = .committed answer) (haccepted : answer.accepted = true) :
    ∃ r, w.row = some r ∧ (requests i).checkpoint.Follows r.checkpoint :=
  (ordered_run requests (ordered_start requests row) h hmeets).accepted i answer hcommitted haccepted

/-! ### When a row is there -/

/-- While a row is there, nobody has found none. -/
def Present (w : World text ι) : Prop :=
  w.row.isSome ∧ (∀ i, w.phase i ≠ .read none) ∧
    ∀ i answer, w.phase i = .wrote answer → w.written.isSome

theorem present_step {w w' : World text ι} {a : Action ι} (hw : Present w)
    (h : step requests w a = some w') : Present w' := by
  obtain ⟨hrow,hread,hwrote⟩ := hw
  obtain ⟨i,rfl,hnone,rfl⟩ | ⟨i,r,rfl,hrow',hfree,rfl⟩ | ⟨i,previous,rfl,hphase,hfree,rfl⟩ |
    ⟨i,answer,rfl,hphase,rfl⟩ := step_cases requests h
  · rw [hnone] at hrow
    cases hrow
  · refine ⟨hrow,?_,?_⟩
    · intro j hj
      rcases phase_update hj with ⟨-,hp⟩ | ⟨-,hj⟩
      · cases hp
      · exact hread j hj
    · intro j answer hj
      rcases phase_update hj with ⟨-,hp⟩ | ⟨-,hj⟩
      · cases hp
      · exact hwrote j answer hj
  · have hwritten : (written (requests i) previous w.row).1.isSome = true := by
      unfold written
      split
      · simpa using hrow
      · rfl
    refine ⟨hrow,?_,fun j answer _ => hwritten⟩
    intro j hj
    rcases phase_update hj with ⟨-,hp⟩ | ⟨-,hj⟩
    · cases hp
    · exact hread j hj
  · refine ⟨hwrote i answer hphase,?_,?_⟩
    · intro j hj
      rcases phase_update hj with ⟨-,hp⟩ | ⟨-,hj⟩
      · cases hp
      · exact hread j hj
    · intro j answer' hj
      rcases phase_update hj with ⟨-,hp⟩ | ⟨-,hj⟩
      · cases hp
      · exact hwrote j answer' hj

/-- From a row that is there every run meets the condition. -/
theorem present_meets {w : World text ι} (hw : Present w) (actions : List (Action ι)) :
    AllMeet requests actions w := by
  induction actions generalizing w with
  | nil => exact trivial
  | cons a actions ih =>
    refine ⟨?_,fun w' h => ih (present_step requests hw h)⟩
    cases a with
    | write i => exact fun r hphase _ => absurd hphase (hw.2.1 i)
    | read i => exact trivial
    | commit i => exact trivial

/-! ### A transaction alone -/

theorem written_advance (key : JobKey) (request : Request text)
    (t : KeyedTable JobKey (StoredCheckpoint text)) :
    written request ((t.get? key).map (·.checkpoint)) (t.get? key) =
      ((advance key request.checkpoint request.runId request.batchId request.collectorHost
          request.now t).1.get? key,
        (advance key request.checkpoint request.runId request.batchId request.collectorHost
          request.now t).2) := by
  cases hadv : request.checkpoint.advancesOver ((t.get? key).map (·.checkpoint)) with
  | some rejection =>
    simp only [written, advance, hadv, recordRejection, KeyedTable.get?_update, decide_true, if_true]
  | none =>
    simp only [written, advance, hadv, KeyedTable.get?_upsert, if_true]
    cases t.get? key <;> rfl

/-- One transaction with the row to itself. -/
theorem run_alone (i : ι) (row : Option (StoredCheckpoint text)) :
    ∃ w, run requests [.read i, .write i, .commit i] (start row) = some w ∧
      w.row = (written (requests i) (row.map (·.checkpoint)) row).1 ∧
      w.phase i = .committed (written (requests i) (row.map (·.checkpoint)) row).2 := by
  cases row with
  | none => exact ⟨_,by simp [run, step, start]; rfl,rfl,by simp⟩
  | some r => exact ⟨_,by simp [run, step, start]; rfl,rfl,by simp⟩

/-- It does what `advance` does to the row of its job. -/
theorem alone_advances (key : JobKey) (i : ι) (t : KeyedTable JobKey (StoredCheckpoint text)) :
    ∃ w, run requests [.read i, .write i, .commit i] (start (t.get? key)) = some w ∧
      w.row = (advance key (requests i).checkpoint (requests i).runId (requests i).batchId
        (requests i).collectorHost (requests i).now t).1.get? key ∧
      w.phase i = .committed (advance key (requests i).checkpoint (requests i).runId
        (requests i).batchId (requests i).collectorHost (requests i).now t).2 := by
  obtain ⟨w,hrun,hrow,hphase⟩ := run_alone requests i (t.get? key)
  rw [written_advance key] at hrow hphase
  exact ⟨w,hrun,hrow,hphase⟩

end Race

/-! ### Two batches of one job -/

def usn (token : String) (h : postInit asciiText .usn token "dc01|1" = .ok ()) :
    Checkpoint asciiText := ⟨.usn,token,"dc01|1",0,h⟩

theorem usn100_valid : postInit asciiText .usn "100" "dc01|1" = .ok () := by decide +kernel
theorem usn200_valid : postInit asciiText .usn "200" "dc01|1" = .ok () := by decide +kernel

/-- The first batch carries 100 and the second one 200. -/
def twoBatches (second : Bool) : Request asciiText where
  checkpoint := if second then usn "200" usn200_valid else usn "100" usn100_valid
  runId := none
  batchId := none
  collectorHost := none
  now := 0

def inTurn : List (Action Bool) :=
  [.read false, .write false, .commit false, .read true, .write true, .commit true]

/-- Both read before either writes. -/
def overlapping : List (Action Bool) :=
  [.read false, .read true, .write true, .commit true, .write false, .commit false]

/-- The answer of a transaction in a state. -/
def answerOf (w : World asciiText Bool) (i : Bool) : Option (CheckpointAdvance asciiText) :=
  match w.phase i with
  | .committed answer => some answer
  | _ => none

theorem committed_of_answer {w : World asciiText Bool} {i : Bool}
    (h : ((answerOf w i).map (·.accepted)) = some true) :
    ∃ answer, w.phase i = .committed answer ∧ answer.accepted = true := by
  unfold answerOf at h
  split at h
  · next answer hphase => exact ⟨answer,hphase,Option.some.inj h⟩
  · cases h

theorem in_turn_meets : AllMeet twoBatches inTurn (start none) := by
  refine ⟨trivial,?_⟩
  intro w h
  cases h
  refine ⟨fun r _ hrow => absurd hrow (by simp [start]),?_⟩
  intro w h
  cases h
  refine ⟨trivial,?_⟩
  intro w h
  cases h
  refine ⟨trivial,?_⟩
  intro w h
  cases h
  refine ⟨fun r hphase _ => absurd hphase (by simp [start]),?_⟩
  intro w h
  cases h
  exact ⟨trivial,fun _ _ => trivial⟩

/-- One after the other, both are accepted and the cursor follows both. -/
theorem in_turn_kept : ∃ w, run twoBatches inTurn (start none) = some w ∧ ∀ i,
    ∃ r, w.row = some r ∧ (twoBatches i).checkpoint.Follows r.checkpoint := by
  obtain ⟨w,hrun⟩ : ∃ w, run twoBatches inTurn (start none) = some w := ⟨_,rfl⟩
  refine ⟨w,hrun,?_⟩
  intro i
  have hanswer : ((run twoBatches inTurn (start none)).bind fun w =>
      (answerOf w i).map (·.accepted)) = some true := by
    cases i <;> decide +kernel
  rw [hrun] at hanswer
  obtain ⟨answer,hcommitted,haccepted⟩ := committed_of_answer hanswer
  exact accepted_not_lost twoBatches none inTurn hrun in_turn_meets i answer hcommitted haccepted

/-- No row is there to be locked: both find none, both are accepted, and the later write leaves the
lower cursor. -/
theorem lower_cursor_left : ¬ ∀ (requests : Bool → Request asciiText)
    (row : Option (StoredCheckpoint asciiText)) (actions : List (Action Bool))
    (w : World asciiText Bool),
    (∀ i j, (requests i).checkpoint.comparableTo (requests j).checkpoint = true) →
      run requests actions (start row) = some w → ∀ i answer, w.phase i = .committed answer →
        answer.accepted = true →
          ∃ r, w.row = some r ∧ (requests i).checkpoint.Follows r.checkpoint := by
  intro hclaim
  obtain ⟨w,hrun⟩ : ∃ w, run twoBatches overlapping (start none) = some w := ⟨_,rfl⟩
  have hanswer : ((run twoBatches overlapping (start none)).bind fun w =>
      (answerOf w true).map (·.accepted)) = some true := by decide +kernel
  have hcursor : ((run twoBatches overlapping (start none)).bind fun w =>
      w.row.bind fun r => r.checkpoint.orderingValue) = some 100 := by decide +kernel
  rw [hrun] at hanswer hcursor
  obtain ⟨answer,hcommitted,haccepted⟩ := committed_of_answer hanswer
  have hcomparable : ∀ i j,
      (twoBatches i).checkpoint.comparableTo (twoBatches j).checkpoint = true := by decide +kernel
  obtain ⟨r,hr,hfollows⟩ := hclaim twoBatches none overlapping w hcomparable hrun true answer
    hcommitted haccepted
  have hordered : (twoBatches true).checkpoint.kind.isOrdered = true := by decide
  obtain ⟨-,a,b,ha,hb,hab⟩ := hfollows.2 hordered
  have ha200 : (twoBatches true).checkpoint.orderingValue = some 200 := by decide +kernel
  rw [ha200] at ha
  have hcursor' : w.row.bind (fun r => r.checkpoint.orderingValue) = some 100 := hcursor
  rw [hr] at hcursor'
  have hb100 : some b = some 100 := hb.symm.trans hcursor'
  have ha' := Option.some.inj ha
  have hb' := Option.some.inj hb100
  omega

end Adg.CheckpointRaces
