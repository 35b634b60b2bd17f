import Adg.Fallible
import Adg.FinishedRun
import Adg.ResumeCursor

/-!
# A completion that is sent again

A run that is finished answers a completion from what it stored, or refuses it. It
refuses one whose status comes out otherwise, and compares nothing else.
-/

set_option autoImplicit false

namespace Adg.CompletionReplays
open Adg.ObjectVersions Adg.KeyedTables Adg.ScanRuns Adg.Checkpoints Adg.HistorySteps
open Adg.ResumeCursor
open Adg.Fallible (bind_ok)

section Replays
variable {text : TextRules} {hash : State → String} {s s' s'' : Server text}
  {first second : ScanRunCompletion text} {run : ScanRun} {now now' : Instant}

/-- Two completions that state the same: status, reconciled scopes, counts, errors and
checkpoint. -/
structure SameStatement (first second : ScanRunCompletion text) : Prop where
  status : second.status = first.status
  scopes : second.reconciledScopes.Perm first.reconciledScopes
  batches : second.batchCount = first.batchCount
  observations : second.observationCount = first.observationCount
  affirmations : second.affirmationCount = first.affirmationCount
  errorCount : second.errorCount = first.errorCount
  errors : second.errors.Perm first.errors
  checkpoint : second.checkpoint = first.checkpoint

/-- `IngestionConflict`. -/
def Conflict : IngestionError → Prop
  | .undeclaredScopes _ | .incrementalReconciles | .outcomeRevised _ _ => True
  | _ => False

/-- What a completion answers the second time: what it answered the first time, to the same
statement, or a conflict. It changes nothing either way. -/
def Answered (hash : State → String) (s : Server text) (first second : ScanRunCompletion text)
    (answer : CompletionOutcome text) (now : Instant) : Prop :=
  deliver hash s (.completion now second) = s ∧
    match completeRun now second s with
    | .error e => Conflict e
    | .ok (_,again) => again.alreadyCompleted = true ∧ again.status = answer.status ∧
        again.reconciledScopes = answer.reconciledScopes ∧
        again.downgradeReason = answer.downgradeReason ∧ SameStatement first second

/-- The run as a completion left it, but for what late batches have added to its counts. -/
def StillFinished (runId : RunId) (s s' : Server text) : Prop :=
  ∃ run run', s.runs.get? runId = some run ∧ s'.runs.get? runId = some run' ∧
    run'.status = run.status ∧ run'.declared = run.declared ∧ run'.mode = run.mode ∧
    run'.downgradeReason = run.downgradeReason

/-- The completion cannot be the recorded one: it reconciles where the run did not declare to
or was not to, or its status comes out otherwise. -/
def Refused (run : ScanRun) (c : ScanRunCompletion text) : Prop :=
  (∃ scope ∈ c.reconciledScopes, scope ∉ run.declared) ∨
    (c.reconciledScopes ≠ [] ∧ run.mode.isIncremental = true) ∨
    (resolveStatus c run.batchCountReceived).1 ≠ run.status

theorem undeclared_iff {c : ScanRunCompletion text} :
    c.reconciledScopes.filter (¬ run.declares ·) ≠ [] ↔
      ∃ scope ∈ c.reconciledScopes, scope ∉ run.declared := by
  unfold ScanRun.declares
  simp [List.filter_eq_nil_iff]

/-- A finished run refuses, or answers from its row. -/
theorem finished_answers (now : Instant) (hrun : s.runs.get? second.runId = some run)
    (hfinished : run.status.isTerminal = true) :
    (Refused run second ∧ ∃ e, completeRun now second s = .error e ∧ Conflict e) ∨
      (¬ Refused run second ∧ ∃ again, completeRun now second s = .ok (s,again) ∧
        again.alreadyCompleted = true ∧ again.status = run.status ∧
        again.downgradeReason = run.downgradeReason ∧
        again.reconciledScopes = if (resolveStatus second run.batchCountReceived).2.isSome then 0
          else second.reconciledScopes.length) := by
  unfold completeRun
  rw [hrun]
  dsimp only
  by_cases hundeclared : second.reconciledScopes.filter (¬ run.declares ·) ≠ []
  · rw [if_pos hundeclared]
    exact .inl ⟨.inl (undeclared_iff.mp hundeclared),_,rfl,trivial⟩
  rw [if_neg hundeclared]
  by_cases hincremental : second.reconciledScopes ≠ [] ∧ run.mode.isIncremental = true
  · rw [if_pos hincremental]
    exact .inl ⟨.inr (.inl hincremental),_,rfl,trivial⟩
  rw [if_neg hincremental, if_pos hfinished]
  by_cases hstatus : run.status ≠ (resolveStatus second run.batchCountReceived).1
  · rw [if_pos hstatus]
    exact .inl ⟨.inr (.inr hstatus.symm),_,rfl,trivial⟩
  · rw [if_neg hstatus]
    rw [ne_eq, not_not] at hstatus
    refine .inr ⟨?_,_,rfl,rfl,hstatus.symm,rfl,?_⟩
    · rintro (hscope | hscopes | hother)
      · exact hundeclared (undeclared_iff.mpr hscope)
      · exact hincremental hscopes
      · exact hother hstatus.symm
    · split_ifs <;> rfl

/-- What a completion that is recorded leaves and answers. -/
theorem recorded_row {answer : CompletionOutcome text}
    (h : completeRun now first s = .ok (s',answer)) (hrecorded : answer.alreadyCompleted = false) :
    ∃ run row, s.runs.get? first.runId = some run ∧ s'.runs.get? first.runId = some row ∧
      row.status = (resolveStatus first run.batchCountReceived).1 ∧
      row.downgradeReason = (resolveStatus first run.batchCountReceived).2 ∧
      answer.status = row.status ∧ answer.downgradeReason = row.downgradeReason ∧
      answer.reconciledScopes = if row.downgradeReason.isSome then 0
        else first.reconciledScopes.length := by
  unfold completeRun at h
  cases hrun : s.runs.get? first.runId with
  | none =>
    rw [hrun] at h
    cases h
  | some run =>
    rw [hrun] at h
    dsimp only at h
    split at h
    · cases h
    split at h
    · cases h
    split at h
    · split at h
      · cases h
      · obtain ⟨-,rfl⟩ := Prod.mk.inj (Except.ok.inj h)
        cases hrecorded
    split at h
    · cases h
    obtain ⟨⟨s1,moved⟩,hadvance,h⟩ := bind_ok.mp h
    obtain ⟨⟨db,closures⟩,-,h⟩ := bind_ok.mp h
    obtain ⟨rfl,rfl⟩ := Prod.mk.inj (Except.ok.inj h)
    obtain ⟨⟨-,hruns,-⟩,-⟩ := advanceCheckpoint_ok hadvance
    refine ⟨run,closeRun first (resolveStatus first run.batchCountReceived).1
      (resolveStatus first run.batchCountReceived).2
      (if (resolveStatus first run.batchCountReceived).2.isSome then []
        else first.reconciledScopes) run,rfl,?_,rfl,rfl,rfl,rfl,?_⟩
    · show s1.runs.get? first.runId = _
      rw [hruns, KeyedTable.get?_update, hrun, Option.map_some, if_pos (decide_eq_true rfl)]
    · unfold closeRun
      dsimp only
      split_ifs <;> rfl

theorem status_terminal (c : ScanRunCompletion text) (n : ℕ) :
    (resolveStatus c n).1.isTerminal = true := by
  unfold resolveStatus
  split_ifs
  · rfl
  · exact c.terminal

/-- Deliveries leave a finished run as it is. -/
theorem stillFinished_deliverAll (hash : State → String) {runId : RunId} {row : ScanRun}
    (hrow : s.runs.get? runId = some row) (hfinished : row.status.isTerminal = true)
    (ds : List (Delivery text)) : StillFinished runId s (deliverAll hash s ds) := by
  have hkept : ∀ s' : Server text, s'.runs.get? runId = some row →
      (deliverAll hash s' ds).runs.get? runId = some row := by
    induction ds with
    | nil => exact fun s' h => h
    | cons d ds ih => exact fun s' h => ih (deliver hash s' d) (finished_kept hash d h hfinished)
  exact ⟨row,row,hrow,hkept s hrow,rfl,rfl,rfl,rfl⟩

/-- Statements that are the same and come to one status are taken the same way. -/
theorem same_downgraded {n m : ℕ} (hsame : SameStatement first second)
    (hstatus : (resolveStatus second m).1 = (resolveStatus first n).1) :
    (resolveStatus second m).2.isSome = (resolveStatus first n).2.isSome := by
  unfold resolveStatus at hstatus ⊢
  rw [hsame.status, hsame.batches] at hstatus ⊢
  by_cases hshort : first.status = .succeeded ∧ m < first.batchCount
  · by_cases hshort' : first.status = .succeeded ∧ n < first.batchCount
    · rw [if_pos hshort, if_pos hshort']
      rfl
    · rw [if_pos hshort, if_neg hshort', hshort.1] at hstatus
      cases hstatus
  · by_cases hshort' : first.status = .succeeded ∧ n < first.batchCount
    · rw [if_neg hshort, if_pos hshort', hshort'.1] at hstatus
      cases hstatus
    · rw [if_neg hshort, if_neg hshort']

theorem deliver_completion (hash : State → String) (s : Server text) :
    deliver hash s (.completion now second) =
      match completeRun now second s with
      | .error _ => s
      | .ok (s',_) => s' := by
  unfold deliver Delivery.perform
  dsimp only
  cases completeRun now second s <;> rfl

/-- A completion that is sent again is answered as it should be when it states the same or is
one that a finished run refuses. -/
theorem replayed_iff (hash : State → String) {answer : CompletionOutcome text} {row : ScanRun}
    (hfirst : completeRun now first s = .ok (s',answer))
    (hrecorded : answer.alreadyCompleted = false) (hafter : StillFinished first.runId s' s'')
    (hrun : second.runId = first.runId) (hrow : s''.runs.get? first.runId = some row) :
    Answered hash s'' first second answer now' ↔ SameStatement first second ∨ Refused row second := by
  obtain ⟨run,stored,-,hstored,hstatus,hreason,hanswer,hdowngrade,hscopes⟩ :=
    recorded_row hfirst hrecorded
  obtain ⟨before,after,hbefore,hlater,hsame,-,-,hkept⟩ := hafter
  obtain rfl : before = stored := Option.some.inj (hbefore.symm.trans hstored)
  obtain rfl : after = row := Option.some.inj (hlater.symm.trans hrow)
  have hfinished : after.status.isTerminal = true := by
    rw [hsame, hstatus]
    exact status_terminal first run.batchCountReceived
  rw [← hrun] at hrow
  rcases finished_answers now' hrow hfinished with ⟨hrefused,e,he,hconflict⟩ |
    ⟨hadmitted,again,hagain,halready,hagainStatus,hagainReason,hagainScopes⟩
  · refine iff_of_true ⟨?_,?_⟩ (.inr hrefused)
    · rw [deliver_completion, he]
    · rw [he]
      exact hconflict
  · have hunchanged : deliver hash s'' (.completion now' second) = s'' := by
      rw [deliver_completion, hagain]
    unfold Answered
    rw [hagain]
    dsimp only
    constructor
    · rintro ⟨-,-,-,-,-,hstatement⟩
      exact .inl hstatement
    · rintro (hstatement | hrefused)
      · refine ⟨hunchanged,halready,?_,?_,?_,hstatement⟩
        · rw [hagainStatus, hanswer, hsame]
        · have hstatuses : (resolveStatus second after.batchCountReceived).1 =
              (resolveStatus first run.batchCountReceived).1 := by
            by_contra hno
            rw [← hstatus, ← hsame] at hno
            exact hadmitted (.inr (.inr hno))
          rw [hagainScopes, hscopes, hreason, same_downgraded hstatement hstatuses,
            hstatement.scopes.length_eq]
        · rw [hagainReason, hdowngrade, hkept]
      · exact absurd hrefused hadmitted

end Replays

namespace Sample

def opening : ScanRunStart asciiText where
  runId := "run"
  source := { collector := .smb, collectorHost := "collector", method := "smb" }
  startedAt := 2
  scopes := [(.server,"fs01")]

/-- A server with one open run. -/
def opened : Server asciiText := deliverAll (fun _ => "") {} [.start opening]

def first : ScanRunCompletion asciiText := FinishedRun.reporting 0

/-- The same completion, but for how many observations were sent. -/
def recounted : ScanRunCompletion asciiText := { first with observationCount := 7 }

theorem recorded : ∃ s' answer, completeRun 9 first opened = .ok (s',answer) ∧
    answer.alreadyCompleted = false := by
  have hok : ((completeRun 9 first opened).toOption.map fun p => p.2.alreadyCompleted) =
      some false := by decide +kernel
  obtain ⟨⟨s',answer⟩,hp,hrecorded⟩ := Option.map_eq_some_iff.mp hok
  exact ⟨s',answer,Fallible.toOption_some.mp hp,hrecorded⟩

end Sample

/-- The completion itself, sent again, is answered as it was. -/
theorem replayed_same : ∃ s' answer, completeRun 9 Sample.first Sample.opened = .ok (s',answer) ∧
    Answered (fun _ => "") s' Sample.first Sample.first answer 10 := by
  obtain ⟨s',answer,hfirst,hrecorded⟩ := Sample.recorded
  obtain ⟨run,row,-,hrow,hstatus,-⟩ := recorded_row hfirst hrecorded
  have hfinished : row.status.isTerminal = true := by
    rw [hstatus]
    exact status_terminal Sample.first run.batchCountReceived
  have hsame : SameStatement Sample.first Sample.first :=
    ⟨rfl,.refl _,rfl,rfl,rfl,rfl,.refl _,rfl⟩
  exact ⟨s',answer,hfirst,(replayed_iff (fun _ => "") hfirst hrecorded
    (stillFinished_deliverAll (fun _ => "") hrow hfinished []) rfl hrow).mpr (.inl hsame)⟩

/-- Another count of observations is acknowledged as the completion that was recorded. -/
theorem recount_acknowledged : ∃ s' answer,
    completeRun 9 Sample.first Sample.opened = .ok (s',answer) ∧
      answer.alreadyCompleted = false ∧
      ¬ Answered (fun _ => "") s' Sample.first Sample.recounted answer 10 := by
  have hboth : ((completeRun 9 Sample.first Sample.opened).toOption.bind fun p =>
      (completeRun 10 Sample.recounted p.1).toOption.map fun q =>
        (p.2.alreadyCompleted,q.2.alreadyCompleted)) = some (false,true) := by decide +kernel
  obtain ⟨⟨s',answer⟩,hp,hq⟩ := Option.bind_eq_some_iff.mp hboth
  obtain ⟨⟨s'',again⟩,hagain,hflags⟩ := Option.map_eq_some_iff.mp hq
  refine ⟨s',answer,Fallible.toOption_some.mp hp,(Prod.mk.inj hflags).1,?_⟩
  rintro ⟨-,hanswered⟩
  rw [Fallible.toOption_some.mp hagain] at hanswered
  have hcount := hanswered.2.2.2.2.observations
  revert hcount
  decide

end Adg.CompletionReplays
