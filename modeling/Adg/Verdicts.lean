import Adg.AccessResolver

/-!
# Four outcomes of one answer

A boolean would not say why nothing is held. The verdict tells a deny from
the absence of a grant, and both from an answer the evidence does not support.
-/

set_option autoImplicit false

namespace Adg.Verdicts
open Adg.Observation Adg.RightsAlgebra Adg.AccessConditions Adg.AccessSubjects Adg.Evaluation
open Adg.AccessResolver

inductive AccessOutcome where
  | granted
  | denied
  | noGrant
  | indeterminate
  deriving DecidableEq, Repr

/-- `UNDERSTATING_CERTAINTIES`. -/
def understatingCertainties : List AccessCertainty := [.atLeast, .uncertain]

/-- `OUTCOME_DESCRIPTIONS`. -/
def describeOutcome : AccessOutcome → String
  | .granted => "This identity holds rights on this object."
  | .denied => "This identity holds no rights here because a Deny entry withheld them. The Deny is on an ACL and can be found, changed, or relied upon."
  | .noGrant => "This identity holds no rights here and nothing denied any. No entry on either ACL names it with anything to give."
  | .indeterminate => "No rights were established, and what ADG has collected is incomplete in a way that could hide a grant. This is not a finding of no access; it is a gap in collection, and the answer must not be read as a negative."

/-- `_NO_GRANT_BETWEEN_LAYERS`, by whether each layer granted something. -/
def noGrantBetweenLayers (ntfs share : Bool) : String :=
  match ntfs, share with
  | true, false => "This identity holds no rights here and nothing denied any. The NTFS permissions grant it rights, but the share permissions give it none, so nothing survives both layers."
  | false, true => "This identity holds no rights here and nothing denied any. The share permissions grant it rights, but the NTFS permissions give it none, so nothing survives both layers."
  | _, _ => "This identity holds no rights here and nothing denied any. The NTFS and share permissions each grant it rights, but no right is granted by both, so nothing survives the intersection."

/-- `_UNSETTLED_SYSTEM`. -/
def unsettledSystem : AccessOutcome → SystemMapping → Option String
  | .granted, .ambiguous => some "Rights survive, but only through SIDs every network session is assumed to carry. Over a share SYSTEM is the computer account of whichever machine it runs on, and nothing in this question says which."
  | .granted, .missing => some "Rights survive, but no collector has described S-1-5-18, so which identity holds them is not confirmed."
  | .granted, .conflicting => some "Rights survive, but a collector's description of S-1-5-18 contradicts what Windows defines it to be, so which identity holds them is disputed."
  | .indeterminate, .confirmed => some "No rights were established, and this is not a finding of no access. This is the host's own LocalSystem account, and its token carries groups, BUILTIN\\Administrators among them, that this answer does not apply."
  | .indeterminate, .ambiguous => some "No rights were established, and this is not a finding of no access. Over a share SYSTEM is the computer account of whichever machine it runs on, and nothing in this question says which."
  | .indeterminate, .missing => some "No rights were established, and this is not a finding of no access. No collector has described S-1-5-18, so which identity this question is about is unknown."
  | .indeterminate, .conflicting => some "No rights were established, and this is not a finding of no access. A collector's description of S-1-5-18 contradicts what Windows defines it to be."
  | _, _ => none

/-- The sentence of a verdict where no mapping of SYSTEM has one of its own. -/
def describeLayers (outcome : AccessOutcome) (access : EffectiveAccess) : String :=
  let ntfs := !access.ntfs.rights.isEmpty
  let share := access.share.any fun ev => !ev.rights.isEmpty
  if outcome = .noGrant && (ntfs || share) then noGrantBetweenLayers ntfs share
  else describeOutcome outcome

/-- `describe_verdict`. -/
def describeVerdict (outcome : AccessOutcome) (access : EffectiveAccess) : String :=
  match access.token.systemMapping.bind (unsettledSystem outcome) with
  | some specific => specific
  | none => describeLayers outcome access

structure AccessVerdict where
  outcome : AccessOutcome
  certainty : AccessCertainty
  reason : String
  denials : List AppliedAce := []

/-- `_denials`: the denies that withheld something, the file system's first. -/
def denialsOf (access : EffectiveAccess) : List AppliedAce :=
  access.ntfs.deniedBy ++ (access.share.map (·.deniedBy)).getD []

/-- The outcome by its precedence. -/
def outcomeOf (access : EffectiveAccess) : AccessOutcome :=
  if access.hasAccess then .granted
  else if access.certainty ∈ understatingCertainties then .indeterminate
  else if !(denialsOf access).isEmpty then .denied
  else .noGrant

/-- `classify_access`. -/
def classifyAccess (access : EffectiveAccess) : AccessVerdict where
  outcome := outcomeOf access
  certainty := access.certainty
  reason := describeVerdict (outcomeOf access) access
  denials := denialsOf access

/-- An answer called denied holds nothing, on evidence that hides no grant. -/
theorem denied_iff (access : EffectiveAccess) :
    (classifyAccess access).outcome = .denied ↔ access.hasAccess = false ∧
      access.certainty ∉ understatingCertainties ∧ denialsOf access ≠ [] := by
  show outcomeOf access = .denied ↔ _
  unfold outcomeOf
  by_cases hheld : access.hasAccess = true
  · simp [hheld]
  · by_cases hhides : access.certainty ∈ understatingCertainties
    · simp [hheld, hhides]
    · simp [hheld, hhides]

/-- What does not leave an answer open in the direction that hides grants. -/
theorem certain_hides_nothing {findings : List AccessFinding}
    (h : certaintyOf findings ∉ understatingCertainties) :
    ∀ f ∈ findings, f.mayUnderstate = false := by
  intro f hf
  by_contra hno
  apply h
  have hunder : findings.any (·.mayUnderstate) = true :=
    List.any_eq_true.mpr ⟨f,hf,by simpa using hno⟩
  unfold certaintyOf understatingCertainties
  rw [hunder]
  cases findings.any (·.condition = .indeterminateRights) <;>
    cases findings.any (·.mayOverstate) <;> simp

end Adg.Verdicts
