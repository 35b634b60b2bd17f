import Adg.FirstMatch

/-!
# Crossing the two layers

`resolveAccess` evaluates the file-system DACL, evaluates the share ACL when
there is one in the way, intersects the two and folds every finding into the
direction the answer may be wrong in.
-/

set_option autoImplicit false

namespace Adg.AccessResolver
open Adg.Observation Adg.AccessConditions Adg.RightsAlgebra Adg.AccessSubjects Adg.Evaluation
open Adg.FirstMatch

inductive AclProvenance where
  | observed
  | derived
  | unobserved
  deriving DecidableEq, Repr

inductive LimitingLayer where
  | none
  | smbShare
  | ntfs
  | both
  | unknown
  deriving DecidableEq, Repr

inductive AccessCertainty where
  | certain
  | atMost
  | atLeast
  | uncertain
  deriving DecidableEq, Repr

/-- Both directions at once do not cancel. -/
def certaintyOf (findings : List AccessFinding) : AccessCertainty :=
  if findings.any (·.condition = .indeterminateRights) then .uncertain
  else if findings.any (·.mayOverstate) && findings.any (·.mayUnderstate) then .uncertain
  else if findings.any (·.mayOverstate) then .atMost
  else if findings.any (·.mayUnderstate) then .atLeast
  else .certain

theorem certaintyOf_atLeast (findings : List AccessFinding) :
    certaintyOf findings = .atLeast ↔
      (∀ f ∈ findings, f.condition ≠ .indeterminateRights) ∧
      (∀ f ∈ findings, f.mayOverstate = false) ∧ ∃ f ∈ findings, f.mayUnderstate = true := by
  have hi : (∀ f ∈ findings, f.condition ≠ .indeterminateRights) ↔
      findings.any (·.condition = .indeterminateRights) = false := by simp
  have ho : (∀ f ∈ findings, f.mayOverstate = false) ↔
      findings.any (·.mayOverstate) = false := by simp
  have hu : (∃ f ∈ findings, f.mayUnderstate = true) ↔
      findings.any (·.mayUnderstate) = true := by simp
  rw [hi, ho, hu]
  unfold certaintyOf
  cases findings.any (·.condition = .indeterminateRights) <;>
    cases findings.any (·.mayOverstate) <;> cases findings.any (·.mayUnderstate) <;> simp

/-- One object's DACL. The last four fields are what `__post_init__` checks
and what it fills in. -/
structure ResourceDacl where
  resourceKey : String
  entries : List AclEntry := []
  daclPresent : Bool := true
  daclProtected : Bool := false
  ownerSid : Option String := none
  ownerKey : Option String := none
  declaredAceCount : Option ℕ := none
  provenance : AclProvenance := .observed
  derivedFrom : Option String := none
  derivedDistance : Option ℕ := none
  key_ne : resourceKey ≠ "" := by decide
  derived_iff : provenance = .derived ↔ derivedFrom ≠ none := by decide
  null_observed : daclPresent = false → provenance ≠ .unobserved := by decide
  owner_keyed : ownerSid ≠ none → ownerKey ≠ none := by decide

/-- A DACL that was read whole, with no owner on record. -/
def ResourceDacl.stored (resourceKey : String) (entries : List AclEntry) (h : resourceKey ≠ "") :
    ResourceDacl where
  resourceKey := resourceKey
  entries := entries
  key_ne := h
  owner_keyed := unownedPresentDacl.owner_keyed

def ResourceDacl.facts (r : ResourceDacl) : DaclFacts where
  daclPresent := r.daclPresent
  daclProtected := r.daclProtected
  ownerSid := r.ownerSid
  ownerKey := r.ownerKey
  declaredAceCount := r.declaredAceCount
  owner_keyed := r.owner_keyed

structure ShareDacl where
  shareKey : String
  entries : List AclEntry := []
  observed : Bool := true
  key_ne : shareKey ≠ "" := by decide
  unread_empty : observed = false → entries = [] := by decide

structure EffectiveAccess where
  token : SubjectToken
  resourceKey : String
  shareKey : Option String
  path : AccessPath
  rights : RightsMask
  ntfs : AclEvaluation
  share : Option AclEvaluation
  crossed : Option EffectiveRights
  provenance : AclProvenance
  limitingLayer : LimitingLayer
  certainty : AccessCertainty
  findings : List AccessFinding

def EffectiveAccess.hasAccess (a : EffectiveAccess) : Bool := !a.rights.isEmpty

/-- `_limiting_layer`. -/
def limitingLayerOf (crossed : EffectiveRights) : LimitingLayer :=
  if crossed.limitedByShare && crossed.limitedByNtfs then .both
  else if crossed.limitedByShare then .smbShare
  else if crossed.limitedByNtfs then .ntfs
  else .none

/-- `_ntfs_findings`: an unread descriptor was not observed to be empty. -/
def ntfsFindings (ntfs : AclEvaluation) (resource : ResourceDacl) : List AccessFinding :=
  if resource.provenance = .unobserved then
    ntfs.findings.filter (·.condition ≠ .emptyDacl)
  else ntfs.findings

/-- `_provenance_findings`. -/
def provenanceFindings (resource : ResourceDacl) : List AccessFinding :=
  match resource.provenance with
  | .observed => []
  | .unobserved =>
    [{ condition := .ntfsAclNotObserved
       detail := [("resource_key", .text resource.resourceKey)] }]
  | .derived =>
    { condition := .ntfsAclDerived
      detail := [("resource_key", .text resource.resourceKey),
        ("derived_from", .optional resource.derivedFrom),
        ("distance", match resource.derivedDistance with
          | none => .absent
          | some distance => .number distance)] } ::
    (match resource.derivedDistance with
      | none => []
      | some distance =>
        if 1 < distance then
          [{ condition := .intermediatePathUnobserved
             detail := [("resource_key", .text resource.resourceKey),
               ("derived_from", .optional resource.derivedFrom),
               ("unobserved_levels", .number (distance-1))] }]
        else [])

def escalationFindings (rights : RightsMask) : List AccessFinding :=
  if rights.escalationRights ≠ 0 then
    [{ condition := .escalationRights
       detail := [("rights", .text (toString rights.escalationRights.toNat)),
         ("mask", .text (hex8 rights.value))] }]
  else []

/-- The share side of a resolution, once the file-system side is known. -/
structure Crossing where
  rights : RightsMask
  share : Option AclEvaluation := none
  crossed : Option EffectiveRights := none
  limiting : LimitingLayer
  findings : List AccessFinding := []

/-- A share ACL that was read: evaluate it and intersect. -/
def crossObserved (ntfs : AclEvaluation) (token : SubjectToken) (share : ShareDacl) :
    Except DomainError Crossing := do
  let evaluation ← evaluateAcl share.entries token .smbShare unownedPresentDacl
  let crossed ← effectiveRights ntfs.rights token.accessPath (some evaluation.rights)
  return {
    rights := crossed.rights
    share := some evaluation
    crossed := some crossed
    limiting := limitingLayerOf crossed
    findings := evaluation.findings }

def crossShare (ntfs : AclEvaluation) (token : SubjectToken) :
    Option ShareDacl → Except DomainError Crossing
  | none => do
    let crossed ← effectiveRights ntfs.rights token.accessPath none
    return { rights := crossed.rights, crossed := some crossed, limiting := .ntfs }
  | some share =>
    if share.observed then crossObserved ntfs token share
    else .ok
      { rights := ⟨ntfs.rights.expandGenerics.value,.effective⟩
        limiting := .unknown
        findings := [{ condition := .shareAclNotObserved
                       detail := [("share_key", .text share.shareKey)] }] }

theorem crossShare_observed {share : ShareDacl} (ntfs : AclEvaluation) (token : SubjectToken)
    (h : share.observed = true) :
    crossShare ntfs token (some share) = crossObserved ntfs token share := by
  simp [crossShare, h]

/-- Every finding of a resolution, in the order they are collected. -/
def collectedFindings (token : SubjectToken) (resource : ResourceDacl)
    (findings : List AccessFinding) (ntfs : AclEvaluation) (crossing : Crossing) :
    List AccessFinding :=
  token.findings ++ ntfsFindings ntfs resource ++ provenanceFindings resource ++
    crossing.findings ++ escalationFindings crossing.rights ++ findings

def assembled (token : SubjectToken) (resource : ResourceDacl) (share : Option ShareDacl)
    (findings : List AccessFinding) (ntfs : AclEvaluation) (crossing : Crossing) :
    EffectiveAccess where
  token := token
  resourceKey := resource.resourceKey
  shareKey := share.map (·.shareKey)
  path := token.accessPath
  rights := crossing.rights
  ntfs := ntfs
  share := crossing.share
  crossed := crossing.crossed
  provenance := resource.provenance
  limitingLayer := crossing.limiting
  certainty := certaintyOf (collectedFindings token resource findings ntfs crossing)
  findings := collectedFindings token resource findings ntfs crossing

/-- `resolve_access`. -/
def resolveAccess (token : SubjectToken) (resource : ResourceDacl) (share : Option ShareDacl)
    (findings : List AccessFinding) : Except DomainError EffectiveAccess := do
  if token.accessPath = .remoteSmb ∧ share.isNone then
    throw { message := "A remote SMB resolution needs the share layer, even when its ACL was never read: an absent share ACL is unknown, and treating it as unrestricted over-reports access.", field := "share" }
  if token.accessPath = .localPath ∧ share.isSome then
    throw { message := "Local access does not pass through a share ACL. Supplying one would imply a restriction that anyone logged on to the server bypasses.", field := "share" }
  let ntfs ← evaluateAcl resource.entries token .ntfs resource.facts
  let crossing ← crossShare ntfs token share
  return assembled token resource share findings ntfs crossing

/-- `unobserved_trustee_findings`: one finding per distinct unread trustee. -/
def unobservedTrusteeFindings (trusteeKeys trusteesWithMembership : List String) :
    List AccessFinding :=
  trusteeKeys.eraseDups.filterMap fun key =>
    if key ∈ trusteesWithMembership then none
    else some { condition := .trusteeMembershipUnobserved, detail := [("trustee_key", .text key)] }

end Adg.AccessResolver
