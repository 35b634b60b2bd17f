import Adg.ReviewGeneration

/-!
# Change plans

A change plan is a list of numbered steps. A step acts on one entry of an access
list or on one membership, as it was observed, and is checked when it is made:
it names what it acts on, and a modification narrows. The steps of a plan are
checked together, so that no two act on one object and none is missing.
-/

set_option autoImplicit false

namespace Adg.ChangePlans
open Adg.Observation Adg.SecurityIdentifier Adg.SortedLists Adg.CanonicalJson
open Adg.ReviewGeneration (optionalJson sourceValue)
open Adg.Fallible (bind_ok)

inductive ChangeTargetKind where
  | share
  | resource
  | group
  deriving DecidableEq, Repr

def ChangeTargetKind.value : ChangeTargetKind → String
  | .share => "share"
  | .resource => "resource"
  | .group => "group"

inductive PlannedChangeKind where
  | removeGroupMember
  | removeShareAce
  | modifyShareAce
  | removeNtfsAce
  | modifyNtfsAce
  | replaceWithGroup
  deriving DecidableEq, Repr

def PlannedChangeKind.value : PlannedChangeKind → String
  | .removeGroupMember => "remove_group_member"
  | .removeShareAce => "remove_share_ace"
  | .modifyShareAce => "modify_share_ace"
  | .removeNtfsAce => "remove_ntfs_ace"
  | .modifyNtfsAce => "modify_ntfs_ace"
  | .replaceWithGroup => "replace_with_group"

/-- `MAX_PLAN_CHANGES`. -/
def maxPlanChanges : ℕ := 100

/-- Raise a `RemediationValidationError` when a condition holds. -/
def refuseWhen (p : Prop) [Decidable p] (message field : String) : Except DomainError Unit :=
  if p then .error { message := message, field := some field } else .ok ()

@[simp] theorem refuseWhen_ok {p : Prop} [Decidable p] {message field : String} :
    refuseWhen p message field = .ok () ↔ ¬ p := by
  unfold refuseWhen
  split_ifs with h <;> simp [h]

/-- A check before another passes when both do. -/
theorem both_ok {x y : Except DomainError Unit} :
    (x >>= fun _ => y) = .ok () ↔ x = .ok () ∧ y = .ok () := by
  rw [bind_ok]
  constructor
  · rintro ⟨_,hx,hy⟩
    exact ⟨hx,hy⟩
  · rintro ⟨hx,hy⟩
    exact ⟨(),hx,hy⟩

/-! ### Texts -/

/-- What stands after the last separator, the whole text when there is none. -/
def afterLast (separator : Char) (text : String) : String :=
  String.ofList (text.toList.reverse.takeWhile (· ≠ separator)).reverse

/-- What stands before the last separator, if there is one. -/
def beforeLast (separator : Char) (text : String) : Option String :=
  if separator ∈ text.toList then
    some (String.ofList ((text.toList.reverse.dropWhile (· ≠ separator)).drop 1).reverse)
  else none

/-- `format(mask, "#010x")`. -/
def hexMask (mask : ℤ) : String :=
  let digits := String.ofList (Nat.toDigits 16 mask.natAbs)
  let sign := if mask < 0 then "-" else ""
  sign ++ "0x" ++ String.ofList (List.replicate (8-sign.length-digits.length) '0') ++ digits

/-- `or` over texts: what is absent or empty gives way. -/
def orElseText (text : Option String) (other : String) : String :=
  match text with
  | some s => if s = "" then other else s
  | none => other

/-! ### What a step was written against -/

/-- The fields of `EntrySnapshot` that say what the entry is. -/
structure EntryFields where
  aceKey : String
  trusteeSid : String
  trusteeKey : String
  aceType : AceType
  accessMask : Option ℤ := none
  permission : Option SharePermission := none
  aceFlags : Option ℤ := none
  source : Option AceSource := none
  inheritedFrom : Option String := none
  orderIndex : Option ℤ := none
  deriving DecidableEq, Repr

def EntryFields.isInherited (e : EntryFields) : Bool := e.source = some .inherited
def EntryFields.isDeny (e : EntryFields) : Bool := e.aceType = .deny

def is32Bit (mask : ℤ) : Bool := 0 ≤ mask ∧ mask ≤ 0xFFFFFFFF

/-- `EntrySnapshot.__post_init__`. -/
def checkEntry (e : EntryFields) : Except DomainError Unit := do
  refuseWhen (strip e.aceKey.toList = [])
    "A planned change names one entry, by the key the collector reported. An empty key names every entry or none, and a person executing the plan would have to guess which."
    "ace_key"
  refuseWhen (e.accessMask = none ∧ e.permission = none)
    s!"Entry {e.aceKey} carries neither an access mask nor a permission level, so there is nothing to say what it grants and nothing to check it against later."
    "access_mask"
  refuseWhen (e.accessMask.any fun m => ¬ is32Bit m)
    s!"An access mask is a 32-bit value; {e.accessMask.getD 0} is outside it."
    "access_mask"

structure EntrySnapshot extends EntryFields where
  checked : checkEntry toEntryFields = .ok ()
  deriving DecidableEq

/-- The fields of `MembershipSnapshot` that say what the membership is. -/
structure MembershipFields where
  groupKey : String
  memberKey : String
  memberSid : String
  edgeKind : MembershipEdgeKind := .directoryGroupMember
  memberKind : Option PrincipalKind := none
  groupDisplayName : Option String := none
  memberDisplayName : Option String := none
  deriving DecidableEq, Repr

/-- `host_key`: the computer of a host-scoped group. -/
def hostKey (groupKey : String) : Option String := beforeLast '|' groupKey

/-- `MembershipSnapshot.__post_init__`. -/
def checkMembership (m : MembershipFields) : Except DomainError Unit := do
  refuseWhen (strip m.groupKey.toList = [] ∨ strip m.memberKey.toList = [])
    "A membership change names a group and a member, by the keys the collector reported."
    (if strip m.groupKey.toList = [] then "group_key" else "member_key")
  refuseWhen (m.groupKey = m.memberKey)
    s!"A group cannot be a direct member of itself ({m.groupKey}). Windows does not create such an edge, so no plan may claim to remove one."
    "member_key"
  refuseWhen (decide (m.edgeKind = .localGroupMember) ≠ (hostKey m.groupKey).isSome)
    s!"{m.groupKey} and {m.edgeKind.value} disagree about where this group lives. A host-scoped key means a local group, edited in Local Users and Groups on that computer; an unscoped key means a directory group, edited in Active Directory. A plan that confused the two would send somebody to the wrong machine."
    "edge_kind"

structure MembershipSnapshot extends MembershipFields where
  checked : checkMembership toMembershipFields = .ok ()
  deriving DecidableEq

/-! ### One step -/

structure ChangeFields where
  changeId : ℕ
  sequenceIndex : ℤ
  kind : PlannedChangeKind
  targetKind : ChangeTargetKind
  targetKey : String
  targetDisplay : Option String := none
  principalSid : String := ""
  principalKey : String := ""
  entry : Option EntrySnapshot := none
  membership : Option MembershipSnapshot := none
  afterAccessMask : Option ℤ := none
  afterPermission : Option SharePermission := none
  replacementGroupKey : Option String := none
  replacementGroupSid : Option String := none
  replacementGroupDisplayName : Option String := none
  itemId : Option String := none
  decisionId : Option String := none
  riskFindingKey : Option String := none
  deriving DecidableEq

/-- `_validate_target_kind`, the kind expected. -/
def expectedTarget : PlannedChangeKind → ChangeTargetKind
  | .removeGroupMember => .group
  | .removeShareAce | .modifyShareAce => .share
  | .removeNtfsAce | .modifyNtfsAce | .replaceWithGroup => .resource

/-- `SHARE_PERMISSION_ORDER`. -/
def sharePermissionOrder : SharePermission → ℕ
  | .read => 0
  | .change => 1
  | .full => 2

section Narrowing
variable (c : ChangeFields)

def entryName : String := (c.entry.map (·.aceKey)).getD ""
def observedMask : ℤ := (c.entry.bind (·.accessMask)).getD 0

/-- `validate_narrowing` of an entry of a directory. -/
def narrowsNtfs : Except DomainError Unit := do
  refuseWhen (c.afterAccessMask = none)
    "A modification must say what the entry should become. Without a resulting mask there is nothing to simulate and nothing to instruct."
    "after_access_mask"
  let after := c.afterAccessMask.getD 0
  refuseWhen (Int.ldiff after (observedMask c) ≠ 0)
    s!"Entry {entryName c} currently grants {hexMask (observedMask c)} and the plan would leave {hexMask after}, which adds rights it does not hold. Remediation narrows; a change that grants is a grant, and belongs in a request somebody approves as one."
    "after_access_mask"
  refuseWhen (after = observedMask c)
    s!"Entry {entryName c} would be left exactly as it is. A step that changes nothing still costs a change window and still reads as work done."
    "after_access_mask"
  refuseWhen (c.entry.any (·.isDeny))
    s!"Entry {entryName c} is a Deny. Narrowing a Deny *grants* access — it is the one case where taking rights out of a mask gives them to somebody — so it is not remediation and is not describable here. Remove the Deny, or leave it alone."
    "after_access_mask"

/-- `validate_narrowing` of an entry of a share. -/
def narrowsShare : Except DomainError Unit := do
  refuseWhen (c.afterPermission = none ∧ c.afterAccessMask = none)
    "A share modification must say what the entry should become: a permission level, or a mask."
    "after_permission"
  refuseWhen (c.afterPermission.any fun after => (c.entry.bind (·.permission)).any fun before =>
      sharePermissionOrder before ≤ sharePermissionOrder after)
    s!"Entry {entryName c} grants {((c.entry.bind (·.permission)).map (·.value)).getD default} and the plan would leave {(c.afterPermission.map (·.value)).getD default}, which is not less. A share remediation that raises or holds a permission level is not a remediation."
    "after_permission"
  refuseWhen (c.afterAccessMask.any fun after => (c.entry.bind (·.accessMask)).any fun before =>
      Int.ldiff after before ≠ 0)
    s!"Entry {entryName c} grants {hexMask (observedMask c)} and the plan would leave {hexMask (c.afterAccessMask.getD 0)}, which adds rights."
    "after_access_mask"
  refuseWhen (c.entry.any (·.isDeny))
    s!"Entry {entryName c} is a Deny; narrowing it grants access."
    "after_permission"

/-- `validate_narrowing`. -/
def validateNarrowing : Except DomainError Unit :=
  match c.kind with
  | .modifyNtfsAce => narrowsNtfs c
  | .modifyShareAce => narrowsShare c
  | _ => refuseWhen (c.afterAccessMask ≠ none ∨ c.afterPermission ≠ none)
      s!"A {c.kind.value} change removes an entry; it has no resulting state. A step carrying one would read as a modification to whoever performs it."
      "after_access_mask"

end Narrowing

/-- What a step of each kind carries. -/
def checkEvidence (c : ChangeFields) : Except DomainError Unit :=
  match c.kind with
  | .removeGroupMember => do
    refuseWhen (c.membership = none)
      "A membership change must carry the edge it removes, as ADG observed it. Without it there is no precondition to check and nothing to put in front of the person performing the change."
      "membership"
    refuseWhen (c.entry ≠ none)
      "A membership change acts on an edge, not on an access-control entry."
      "entry"
    refuseWhen (c.membership.any (·.groupKey ≠ c.targetKey))
      s!"The change targets {c.targetKey} and the edge is on {(c.membership.map (·.groupKey)).getD default}. A step whose target and evidence disagree would be checked against one object and performed on another."
      "target_key"
  | _ =>
    refuseWhen (c.entry = none)
      s!"A {c.kind.value} change must carry the entry it acts on, as ADG observed it. That snapshot is the precondition: without it ADG cannot tell, at export time, whether somebody has edited the entry since."
      "entry"

/-- What a replacement names besides the entry. -/
def checkReplacement (c : ChangeFields) : Except DomainError Unit :=
  if c.kind ≠ .replaceWithGroup then .ok () else do
  refuseWhen (c.membership = none)
    "Replacing a direct permission with group-based access has two halves: the entry to remove and the group to join. This change names no group membership, so it would remove the access and grant nothing back."
    "membership"
  refuseWhen (orElseText c.replacementGroupKey "" = "" ∨ orElseText c.replacementGroupSid "" = "")
    "A replacement group is named by both key and SID: the key is what ADG matches and simulates, the SID is what a person types into Windows."
    "replacement_group_key"

/-- `PlannedChange.__post_init__`. -/
def checkChange (c : ChangeFields) : Except DomainError Unit := do
  refuseWhen (c.sequenceIndex < 0) "A step number is not negative." "sequence_index"
  refuseWhen (c.targetKind ≠ expectedTarget c.kind)
    s!"A {c.kind.value} change acts on a {(expectedTarget c.kind).value}, not on a {c.targetKind.value}. The two are edited with different tools, and a plan that named the wrong one would send somebody to the wrong dialog box."
    "target_kind"
  refuseWhen (strip c.targetKey.toList = [])
    s!"A {c.kind.value} change must name what it acts on."
    "target_key"
  checkEvidence c
  checkReplacement c
  validateNarrowing c

/-- Of a membership, the checks of a step read the group. -/
theorem checkChange_membership (c : ChangeFields) (m : Option MembershipSnapshot)
    (h : m.map (·.groupKey) = c.membership.map (·.groupKey)) :
    checkChange { c with membership := m } = checkChange c := by
  have habsent : m = none ↔ c.membership = none := by
    rw [← Option.map_eq_none_iff, h, Option.map_eq_none_iff]
  have hany : (m.any (·.groupKey ≠ c.targetKey)) = c.membership.any (·.groupKey ≠ c.targetKey) := by
    have hread : ∀ o : Option MembershipSnapshot, o.any (·.groupKey ≠ c.targetKey) =
        (o.map (·.groupKey)).any (· ≠ c.targetKey) := by
      rintro (_ | o) <;> rfl
    rw [hread, h, ← hread]
  have hevidence : checkEvidence { c with membership := m } = checkEvidence c := by
    unfold checkEvidence
    simp only [habsent, hany, h]
  have hreplacement : checkReplacement { c with membership := m } = checkReplacement c := by
    unfold checkReplacement
    simp only [habsent]
  unfold checkChange
  rw [hevidence, hreplacement]
  rfl
structure PlannedChange extends ChangeFields where
  checked : checkChange toChangeFields = .ok ()
  deriving DecidableEq

section Accepted
variable (c : PlannedChange)

/-- Every check of a step that was made has passed. -/
theorem PlannedChange.passed : c.targetKind = expectedTarget c.kind ∧
    checkEvidence c.toChangeFields = .ok () ∧
    checkReplacement c.toChangeFields = .ok () ∧
    validateNarrowing c.toChangeFields = .ok () := by
  have h := c.checked
  unfold checkChange at h
  simp only [both_ok, refuseWhen_ok, not_not] at h
  exact h.2.imp_right fun h => h.2

theorem PlannedChange.edge_of_removal (hk : c.kind = .removeGroupMember) :
    c.entry = none ∧ ∃ m, c.membership = some m ∧ m.groupKey = c.targetKey := by
  have h := c.passed.2.1
  unfold checkEvidence at h
  simp only [hk, both_ok, refuseWhen_ok, not_not] at h
  obtain ⟨hsome,hnone,hkeys⟩ := h
  obtain ⟨m,hm⟩ := Option.ne_none_iff_exists'.mp hsome
  refine ⟨hnone,m,hm,?_⟩
  simpa [hm] using hkeys

theorem PlannedChange.entry_of_other (hk : c.kind ≠ .removeGroupMember) :
    ∃ e, c.entry = some e := by
  have h := c.passed.2.1
  unfold checkEvidence at h
  cases hkind : c.kind with
  | removeGroupMember => exact absurd hkind hk
  | removeShareAce | modifyShareAce | removeNtfsAce | modifyNtfsAce | replaceWithGroup =>
    simp only [hkind, refuseWhen_ok] at h
    exact Option.ne_none_iff_exists'.mp h

theorem PlannedChange.edge_of_replacement (hk : c.kind = .replaceWithGroup) :
    ∃ m, c.membership = some m := by
  have h := c.passed.2.2.1
  unfold checkReplacement at h
  rw [if_neg (not_not.mpr hk), both_ok, refuseWhen_ok] at h
  exact Option.ne_none_iff_exists'.mp h.1

/-- A part of a mask is at most the mask. -/
theorem le_of_ldiff {after observed : ℤ} (hobserved : 0 ≤ observed)
    (h : Int.ldiff after observed = 0) : 0 ≤ after ∧ after ≤ observed := by
  obtain ⟨n,rfl⟩ := Int.eq_ofNat_of_zero_le hobserved
  cases after with
  | negSucc m => cases h
  | ofNat m =>
    have hsub : Nat.ldiff m n = 0 := Int.ofNat.inj h
    have hand : m &&& n = m := by
      apply Nat.eq_of_testBit_eq
      intro i
      have hi : (Nat.ldiff m n).testBit i = false := by rw [hsub, Nat.zero_testBit]
      rw [Nat.testBit_ldiff] at hi
      rw [Nat.testBit_and]
      cases hm : m.testBit i <;> cases hn : n.testBit i <;> simp_all
    exact ⟨Int.natCast_nonneg m,Int.ofNat_le.mpr (hand ▸ Nat.and_le_right)⟩

theorem EntrySnapshot.mask_is32Bit (e : EntrySnapshot) {mask : ℤ}
    (h : e.accessMask = some mask) : is32Bit mask = true := by
  have hc := e.checked
  unfold checkEntry at hc
  simp only [both_ok, refuseWhen_ok] at hc
  simpa [h] using hc.2.2

theorem EntrySnapshot.aceKey_ne (e : EntrySnapshot) : e.aceKey ≠ "" := by
  have hc := e.checked
  unfold checkEntry at hc
  rw [both_ok, refuseWhen_ok] at hc
  intro h
  apply hc.1
  rw [h]
  rfl

/-- A narrowed entry of a directory had a mask, and is left with a part of it. -/
theorem PlannedChange.mask_of_narrowing (hk : c.kind = .modifyNtfsAce) :
    ∃ after, c.afterAccessMask = some after ∧ is32Bit after = true := by
  have h := c.passed.2.2.2
  unfold validateNarrowing narrowsNtfs at h
  simp only [hk, both_ok, refuseWhen_ok, not_not] at h
  obtain ⟨hsome,hpart,-⟩ := h
  obtain ⟨after,hafter⟩ := Option.ne_none_iff_exists'.mp hsome
  refine ⟨after,hafter,?_⟩
  simp only [hafter, Option.getD_some] at hpart
  obtain ⟨e,he⟩ := c.entry_of_other (by rw [hk]; decide)
  cases hmask : e.accessMask with
  | none =>
    have hzero : observedMask c.toChangeFields = 0 := by simp [observedMask, he, hmask]
    have hle := le_of_ldiff (le_refl _) (hzero ▸ hpart)
    unfold is32Bit
    simp only [decide_eq_true_eq]
    omega
  | some mask =>
    have hobserved : observedMask c.toChangeFields = mask := by simp [observedMask, he, hmask]
    have hm := e.mask_is32Bit hmask
    unfold is32Bit at hm ⊢
    simp only [decide_eq_true_eq] at hm ⊢
    have hle := le_of_ldiff hm.1 (hobserved ▸ hpart)
    omega

/-- A narrowed entry of a share allows, and is left with a level or a mask. -/
theorem PlannedChange.level_of_narrowing (hk : c.kind = .modifyShareAce) :
    (c.afterPermission ≠ none ∨ c.afterAccessMask ≠ none) ∧
      ∀ e, c.entry = some e → e.aceType = .allow := by
  have h := c.passed.2.2.2
  unfold validateNarrowing narrowsShare at h
  simp only [hk, both_ok, refuseWhen_ok] at h
  obtain ⟨hsome,-,-,hallow⟩ := h
  refine ⟨by tauto,fun e he => ?_⟩
  rw [he] at hallow
  cases htype : e.aceType with
  | allow => rfl
  | deny => simp [EntryFields.isDeny, htype] at hallow

end Accepted

/-! ### The steps of a plan -/

/-- `natural_key`. -/
def PlannedChange.naturalKey (c : PlannedChange) : String × String × String × String :=
  let object := match c.entry, c.membership with
    | some e, _ => e.aceKey
    | none, some m => m.groupKey ++ "->" ++ m.memberKey
    | none, none => ""
  (c.targetKind.value,c.targetKey,c.principalKey,object)

/-- Refuse the second step on one object, where `seen` has the steps before. -/
def checkObjects (seen : List ((String × String × String × String) × ℤ)) :
    List PlannedChange → Except DomainError Unit
  | [] => .ok ()
  | c :: rest =>
    match seen.lookup c.naturalKey with
    | some first => .error
      { message := s!"Steps {first} and {c.sequenceIndex} both act on {c.naturalKey.2.2.2}. Two steps on one object conflict, and the second was written against the state the first one leaves behind — which nothing in the precondition check can see. Describe the end state you want as one step."
        field := some "changes" }
    | none => checkObjects ((c.naturalKey,c.sequenceIndex) :: seen) rest

/-- `validate_changes`. -/
def validateChanges (changes : List PlannedChange) : Except DomainError Unit := do
  refuseWhen (changes = [])
    "A change plan with no changes instructs nobody to do anything, and would still be approved and signed. Add at least one change, or cancel the plan."
    "changes"
  refuseWhen (maxPlanChanges < changes.length)
    s!"A change plan holds at most {maxPlanChanges} changes and this one has {changes.length}. This is a refusal rather than a truncation: a plan nobody can hold in their head is one whose blast radius nobody actually checked. Split it by server, by share, or by change window."
    "changes"
  checkObjects [] changes
  let indices := sortedBy id (changes.map (·.sequenceIndex))
  refuseWhen (indices ≠ (List.range changes.length).map Int.ofNat)
    s!"Step numbers must run 0 to {changes.length-1}, once each; these are {indices}. A gap or a repeat means the runbook a person follows and the list an auditor reads are not the same list."
    "sequence_index"

/-- Steps whose objects are checked have different keys. -/
theorem checkObjects_ok {seen : List ((String × String × String × String) × ℤ)}
    {changes : List PlannedChange} : checkObjects seen changes = .ok () ↔
      (changes.map (·.naturalKey)).Nodup ∧ ∀ c ∈ changes, seen.lookup c.naturalKey = none := by
  induction changes generalizing seen with
  | nil => simp [checkObjects]
  | cons c rest ih =>
    rw [checkObjects, List.map_cons, List.nodup_cons, List.forall_mem_cons]
    cases hseen : seen.lookup c.naturalKey with
    | some first => simp
    | none =>
      have hlater : (∀ d ∈ rest, ((c.naturalKey,c.sequenceIndex) :: seen).lookup d.naturalKey =
          none) ↔ c.naturalKey ∉ rest.map (·.naturalKey) ∧
            ∀ d ∈ rest, seen.lookup d.naturalKey = none := by
        rw [List.mem_map, not_exists, ← forall_and]
        apply forall_congr'
        intro d
        rw [not_and, ← imp_and]
        apply imp_congr_right
        intro _
        rw [List.lookup_cons]
        by_cases hkey : d.naturalKey = c.naturalKey
        · simp [hkey]
        · rw [beq_false_of_ne hkey]
          simp [hkey]
      simp only [true_and]
      rw [ih, hlater]
      tauto

/-- Steps that are accepted have different keys and different numbers. -/
theorem accepted_distinct {changes : List PlannedChange} (h : validateChanges changes = .ok ()) :
    (changes.map (·.naturalKey)).Nodup ∧ (changes.map (·.sequenceIndex)).Nodup := by
  unfold validateChanges at h
  simp only [both_ok, refuseWhen_ok, not_not] at h
  obtain ⟨-,-,hobjects,hindices⟩ := h
  refine ⟨(checkObjects_ok.mp hobjects).1,?_⟩
  rw [← (sortedBy_perm id (changes.map (·.sequenceIndex))).nodup_iff, hindices]
  exact List.nodup_range.map Int.ofNat_injective

/-- The steps in the order they are performed. -/
def inOrder (changes : List PlannedChange) : List PlannedChange :=
  sortedBy (·.sequenceIndex) changes

theorem inOrder_perm (changes : List PlannedChange) : (inOrder changes).Perm changes :=
  sortedBy_perm _ changes

end Adg.ChangePlans
