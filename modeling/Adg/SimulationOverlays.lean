import Adg.ChangePlans

/-!
# Simulation overlays

An overlay is a set of simulated changes, grouped by what they act on, of which
no two act on one thing. A planned step is translated into the simulated changes
that stand for it, and a plan into one overlay.
-/

set_option autoImplicit false

namespace Adg.SimulationOverlays
open Adg.Observation Adg.SecurityIdentifier Adg.ResourcePath Adg.ChangePlans

/-! ### Shares -/

/-- `ShareIdentity`. -/
structure ShareIdentity where
  server : String
  name : String
  deriving DecidableEq, Repr

/-- `parse_share_identifier`. -/
def parseShareIdentifier (raw : String) : Except DomainError ShareIdentity := do
  let text := strip raw.toList
  if text = [] then
    throw { message := "A share identifier must be a non-empty string.", field := "share" }
  if '|' ∈ text then
    match text.splitOn '|' with
    | [server, name] =>
      if strip server = [] ∨ strip name = [] then
        throw { message := s!"'{raw}' is not a share key. Expected exactly 'server|share', or a UNC path such as \\\\FS01\\Finance.", field := "share" }
      if (strip server ++ strip name).any (fun c => c = '\\' ∨ c = '/') then
        throw { message := s!"'{raw}' mixes a share key with a path. Send either 'server|share' or a UNC path, not both.", field := "share" }
      return ⟨String.ofList (strip server),String.ofList (strip name)⟩
    | _ =>
      throw { message := s!"'{raw}' is not a share key. Expected exactly 'server|share', or a UNC path such as \\\\FS01\\Finance.", field := "share" }
  else
    let path ← parseUncPath (String.ofList text)
    if ¬ path.isShareRoot then
      throw { message := s!"'{raw}' names a directory inside a share, not the share itself. A share and a folder beneath it have different ACLs; ask for \\\\{String.ofList path.server}\\{String.ofList path.share} to get the share.", field := "share" }
    return ⟨String.ofList path.server,String.ofList path.share⟩

/-! ### Simulated changes -/

/-- `ChangeKind`. The setting of inheritance stands for no planned step. -/
inductive ChangeKind where
  | addMember
  | removeMember
  | addNtfsAce
  | modifyNtfsAce
  | removeNtfsAce
  | addShareAce
  | modifyShareAce
  | removeShareAce
  | setInheritance
  deriving DecidableEq, Repr

def ChangeKind.value : ChangeKind → String
  | .addMember => "add_member"
  | .removeMember => "remove_member"
  | .addNtfsAce => "add_ntfs_ace"
  | .modifyNtfsAce => "modify_ntfs_ace"
  | .removeNtfsAce => "remove_ntfs_ace"
  | .addShareAce => "add_share_ace"
  | .modifyShareAce => "modify_share_ace"
  | .removeShareAce => "remove_share_ace"
  | .setInheritance => "set_inheritance"

inductive InheritedAceDisposition where
  | convertToExplicit
  | remove
  deriving DecidableEq, Repr

def InheritedAceDisposition.value : InheritedAceDisposition → String
  | .convertToExplicit => "convert_to_explicit"
  | .remove => "remove"

structure MembershipChange where
  kind : ChangeKind
  groupKey : String
  memberKey : String
  edgeKind : MembershipEdgeKind := .directoryGroupMember
  memberKind : Option PrincipalKind := none
  deriving DecidableEq, Repr

structure NtfsAceChange where
  kind : ChangeKind
  resourceKey : String
  aceKey : Option String := none
  trusteeSid : Option String := none
  aceType : Option AceType := none
  accessMask : Option ℤ := none
  aceFlags : Option ℤ := none
  orderIndex : Option ℤ := none
  deriving DecidableEq, Repr

/-- The folded share key is kept as the pair that it spells, `server|name`. -/
structure ShareAceChange where
  kind : ChangeKind
  share : ShareIdentity
  aceKey : Option String := none
  trusteeSid : Option String := none
  aceType : Option AceType := none
  accessMask : Option ℤ := none
  permission : Option SharePermission := none
  orderIndex : Option ℤ := none
  deriving DecidableEq, Repr

structure InheritanceChange where
  resourceKey : String
  isProtected : Bool
  inheritedEntries : Option InheritedAceDisposition := none
  deriving DecidableEq, Repr

/-- `_validate_key`. -/
def validateKey (value field : String) : Except DomainError Unit :=
  refuseWhen (strip value.toList = [])
    s!"A simulated change must name the object it acts on; {field} was empty."
    field

/-- `_validate_mask`, of a mask that is given. -/
def validateMask (value : Option ℤ) (field : String) : Except DomainError Unit :=
  refuseWhen (value.any fun m => ¬ is32Bit m)
    s!"An access mask is a 32-bit value; {value.getD 0} is outside it."
    field

/-- `MembershipChange.__post_init__`. -/
def MembershipChange.check (m : MembershipChange) : Except DomainError Unit := do
  refuseWhen (m.kind ≠ .addMember ∧ m.kind ≠ .removeMember)
    s!"{m.kind.value} is not a membership change."
    "kind"
  validateKey m.groupKey "group_key"
  validateKey m.memberKey "member_key"
  refuseWhen (m.groupKey = m.memberKey)
    s!"A group cannot be a direct member of itself ({m.groupKey}). Windows does not create such an edge, so neither may a proposal."
    "member_key"
  refuseWhen (decide (m.edgeKind = .localGroupMember) ≠ (hostKey m.groupKey).isSome)
    s!"A host-scoped group key and a local-group edge kind go together: {m.groupKey} and {m.edgeKind.value} do not. A BUILTIN SID names a different group on every computer, so an edge into one that is not marked local would be matched against the wrong group — or against none."
    "edge_kind"

/-- What a change of an entry that is there already must say. -/
def checkExisting (kind : ChangeKind) (aceKey : Option String) : Except DomainError Unit :=
  refuseWhen (orElseText aceKey "" = "")
    s!"{kind.value} acts on an entry that already exists, so it must name it."
    "ace_key"

/-- `NtfsAceChange.__post_init__`, after the directory was folded. -/
def NtfsAceChange.check (n : NtfsAceChange) : Except DomainError Unit := do
  refuseWhen (n.kind ≠ .addNtfsAce ∧ n.kind ≠ .modifyNtfsAce ∧ n.kind ≠ .removeNtfsAce)
    s!"{n.kind.value} is not an NTFS ACE change."
    "kind"
  validateMask n.accessMask "access_mask"
  refuseWhen (n.aceFlags.any fun f => ¬ (0 ≤ f ∧ f ≤ 0xFF))
    s!"ACE flags are a single byte; {n.aceFlags.getD 0} is outside it."
    "ace_flags"
  refuseWhen (n.orderIndex.any (· < 0)) "A DACL position is not negative." "order_index"
  if n.kind = .addNtfsAce then do
    refuseWhen (orElseText n.trusteeSid "" = "")
      "A new NTFS ACE must name the trustee it applies to."
      "trustee_sid"
    let _ ← canonicalizeSid (n.trusteeSid.getD "")
    refuseWhen (n.aceType = none)
      "A new NTFS ACE must say whether it allows or denies."
      "ace_type"
    refuseWhen (n.accessMask = none)
      "A new NTFS ACE must carry the mask it grants or denies. An entry with no mask is not a permission; it is a row that changes nothing and would report itself as applied."
      "access_mask"
  else do
    checkExisting n.kind n.aceKey
    refuseWhen (n.kind = .modifyNtfsAce ∧ n.accessMask = none ∧ n.aceFlags = none ∧ n.aceType = none)
      "A modification must change something: give a mask, flags, or a type."
      "access_mask"

/-- `ShareAceChange.__post_init__`, after the share was folded. -/
def ShareAceChange.check (s : ShareAceChange) : Except DomainError Unit := do
  refuseWhen (s.kind ≠ .addShareAce ∧ s.kind ≠ .modifyShareAce ∧ s.kind ≠ .removeShareAce)
    s!"{s.kind.value} is not a share ACE change."
    "kind"
  validateMask s.accessMask "access_mask"
  refuseWhen (s.orderIndex.any (· < 0)) "A DACL position is not negative." "order_index"
  if s.kind = .addShareAce then do
    refuseWhen (orElseText s.trusteeSid "" = "")
      "A new share ACE must name the trustee it grants to."
      "trustee_sid"
    let _ ← canonicalizeSid (s.trusteeSid.getD "")
    refuseWhen (s.aceType = none)
      "A new share ACE must say whether it allows or denies."
      "ace_type"
    refuseWhen (decide (s.accessMask = none) = decide (s.permission = none))
      "A share ACE carries exactly one of access_mask or permission, whichever form the proposal is written in."
      "access_mask"
  else do
    checkExisting s.kind s.aceKey
    refuseWhen (s.kind = .modifyShareAce ∧ s.accessMask ≠ none ∧ s.permission ≠ none)
      "A modification sets one right form or the other, never both."
      "access_mask"
    refuseWhen (s.kind = .modifyShareAce ∧ s.accessMask = none ∧ s.permission = none ∧
        s.aceType = none)
      "A modification must change something: give a mask, a permission, or a type."
      "access_mask"

/-- `InheritanceChange.__post_init__`, after the directory was folded. -/
def InheritanceChange.check (i : InheritanceChange) : Except DomainError Unit := do
  refuseWhen (i.isProtected ∧ i.inheritedEntries = none)
    "Protecting a directory has two possible outcomes for the entries it currently inherits — kept as explicit copies, or removed — and they produce different ACLs. The proposal has to say which."
    "inherited_entries"
  refuseWhen (¬ i.isProtected ∧ i.inheritedEntries ≠ none)
    "Clearing protection re-attaches the directory to its parent; there are no inherited entries to dispose of yet."
    "inherited_entries"

inductive SimulationChange where
  | membership (change : MembershipChange)
  | ntfs (change : NtfsAceChange)
  | share (change : ShareAceChange)
  | inheritance (change : InheritanceChange)
  deriving DecidableEq, Repr

/-- `target` of a membership. -/
def MembershipChange.target (m : MembershipChange) : String :=
  "edge:" ++ m.groupKey ++ "->" ++ m.memberKey ++ "|" ++ m.edgeKind.value

/-! ### The overlay -/

/-- `MAX_CHANGES`. -/
def maxChanges : ℕ := 200

/-- What two changes of an overlay may not share: a membership edge, or the key
of an entry of either kind. An entry that a change adds has no key yet. -/
inductive Target where
  | edge (text : String)
  | ntfsAce (key : String)
  | shareAce (key : String)
  | ntfsAddition (resourceKey : String) (trusteeSid : Option String) (aceType : Option AceType)
      (accessMask aceFlags : Option ℤ)
  | shareAddition (share : ShareIdentity) (trusteeSid : Option String)
      (aceType : Option AceType) (accessMask : Option ℤ) (permission : Option SharePermission)
  | inheritance (resourceKey : String)
  deriving DecidableEq, Repr

/-- `target`. -/
def SimulationChange.target : SimulationChange → Target
  | .membership m => .edge m.target
  | .ntfs n => match n.aceKey with
    | some key => .ntfsAce key
    | none => .ntfsAddition n.resourceKey n.trusteeSid n.aceType n.accessMask n.aceFlags
  | .share s => match s.aceKey with
    | some key => .shareAce key
    | none => .shareAddition s.share s.trusteeSid s.aceType s.accessMask s.permission
  | .inheritance i => .inheritance i.resourceKey

/-- `SimulationOverlay`, which passed `__post_init__`. -/
structure SimulationOverlay where
  membership : List MembershipChange
  ntfsAces : List NtfsAceChange
  shareAces : List ShareAceChange
  inheritance : List InheritanceChange
  bounded : membership.length+ntfsAces.length+shareAces.length+inheritance.length ≤ maxChanges
  distinct : ((membership.map SimulationChange.membership ++ ntfsAces.map SimulationChange.ntfs ++
    shareAces.map SimulationChange.share ++
    inheritance.map SimulationChange.inheritance).map (·.target)).Nodup

/-- `changes`: every change, grouped by what it acts on. -/
def SimulationOverlay.changes (o : SimulationOverlay) : List SimulationChange :=
  o.membership.map .membership ++ o.ntfsAces.map .ntfs ++ o.shareAces.map .share ++
    o.inheritance.map .inheritance

section FromChanges
variable (changes : List SimulationChange)

def memberships : List MembershipChange :=
  changes.filterMap fun
    | .membership m => some m
    | _ => none

def ntfsChanges : List NtfsAceChange :=
  changes.filterMap fun
    | .ntfs n => some n
    | _ => none

def shareChanges : List ShareAceChange :=
  changes.filterMap fun
    | .share s => some s
    | _ => none

def inheritanceChanges : List InheritanceChange :=
  changes.filterMap fun
    | .inheritance i => some i
    | _ => none

/-- `SimulationOverlay.from_changes`. -/
def SimulationOverlay.fromChanges : Except DomainError SimulationOverlay :=
  let total := (memberships changes).length+(ntfsChanges changes).length+
    (shareChanges changes).length+(inheritanceChanges changes).length
  if hbounded : total ≤ maxChanges then
    if hdistinct : (((memberships changes).map SimulationChange.membership ++
        (ntfsChanges changes).map SimulationChange.ntfs ++
        (shareChanges changes).map SimulationChange.share ++
        (inheritanceChanges changes).map SimulationChange.inheritance).map (·.target)).Nodup then
      .ok ⟨memberships changes,ntfsChanges changes,shareChanges changes,inheritanceChanges changes,
        hbounded,hdistinct⟩
    else .error
      { message := "Two changes act on one target. Which one wins would depend on the order they were applied in, and a proposal whose meaning depends on that is not a proposal anybody can review."
        field := some "changes" }
  else .error
    { message := s!"An overlay holds at most {maxChanges} changes; this one holds {total}. Every change widens the set of identities and resources that have to be re-evaluated, so an unbounded overlay is an unbounded simulation."
      field := some "changes" }

end FromChanges

/-! ### The translation -/

/-- `assert x is not None`. -/
def required {α : Type} (x : Option α) : Except DomainError α :=
  match x with
  | some a => .ok a
  | none => .error { message := "" }

section Translation
variable (casefold : String → String) (c : PlannedChange)

/-- `_membership_removal` and `_membership_addition`. -/
def membershipChange (kind : ChangeKind) : Except DomainError SimulationChange := do
  let edge ← required c.membership
  let change : MembershipChange :=
    { kind := kind
      groupKey := edge.groupKey
      memberKey := edge.memberKey
      edgeKind := edge.edgeKind
      memberKind := edge.memberKind }
  change.check
  return .membership change

/-- `_ntfs_removal` and `_ntfs_modification`. -/
def ntfsChange (kind : ChangeKind) (accessMask : Option ℤ) :
    Except DomainError SimulationChange := do
  let entry ← required c.entry
  validateKey c.targetKey "resource_key"
  let path ← parseUncPath c.targetKey
  let change : NtfsAceChange :=
    { kind := kind
      resourceKey := path.comparisonKey casefold
      aceKey := some entry.aceKey
      accessMask := accessMask }
  change.check
  return .ntfs change

/-- `_share_removal` and `_share_modification`. -/
def shareChange (kind : ChangeKind) (accessMask : Option ℤ)
    (permission : Option SharePermission) : Except DomainError SimulationChange := do
  let entry ← required c.entry
  validateKey c.targetKey "share_key"
  let share ← parseShareIdentifier c.targetKey
  let change : ShareAceChange :=
    { kind := kind
      share := ⟨casefold share.server,casefold share.name⟩
      aceKey := some entry.aceKey
      accessMask := accessMask
      permission := permission }
  change.check
  return .share change

/-- `changes_for`. -/
def changesFor : Except DomainError (List SimulationChange) :=
  match c.kind with
  | .removeGroupMember => do return [← membershipChange c .removeMember]
  | .removeNtfsAce => do return [← ntfsChange casefold c .removeNtfsAce none]
  | .modifyNtfsAce => do return [← ntfsChange casefold c .modifyNtfsAce c.afterAccessMask]
  | .removeShareAce => do return [← shareChange casefold c .removeShareAce none none]
  | .modifyShareAce => do
    if c.afterPermission ≠ none then
      return [← shareChange casefold c .modifyShareAce none c.afterPermission]
    return [← shareChange casefold c .modifyShareAce c.afterAccessMask none]
  | .replaceWithGroup => do
    let removal ← ntfsChange casefold c .removeNtfsAce none
    let addition ← membershipChange c .addMember
    return [removal, addition]

end Translation

/-- `overlay_for_changes`. -/
def overlayForChanges (casefold : String → String) (changes : List PlannedChange) :
    Except DomainError SimulationOverlay := do
  let simulated ← (inOrder changes).mapM (changesFor casefold)
  SimulationOverlay.fromChanges simulated.flatten

end Adg.SimulationOverlays
