import Adg.InheritanceProjection
import Adg.SimulationOverlays

/-!
# Simulated access lists

The access list of a directory or a share as an overlay would leave it:
entries are removed and modified under their keys, additions are inserted where
they were asked for or at the end of their band, and what was numbered is
numbered again.
-/

set_option autoImplicit false

namespace Adg.SimulatedAcls
open Adg.Observation Adg.SecurityIdentifier Adg.ResourcePath Adg.ObjectVersions
open Adg.AclNormalForm Adg.InheritanceProjection Adg.SimulationOverlays

/-! ### Records -/

/-- `NtfsAceRecord`. -/
structure NtfsAceRecord where
  aceKey : String
  resourceKey : String
  trusteeSid : String
  trusteeKey : String
  aceType : AceType
  accessMask : ℤ
  aceFlags : ℤ
  source : AceSource
  inheritedFrom : Option String
  orderIndex : Option ℤ
  sourceKey : String
  firstObservedAt : Instant
  firstObservedRunId : String
  lastObservedAt : Instant
  lastObservedRunId : String
  deriving DecidableEq, Repr

namespace NtfsAceRecord

def isInherited (r : NtfsAceRecord) : Bool := r.source = .inherited

def aclFacts (r : NtfsAceRecord) : Except DomainError AclAceFacts :=
  AclAceFacts.build r.trusteeSid r.aceType r.accessMask r.aceFlags r.orderIndex

end NtfsAceRecord

/-- `ShareAceRecord`. -/
structure ShareAceRecord where
  aceKey : String
  shareKey : String
  trusteeSid : String
  trusteeKey : String
  aceType : AceType
  accessMask : Option ℤ
  permission : Option SharePermission
  rightToken : String
  orderIndex : Option ℤ
  sourceKey : String
  firstObservedAt : Instant
  firstObservedRunId : String
  lastObservedAt : Instant
  lastObservedRunId : String
  deriving DecidableEq, Repr

/-- `SIMULATED_SOURCE_KEY`. -/
def simulatedSourceKey : String := "simulated"

/-- `SIMULATED_ACE_PREFIX`. -/
def simulatedAceMark : String := "simulated|"

/-- `SIMULATED_RUN_ID`: the nil UUID. -/
def simulatedRunId : String := "00000000-0000-0000-0000-000000000000"

/-- `SIMULATED_AT`: the epoch. -/
def simulatedAt : Instant := 0

/-! ### Placement -/

/-- `_band`: explicit Deny, explicit Allow, inherited Deny, inherited Allow. -/
def band (aceType : AceType) (inherited : Bool) : ℕ :=
  if ¬ inherited then if aceType = .deny then 0 else 1
  else if aceType = .deny then 2 else 3

section Placement
variable {α : Type} (bandOf : α → ℕ)

/-- `canonical_position`: behind the last entry of the band or of one before it. -/
def canonicalPosition (entries : List α) (own : ℕ) : ℕ :=
  entries.zipIdx.foldl (fun position row => if bandOf row.1 ≤ own then row.2+1 else position) 0

/-- `_insertion_point`: the position asked for, clamped, or the canonical one. -/
def insertionPoint (entries : List α) (candidate : α) : Option ℤ → ℕ
  | some requested => (max 0 (min requested entries.length)).toNat
  | none => canonicalPosition bandOf entries (bandOf candidate)

/-- `_renumbered`. -/
def renumbered (place : α → ℤ → α) (entries : List α) (ordered : Bool) : List α :=
  if ¬ ordered then entries else entries.mapIdx fun index entry => place entry index

end Placement

def NtfsAceRecord.band (r : NtfsAceRecord) : ℕ := SimulatedAcls.band r.aceType r.isInherited

/-- A share has no inheritance. -/
def ShareAceRecord.band (r : ShareAceRecord) : ℕ := SimulatedAcls.band r.aceType false

/-- A record without its position. -/
def NtfsAceRecord.unnumbered (r : NtfsAceRecord) : NtfsAceRecord := { r with orderIndex := none }

def ShareAceRecord.unnumbered (r : ShareAceRecord) : ShareAceRecord := { r with orderIndex := none }

/-- `_same_ntfs_ace`: the fields that an entry's identity is made of. -/
def sameNtfsAce (left right : NtfsAceRecord) : Bool :=
  left.trusteeKey = right.trusteeKey ∧ left.aceType = right.aceType ∧
    left.accessMask = right.accessMask ∧ left.aceFlags = right.aceFlags

/-- `_same_share_ace`. -/
def sameShareAce (left right : ShareAceRecord) : Bool :=
  left.trusteeKey = right.trusteeKey ∧ left.aceType = right.aceType ∧
    left.rightToken = right.rightToken

/-- The loop that inserts additions: one that is there already is passed over. -/
def insertNew {α : Type} (same : α → α → Bool) (bandOf : α → ℕ) (result : List α) (candidate : α)
    (requested : Option ℤ) : List α :=
  if result.any (same · candidate) then result
  else result.insertIdx (insertionPoint bandOf result candidate requested) candidate

/-! ### Keys -/

/-- `_validate_access_mask`. -/
def validateAccessMask (mask : ℤ) : Except DomainError ℕ :=
  if mask < 0 ∨ 0xFFFFFFFF < mask then
    .error { message := s!"An access mask must be an unsigned 32-bit value; received {mask}.", field := "access_mask" }
  else .ok mask.toNat

section Keys
variable (casefold : String → String)

/-- `ntfs_ace_identity_key`, behind the mark of a simulated entry: `_simulated_ntfs_key`. -/
def simulatedNtfsKey (resourceKey trusteeSid : String) (aceType : AceType) (accessMask flags : ℤ) :
    Except DomainError String := do
  let sid ← Sid.parse trusteeSid
  let mask ← validateAccessMask accessMask
  return simulatedAceMark ++ casefold resourceKey ++ "|" ++ sid.value ++ "|" ++ aceType.value ++
    "|0x" ++ zeroPadded 16 8 mask ++ "|0x" ++ zeroPadded 16 2 flags.toNat

/-- `referenced_principal_key`: only a BUILTIN SID needs the host it was read on. -/
def referencedPrincipalKey (sid : Sid) (host : String) : String :=
  if host ≠ "" ∧ sid.isBuiltin then casefold host ++ "|" ++ sid.value else sid.value

/-- `share_ace_right_token`. -/
def shareAceRightToken (accessMask : Option ℤ) : Option SharePermission → String
  | some permission => permission.value
  | none => "0x" ++ zeroPadded 16 8 (accessMask.getD 0).toNat

/-- The share key that a change was folded to. -/
def shareKeyOf (share : ShareIdentity) : String := share.server ++ "|" ++ share.name

/-- `share_ace_identity_key`, behind the mark of a simulated entry. -/
def simulatedShareKey (shareKey trusteeSid : String) (aceType : AceType) (token : String) :
    Except DomainError String := do
  let sid ← Sid.parse trusteeSid
  return simulatedAceMark ++ casefold shareKey ++ "|" ++ sid.value ++ "|" ++ aceType.value ++ "|" ++
    token

/-! ### Directories -/

/-- The change that `by_key` holds for an entry: the last one that names it. -/
def changeNaming (changes : List NtfsAceChange) (key : String) : Option NtfsAceChange :=
  (changes.filter (·.aceKey = some key)).getLast?

/-- `_modified_ntfs_entry`. -/
def modifiedNtfsEntry (entry : NtfsAceRecord) (change : NtfsAceChange) :
    Except DomainError NtfsAceRecord := do
  let aceType := change.aceType.getD entry.aceType
  let accessMask := change.accessMask.getD entry.accessMask
  let aceFlags := change.aceFlags.getD entry.aceFlags
  let key ← simulatedNtfsKey casefold entry.resourceKey entry.trusteeSid aceType accessMask aceFlags
  return { entry with
    aceType := aceType
    accessMask := accessMask
    aceFlags := aceFlags
    aceKey := key
    sourceKey := simulatedSourceKey
    firstObservedAt := simulatedAt
    lastObservedAt := simulatedAt
    firstObservedRunId := simulatedRunId
    lastObservedRunId := simulatedRunId }

/-- One entry of the baseline after the changes that name it. -/
def editedNtfs (changes : List NtfsAceChange) (entry : NtfsAceRecord) :
    Except DomainError (List NtfsAceRecord) :=
  match changeNaming changes entry.aceKey with
  | none => .ok [entry]
  | some change =>
    if change.kind = .removeNtfsAce then .ok []
    else (fun modified => [modified]) <$> modifiedNtfsEntry casefold entry change

/-- `_added_ntfs_entry`. -/
def addedNtfsEntry (change : NtfsAceChange) (resourceKey server : String) :
    Except DomainError NtfsAceRecord :=
  match change.trusteeSid, change.aceType, change.accessMask with
  | some trusteeSid, some aceType, some accessMask => do
    let flags := change.aceFlags.getD 0
    let key ← simulatedNtfsKey casefold resourceKey trusteeSid aceType accessMask flags
    let sid ← Sid.parse trusteeSid
    return {
      aceKey := key
      resourceKey := resourceKey
      trusteeSid := trusteeSid
      trusteeKey := referencedPrincipalKey casefold sid server
      aceType := aceType
      accessMask := accessMask
      aceFlags := flags
      source := .explicit
      inheritedFrom := none
      orderIndex := change.orderIndex
      sourceKey := simulatedSourceKey
      firstObservedAt := simulatedAt
      firstObservedRunId := simulatedRunId
      lastObservedAt := simulatedAt
      lastObservedRunId := simulatedRunId }
  | _, _, _ => .error { message := "An addition must carry a trustee, a type and a mask.", field := "trustee_sid" }

/-- One round of the loop over additions. -/
def addNtfs (resourceKey server : String) (result : List NtfsAceRecord) (change : NtfsAceChange) :
    Except DomainError (List NtfsAceRecord) :=
  if change.kind ≠ .addNtfsAce then .ok result
  else do
    let candidate ← addedNtfsEntry casefold change resourceKey server
    return insertNew sameNtfsAce NtfsAceRecord.band result candidate change.orderIndex

/-- `_apply_ntfs_ace_changes`. -/
def applyNtfsAceChanges (entries : List NtfsAceRecord) (changes : List NtfsAceChange)
    (resourceKey : String) : Except DomainError (List NtfsAceRecord) := do
  let edited ← entries.mapM (editedNtfs casefold changes)
  let path ← parseUncPath resourceKey
  changes.foldlM (addNtfs casefold resourceKey (String.ofList path.server)) edited.flatten

/-- `_converted_to_explicit`. -/
def convertedToExplicit (entry : NtfsAceRecord) : Except DomainError NtfsAceRecord := do
  let flags : ℤ := (BitVec.ofInt 8 entry.aceFlags &&& ~~~AceFlag.inherited).toNat
  let key ← simulatedNtfsKey casefold entry.resourceKey entry.trusteeSid entry.aceType
    entry.accessMask flags
  return { entry with
    source := .explicit
    aceFlags := flags
    inheritedFrom := none
    aceKey := key
    sourceKey := simulatedSourceKey
    firstObservedAt := simulatedAt
    lastObservedAt := simulatedAt
    firstObservedRunId := simulatedRunId
    lastObservedRunId := simulatedRunId }

/-- `_projected_record`. -/
def projectedRecord (fact : AclAceFacts) (resourceKey server : String) (parentKey : Option String) :
    Except DomainError NtfsAceRecord := do
  let mask : ℤ := fact.accessMask.toNat
  let flags : ℤ := fact.aceFlags.toNat
  let key ← simulatedNtfsKey casefold resourceKey fact.trusteeSid.value fact.aceType mask flags
  return {
    aceKey := key
    resourceKey := resourceKey
    trusteeSid := fact.trusteeSid.value
    trusteeKey := referencedPrincipalKey casefold fact.trusteeSid server
    aceType := fact.aceType
    accessMask := mask
    aceFlags := flags
    source := if has fact.aceFlags AceFlag.inherited then .inherited else .explicit
    inheritedFrom := parentKey
    orderIndex := fact.orderIndex.map Int.ofNat
    sourceKey := simulatedSourceKey
    firstObservedAt := simulatedAt
    firstObservedRunId := simulatedRunId
    lastObservedAt := simulatedAt
    lastObservedRunId := simulatedRunId }

/-- `_apply_inheritance`. A parent that was not read projects nothing. -/
def applyInheritance (entries : List NtfsAceRecord) (change : InheritanceChange)
    (parentEntries : Option (List NtfsAceRecord)) (forContainer : Bool) :
    Except DomainError (List NtfsAceRecord) :=
  if change.isProtected then
    if change.inheritedEntries = some .remove then .ok (entries.filter fun e => !e.isInherited)
    else entries.mapM fun e => if e.isInherited then convertedToExplicit casefold e else .ok e
  else match parentEntries with
    | none => .ok entries
    | some parents => do
      let facts ← parents.mapM (·.aclFacts)
      let resourceKey := (entries.head?.map (·.resourceKey)).getD change.resourceKey
      let path ← parseUncPath resourceKey
      let inherited ← (projectInheritedAcl facts forContainer).mapM fun fact =>
        projectedRecord casefold fact resourceKey (String.ofList path.server)
          (parents.head?.map (·.resourceKey))
      return entries.filter (fun e => !e.isInherited) ++ inherited

/-- `ntfs_changes_for`. -/
def ntfsChangesFor (overlay : SimulationOverlay) (resourceKey : String) : List NtfsAceChange :=
  overlay.ntfsAces.filter (·.resourceKey = casefold resourceKey)

/-- `inheritance_change_for`. -/
def inheritanceChangeFor (overlay : SimulationOverlay) (resourceKey : String) :
    Option InheritanceChange :=
  overlay.inheritance.find? (·.resourceKey = casefold resourceKey)

/-- A position put on a record. -/
def NtfsAceRecord.placedAt (r : NtfsAceRecord) (index : ℤ) : NtfsAceRecord :=
  { r with orderIndex := some index }

/-- `overlay_ntfs_acl`. -/
def overlayNtfsAcl (overlay : SimulationOverlay) (resourceKey : String)
    (baseline : List NtfsAceRecord) (parentEntries : Option (List NtfsAceRecord))
    (forContainer : Bool) : Except DomainError (List NtfsAceRecord) :=
  let folded := casefold resourceKey
  let changes := ntfsChangesFor casefold overlay folded
  let inheritance := inheritanceChangeFor casefold overlay folded
  if changes = [] ∧ inheritance = none then .ok baseline
  else do
    let ordered := baseline.all (·.orderIndex.isSome)
    let entries ← applyNtfsAceChanges casefold baseline changes folded
    let entries ← match inheritance with
      | none => Except.ok entries
      | some change => applyInheritance casefold entries change parentEntries forContainer
    return renumbered NtfsAceRecord.placedAt entries ordered

/-! ### Shares -/

def shareChangeNaming (changes : List ShareAceChange) (key : String) : Option ShareAceChange :=
  (changes.filter (·.aceKey = some key)).getLast?

/-- `_modified_share_entry`: setting one form of the right clears the other. -/
def modifiedShareEntry (entry : ShareAceRecord) (change : ShareAceChange) :
    Except DomainError ShareAceRecord := do
  let aceType := change.aceType.getD entry.aceType
  let rights := match change.accessMask, change.permission with
    | some mask, _ => (some mask,none)
    | none, some permission => (none,some permission)
    | none, none => (entry.accessMask,entry.permission)
  let token := shareAceRightToken rights.1 rights.2
  let key ← simulatedShareKey casefold entry.shareKey entry.trusteeSid aceType token
  return { entry with
    aceType := aceType
    accessMask := rights.1
    permission := rights.2
    rightToken := token
    aceKey := key
    sourceKey := simulatedSourceKey
    firstObservedAt := simulatedAt
    lastObservedAt := simulatedAt
    firstObservedRunId := simulatedRunId
    lastObservedRunId := simulatedRunId }

def editedShare (changes : List ShareAceChange) (entry : ShareAceRecord) :
    Except DomainError (List ShareAceRecord) :=
  match shareChangeNaming changes entry.aceKey with
  | none => .ok [entry]
  | some change =>
    if change.kind = .removeShareAce then .ok []
    else (fun modified => [modified]) <$> modifiedShareEntry casefold entry change

/-- `_added_share_entry`. -/
def addedShareEntry (change : ShareAceChange) : Except DomainError ShareAceRecord :=
  match change.trusteeSid, change.aceType with
  | some trusteeSid, some aceType => do
    let sid ← Sid.parse trusteeSid
    let share ← parseShareIdentifier (shareKeyOf change.share)
    let token := shareAceRightToken change.accessMask change.permission
    let key ← simulatedShareKey casefold (shareKeyOf change.share) trusteeSid aceType token
    return {
      aceKey := key
      shareKey := shareKeyOf change.share
      trusteeSid := trusteeSid
      trusteeKey := referencedPrincipalKey casefold sid share.server
      aceType := aceType
      accessMask := change.accessMask
      permission := change.permission
      rightToken := token
      orderIndex := change.orderIndex
      sourceKey := simulatedSourceKey
      firstObservedAt := simulatedAt
      firstObservedRunId := simulatedRunId
      lastObservedAt := simulatedAt
      lastObservedRunId := simulatedRunId }
  | _, _ => .error { message := "An addition must carry a trustee and a type.", field := "trustee_sid" }

def addShare (result : List ShareAceRecord) (change : ShareAceChange) :
    Except DomainError (List ShareAceRecord) :=
  if change.kind ≠ .addShareAce then .ok result
  else do
    let candidate ← addedShareEntry casefold change
    return insertNew sameShareAce ShareAceRecord.band result candidate change.orderIndex

def ShareAceRecord.placedAt (r : ShareAceRecord) (index : ℤ) : ShareAceRecord :=
  { r with orderIndex := some index }

/-- `share_changes_for`. -/
def shareChangesFor (overlay : SimulationOverlay) (shareKey : String) : List ShareAceChange :=
  overlay.shareAces.filter fun s => shareKeyOf s.share = casefold shareKey

/-- `overlay_share_acl`. A list that nobody read is left empty. -/
def overlayShareAcl (overlay : SimulationOverlay) (shareKey : String)
    (baseline : List ShareAceRecord) : Except DomainError (List ShareAceRecord) :=
  let changes := shareChangesFor casefold overlay (casefold shareKey)
  if changes = [] ∨ baseline = [] then .ok baseline
  else do
    let ordered := baseline.all (·.orderIndex.isSome)
    let edited ← baseline.mapM (editedShare casefold changes)
    let entries ← changes.foldlM (addShare casefold) edited.flatten
    return renumbered ShareAceRecord.placedAt entries ordered

end Keys

end Adg.SimulatedAcls
