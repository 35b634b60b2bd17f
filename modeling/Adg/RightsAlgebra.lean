import Adg.Observation

/-!
# The rights algebra

A mask carries the layer it answers for. Operations across layers are
refused; the one way to combine them is `effectiveRights`, which expands the
generic bits of both sides before intersecting.
-/

set_option autoImplicit false

namespace Adg.RightsAlgebra
open Adg.Observation

namespace ExtendedRight
def accessSystemSecurity : AccessMask := 0x01000000#32
def maximumAllowed : AccessMask := 0x02000000#32
end ExtendedRight

def genericRightBits : AccessMask :=
  NtfsRight.genericAll ||| NtfsRight.genericExecute ||| NtfsRight.genericWrite |||
    NtfsRight.genericRead

def fileGenericRead : AccessMask := 0x00120089#32
def fileGenericWrite : AccessMask := 0x00120116#32
def fileGenericExecute : AccessMask := 0x001200A0#32
def fileAllAccess : AccessMask := 0x001F01FF#32

/-- The `GENERIC_MAPPING` of file and directory objects, in table order. -/
def fileSystemGenericMapping : List (AccessMask × AccessMask) :=
  [(NtfsRight.genericRead, fileGenericRead), (NtfsRight.genericWrite, fileGenericWrite),
    (NtfsRight.genericExecute, fileGenericExecute), (NtfsRight.genericAll, fileAllAccess)]

def escalationRightBits : AccessMask := NtfsRight.writeDac ||| NtfsRight.writeOwner

def knownBits : AccessMask :=
  NtfsRight.all.foldl (· ||| ·) (ExtendedRight.accessSystemSecurity ||| ExtendedRight.maximumAllowed)

inductive RightsLayer where
  | smbShare
  | ntfs
  | effective
  deriving DecidableEq, Repr

def RightsLayer.value : RightsLayer → String
  | .smbShare => "smb_share"
  | .ntfs => "ntfs"
  | .effective => "effective"

inductive AccessPath where
  | remoteSmb
  | localPath
  deriving DecidableEq, Repr

def AccessPath.value : AccessPath → String
  | .remoteSmb => "remote_smb"
  | .localPath => "local"

structure RightsMask where
  value : AccessMask
  layer : RightsLayer := .ntfs
  deriving DecidableEq, Repr

namespace RightsMask

def isEmpty (m : RightsMask) : Bool := m.value = 0

def hasGenericRights (m : RightsMask) : Bool := m.value &&& genericRightBits ≠ 0

def isIndeterminate (m : RightsMask) : Bool := m.value &&& ExtendedRight.maximumAllowed ≠ 0

def unrecognizedBits (m : RightsMask) : AccessMask := m.value &&& ~~~knownBits

/-- The recognized rights present in the mask, one member at a time. -/
def rights (m : RightsMask) : AccessMask :=
  NtfsRight.all.foldl (fun known bit => if m.value &&& bit = bit then known ||| bit else known) 0

def escalationRights (m : RightsMask) : AccessMask := m.rights &&& escalationRightBits

/-- One row of the mapping applied to the raw value. -/
def expandOne (raw expanded : AccessMask) (row : AccessMask × AccessMask) : AccessMask :=
  if raw &&& row.1 ≠ 0 then expanded ||| row.2 else expanded

def expandGenerics (m : RightsMask) : RightsMask :=
  if m.hasGenericRights then
    { value := fileSystemGenericMapping.foldl (expandOne m.value) (m.value &&& ~~~genericRightBits)
      layer := m.layer }
  else m

def layerError (a b : RightsMask) (operation : String) : DomainError :=
  { message := s!"Cannot {operation} a '{a.layer.value}' mask with a '{b.layer.value}' mask. SMB and NTFS rights are separate claims; use effective_rights() to combine them for a specific access path."
    field := "layer"
    raised := .rightsLayer }

/-- Every binary operation checks the layers first and keeps them. -/
def combine (operation : String) (op : AccessMask → AccessMask → AccessMask)
    (a b : RightsMask) : Except DomainError RightsMask :=
  if a.layer = b.layer then .ok ⟨op a.value b.value,a.layer⟩
  else .error (layerError a b operation)

def union : RightsMask → RightsMask → Except DomainError RightsMask :=
  combine "union" (· ||| ·)

def difference : RightsMask → RightsMask → Except DomainError RightsMask :=
  combine "subtract" (fun a b => a &&& ~~~b)

@[simp] theorem union_same (a b : AccessMask) (l : RightsLayer) :
    union ⟨a,l⟩ ⟨b,l⟩ = .ok ⟨a ||| b,l⟩ := by
  simp [union, combine]

@[simp] theorem expandGenerics_layer (m : RightsMask) : m.expandGenerics.layer = m.layer := by
  unfold expandGenerics
  split <;> rfl

theorem expandOne_clears (raw expanded : AccessMask) (row : AccessMask × AccessMask)
    (hr : row.2 &&& genericRightBits = 0) (he : expanded &&& genericRightBits = 0) :
    expandOne raw expanded row &&& genericRightBits = 0 := by
  unfold expandOne
  split
  · rw [BitVec.and_comm, BitVec.and_or_distrib_left, BitVec.and_comm, he, BitVec.and_comm, hr]
    rfl
  · exact he

theorem mapping_clears (rows : List (AccessMask × AccessMask)) (raw expanded : AccessMask)
    (hr : ∀ row ∈ rows, row.2 &&& genericRightBits = 0)
    (he : expanded &&& genericRightBits = 0) :
    rows.foldl (expandOne raw) expanded &&& genericRightBits = 0 := by
  induction rows generalizing expanded with
  | nil => exact he
  | cons row rows ih =>
    exact ih _ (fun r h => hr r (by simp [h]))
      (expandOne_clears raw expanded row (hr row (by simp)) he)

theorem mapping_specific :
    fileSystemGenericMapping.all (fun row => row.2 &&& genericRightBits == 0) = true := by
  decide

/-- After expansion no generic bit is left to interpret. -/
theorem expanded_specific (m : RightsMask) :
    m.expandGenerics.value &&& genericRightBits = 0 := by
  unfold expandGenerics
  split
  · apply mapping_clears
    · intro row hrow
      exact beq_iff_eq.mp (List.all_eq_true.mp mapping_specific row hrow)
    · rw [BitVec.and_assoc, BitVec.and_comm (~~~genericRightBits)]
      simp
  · simp_all [hasGenericRights]

theorem expand_specific (m : RightsMask) (h : m.value &&& genericRightBits = 0) :
    m.expandGenerics = m := by
  simp [expandGenerics, hasGenericRights, h]

end RightsMask

/-- A mask with no generic bits left: what an evaluation reports. -/
def Specific (v : AccessMask) : Prop := v &&& genericRightBits = 0

instance (v : AccessMask) : Decidable (Specific v) := inferInstanceAs (Decidable (_ = _))

theorem specific_or {a b : AccessMask} (ha : Specific a) (hb : Specific b) :
    Specific (a ||| b) := by
  unfold Specific at *
  rw [BitVec.and_comm, BitVec.and_or_distrib_left, BitVec.and_comm, ha, BitVec.and_comm, hb]
  rfl

theorem specific_and_left {a : AccessMask} (b : AccessMask) (ha : Specific a) :
    Specific (a &&& b) := by
  unfold Specific at *
  rw [BitVec.and_assoc, BitVec.and_comm b, ← BitVec.and_assoc, ha]
  simp

structure NormalizedRights where
  raw : RightsMask
  normalized : RightsMask
  expandedGenerics : AccessMask
  unrecognizedBits : AccessMask
  indeterminate : Bool

def NormalizedRights.wasGeneric (n : NormalizedRights) : Bool := n.expandedGenerics ≠ 0

def normalizeMask (m : RightsMask) : NormalizedRights where
  raw := m
  normalized := m.expandGenerics
  expandedGenerics := m.rights &&& genericRightBits
  unrecognizedBits := m.unrecognizedBits
  indeterminate := m.isIndeterminate

/-- `SHARE_LEVEL_MASKS`. -/
def shareLevelMask : SharePermission → AccessMask
  | .read => 0x001200A9#32
  | .change => 0x001301BF#32
  | .full => fileAllAccess

def normalizeSharePermission (level : SharePermission) : RightsMask :=
  ⟨shareLevelMask level,.smbShare⟩

/-- The result of combining the layers. The fields below the data are what
`__post_init__` checks, so a result of the wrong shape cannot be built. -/
structure EffectiveRights where
  path : AccessPath
  rights : RightsMask
  ntfsRights : RightsMask
  shareRights : Option RightsMask
  rights_effective : rights.layer = .effective
  ntfs_layer : ntfsRights.layer = .ntfs
  share_layer : ∀ s, shareRights = some s → s.layer = .smbShare
  share_by_path : path = .remoteSmb ↔ shareRights.isSome

namespace EffectiveRights

def limitedByShare (e : EffectiveRights) : Bool :=
  match e.shareRights with
  | none => false
  | some s => e.ntfsRights.value &&& ~~~s.value ≠ 0

def limitedByNtfs (e : EffectiveRights) : Bool :=
  match e.shareRights with
  | none => false
  | some s => s.value &&& ~~~e.ntfsRights.value ≠ 0

end EffectiveRights

def effectiveRights (ntfs : RightsMask) (path : AccessPath) (share : Option RightsMask) :
    Except DomainError EffectiveRights :=
  if hn : ntfs.layer = .ntfs then
    match path, share with
    | .localPath, some _ => .error
        { message := "Local access does not consult the share ACL; passing share rights for a local path would imply a restriction Windows does not apply."
          field := "share", raised := .rights }
    | .localPath, none => .ok
        { path := .localPath
          rights := ⟨ntfs.expandGenerics.value,.effective⟩
          ntfsRights := ntfs
          shareRights := none
          rights_effective := rfl
          ntfs_layer := hn
          share_layer := by simp
          share_by_path := by simp }
    | .remoteSmb, none => .error
        { message := "Remote SMB access requires the share rights: without them the share ACL would be treated as unrestricted, which over-reports access."
          field := "share", raised := .rights }
    | .remoteSmb, some s =>
      if hs : s.layer = .smbShare then .ok
        { path := .remoteSmb
          rights := ⟨s.expandGenerics.value &&& ntfs.expandGenerics.value,.effective⟩
          ntfsRights := ntfs
          shareRights := some s
          rights_effective := rfl
          ntfs_layer := hn
          share_layer := by simp [hs]
          share_by_path := by simp }
      else .error
        { message := s!"share must be a share mask; received '{s.layer.value}'."
          field := "share", raised := .rightsLayer }
  else .error
    { message := s!"ntfs must be an NTFS mask; received '{ntfs.layer.value}'."
      field := "ntfs", raised := .rightsLayer }

/-- `f"0x{value:08X}"`. -/
def hex8 (v : AccessMask) : String := "0x" ++ v.toHex.toUpper

end Adg.RightsAlgebra
