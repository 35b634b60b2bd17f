import Adg.ObjectVersions
import Adg.RightsAlgebra
import Adg.SecurityIdentifier
import Adg.SortedLists

/-!
# The normal form of a list of entries

A DACL is reduced to one document: whether there is one, whether it inherits,
and its entries by rank. Positions count only through the order they put the
entries in, and a reading without positions says so.
-/

set_option autoImplicit false

namespace Adg.AclNormalForm
open Adg.Observation Adg.ObjectVersions Adg.SecurityIdentifier Adg.SortedLists

/-- `AclAceFacts`, with the widths that `__post_init__` checks. -/
structure AclAceFacts where
  trusteeSid : Sid
  aceType : AceType
  accessMask : AccessMask
  aceFlags : AceFlags
  orderIndex : Option ℕ

/-- The checks of `__post_init__`, in its order. -/
def AclAceFacts.build (trusteeSid : String) (aceType : AceType) (accessMask aceFlags : ℤ)
    (orderIndex : Option ℤ) : Except DomainError AclAceFacts := do
  if accessMask < 0 ∨ 0xFFFFFFFF < accessMask then
    throw { message := s!"An access mask must be an unsigned 32-bit value; received {accessMask}.", field := "access_mask" }
  if aceFlags < 0 ∨ 0xFF < aceFlags then
    throw { message := s!"ACE flags are a single byte; received {aceFlags}.", field := "ace_flags" }
  match orderIndex.filter (· < 0) with
  | some index => throw { message := s!"order_index must be non-negative; received {index}.", field := "order_index" }
  | none =>
    let sid ← Sid.parse trusteeSid
    return ⟨sid,aceType,BitVec.ofInt 32 accessMask,BitVec.ofInt 8 aceFlags,orderIndex.map Int.toNat⟩

/-- A number in a given base behind as many zeros as its width asks for. -/
def zeroPadded (base width n : ℕ) : String :=
  let digits := Nat.toDigits base n
  String.ofList (List.replicate (width-digits.length) '0' ++ digits)

namespace AclAceFacts

def contentLine (f : AclAceFacts) : String :=
  f.trusteeSid.value ++ "|" ++ f.aceType.value ++ "|0x" ++ zeroPadded 16 8 f.accessMask.toNat ++
    "|0x" ++ zeroPadded 16 2 f.aceFlags.toNat

/-- What `_ace_lines` sorts by when every entry has a position. -/
def positionKey (f : AclAceFacts) : String :=
  zeroPadded 10 10 (f.orderIndex.getD 0) ++ "|" ++ f.contentLine

end AclAceFacts

structure NormalizedAcl where
  text : String
  digest : String
  ordered : Bool
  aceCount : ℕ
  deriving DecidableEq, Repr

def flagText (value : Bool) : String := if value then "true" else "false"

/-- The numbers of a list that stand in it more than once, in order. -/
def repeated (positions : List ℕ) : List ℕ :=
  sortedBy id (positions.filter fun index => 1 < positions.count index).dedup

/-- `_ace_lines`. -/
def aceLines (entries : List AclAceFacts) (ordered : Bool) : Except DomainError (List String) :=
  if ¬ ordered then
    .ok ((sortedBy id (entries.map (·.contentLine))).map fun line => "ace=-|" ++ line)
  else
    let duplicated := repeated (entries.filterMap (·.orderIndex))
    if duplicated ≠ [] then
      .error { message := s!"Two ACEs claim DACL position(s) {duplicated}. A position identifies one entry in the evaluation order; duplicates would make the normalized form depend on the order the entries happened to be read back in. Report each ACE's own index, or omit order_index entirely and accept an unordered hash.", field := "order_index" }
    else
      .ok ((sortedBy AclAceFacts.positionKey entries).mapIdx fun rank entry =>
        "ace=" ++ toString rank ++ "|" ++ entry.contentLine)

section Digests
variable (sha256 : String → String)

/-- `normalize_acl`. -/
def normalizeAcl (daclPresent daclProtected : Bool) (aces : List AclAceFacts) :
    Except DomainError NormalizedAcl := do
  if ¬ daclPresent ∧ aces ≠ [] then
    let supplied := aces.length
    throw { message := s!"A NULL DACL (dacl_present=false) grants everyone full access and carries no ACEs, but {supplied} were supplied. A present-but-empty DACL — which grants nobody access — is the opposite fact and is reported as dacl_present=true with no entries.", field := "dacl_present" }
  let ordered := aces.all (·.orderIndex.isSome)
  let entries ← aceLines aces ordered
  let lines := ["adg-acl/1", "dacl_present=" ++ flagText daclPresent,
    "dacl_protected=" ++ flagText daclProtected,
    "order=" ++ if ordered then "observed" else "unordered"] ++ entries
  let text := String.join (lines.map (· ++ "\n"))
  return ⟨text,sha256 text,ordered,aces.length⟩

/-- The order in which unordered entries are handed over does not matter. -/
theorem aceLines_unordered {entries entries' : List AclAceFacts} (h : entries.Perm entries') :
    aceLines entries false = aceLines entries' false := by
  have hsorted : sortedBy id (entries.map (·.contentLine)) =
      sortedBy id (entries'.map (·.contentLine)) := by
    refine List.Perm.eq_of_pairwise (fun a b _ _ hab hba => le_antisymm hab hba)
      (sortedBy_ordered id _) (sortedBy_ordered id _) ?_
    exact ((sortedBy_perm id _).trans (h.map _)).trans (sortedBy_perm id _).symm
  simp [aceLines, hsorted]

end Digests

end Adg.AclNormalForm
