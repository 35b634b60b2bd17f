import Adg.ObjectVersions

/-!
# Source keys

A source key is the storage key of an object behind the name of its kind, so
one key names one object.
-/

set_option autoImplicit false

namespace Adg.SourceKeys
open Adg.ObjectVersions

/-- What stands before the first bar of a source key of each kind. -/
def keyMark : ObservationKind → List Char
  | .principal => ['p', 'r', 'i', 'n', 'c', 'i', 'p', 'a', 'l']
  | .membershipEdge => ['e', 'd', 'g', 'e']
  | .server => ['s', 'e', 'r', 'v', 'e', 'r']
  | .smbShare => ['s', 'h', 'a', 'r', 'e']
  | .smbAce => ['s', 'm', 'b', '_', 'a', 'c', 'e']
  | .ntfsResource => ['r', 'e', 's', 'o', 'u', 'r', 'c', 'e']
  | .ntfsAce => ['n', 't', 'f', 's', '_', 'a', 'c', 'e']

/-- `derive_source_key`, from the storage key. -/
def sourceKeyOf (o : Object) : String :=
  String.ofList (keyMark o.1 ++ '|' :: o.2.toList)

theorem keyMark_takeWhile (kind : ObservationKind) (rest : List Char) :
    (keyMark kind ++ '|' :: rest).takeWhile (· ≠ '|') = keyMark kind := by
  cases kind <;> simp [keyMark, List.takeWhile]

theorem keyMark_injective : Function.Injective keyMark := by
  intro a b h
  cases a <;> cases b <;> first | rfl | (revert h; decide)

theorem sourceKeyOf_injective : Function.Injective sourceKeyOf := by
  rintro ⟨k,x⟩ ⟨l,y⟩ h
  have hlist : keyMark k ++ '|' :: x.toList = keyMark l ++ '|' :: y.toList := by
    have := congrArg String.toList h
    simpa only [sourceKeyOf, String.toList_ofList] using this
  have hmark : keyMark k = keyMark l := by
    rw [← keyMark_takeWhile k x.toList, hlist, keyMark_takeWhile]
  obtain rfl := keyMark_injective hmark
  have hrest : x.toList = y.toList := by simpa using hlist
  rw [String.ext hrest]

example : sourceKeyOf (.ntfsResource,"\\\\fs01\\finance") = "resource|\\\\fs01\\finance" := by
  decide

end Adg.SourceKeys
