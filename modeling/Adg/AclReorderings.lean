import Adg.AclDocument
import Adg.ChangeReads
import Adg.Fallible

/-!
# Positions that moved

An entry whose position is all that moved is decided by the ACL around it, rebuilt at
the last instant the old position was seen and at the first one the new position was.
The answer is about the whole ACL: that its entries stand in another order, that there
are others, or that it is protected otherwise.
-/

set_option autoImplicit false

namespace Adg.AclReorderings
open Adg.Observation Adg.SecurityIdentifier Adg.ObjectVersions Adg.VersionTable Adg.SortedLists
open Adg.AclNormalForm Adg.AclDocument Adg.ChangeRules Adg.ChangeClassification Adg.ChangeReads
open Adg.Fallible (bind_ok)

/-! ### Two readings of an ACL -/

/-- The place that an entry reports. -/
def place (v : ObjectVersion) : ℤ :=
  (wholeOf (valueOf (v.state.getD []) "order_index")).getD 0

/-- What the key of an entry is made of, which is all but its place. -/
def unplaced (kind : ObservationKind) (v : ObjectVersion) : List Value :=
  let columns := if kind = .smbAce then ["trustee_key", "ace_type", "right_token"]
    else ["trustee_sid", "ace_type", "access_mask", "ace_flags"]
  columns.map (valueOf (v.state.getD []))

/-- A reading of an ACL: the entries have different keys and stand at different places, which
their column holds. -/
structure Reading (l : List ObjectVersion) : Prop where
  placed : ∀ v ∈ l, ∃ s n, v.state = some s ∧ valueOf s "order_index" = .whole n ∧ 0 ≤ n ∧
    n < 2^31
  keys : (l.map (·.key)).Nodup
  places : (l.map place).Nodup

section Readings
variable {kind : ObservationKind} {before after l : List ObjectVersion}

/-- A reading is of states that report whole places. -/
theorem Reading.states (h : Reading l) :
    l.filterMap (·.state) = l.map fun v => v.state.getD [] := by
  rw [← List.filterMap_eq_map]
  apply List.filterMap_congr
  intro v hv
  obtain ⟨s,-,hs,-⟩ := h.placed v hv
  simp [hs]

theorem Reading.whole (h : Reading l) {v : ObjectVersion} (hv : v ∈ l) :
    valueOf (v.state.getD []) "order_index" = .whole (place v) ∧ 0 ≤ place v ∧ place v < 2^31 := by
  obtain ⟨s,n,hs,hn,hrange⟩ := h.placed v hv
  have hplace : place v = n := by
    unfold place
    rw [hs, Option.getD_some, hn]
    rfl
  rw [hs, Option.getD_some, hplace]
  exact ⟨hn,hrange⟩

/-- The facts that pass the checks hold what they were built of. -/
theorem build_ok {sid : String} {aceType : AceType} {mask flags : ℤ} {index : Option ℤ}
    {f : AclAceFacts} (h : AclAceFacts.build sid aceType mask flags index = .ok f) :
    ∃ trustee, Sid.parse sid = .ok trustee ∧
      f = ⟨trustee,aceType,BitVec.ofInt 32 mask,BitVec.ofInt 8 flags,index.map Int.toNat⟩ := by
  unfold AclAceFacts.build at h
  by_cases hmask : mask < 0 ∨ 0xFFFFFFFF < mask
  · rw [if_pos hmask] at h
    cases h
  rw [if_neg hmask] at h
  by_cases hflags : flags < 0 ∨ 0xFF < flags
  · simp only [if_pos hflags] at h
    cases h
  simp only [if_neg hflags] at h
  cases hnegative : index.filter (· < 0) with
  | some n =>
    simp only [hnegative] at h
    cases h
  | none =>
    simp only [hnegative] at h
    obtain ⟨trustee,hsid,hmade⟩ := bind_ok.mp h
    exact ⟨trustee,hsid,(Except.ok.inj hmade).symm⟩

end Readings

/-! ### What the answer says -/

section Answers
variable {sha256 : String → String} {t : Table} {kind : ObservationKind} {container : String}
  {was now moment : Instant}

end Answers

namespace Sample

def folder : String := "\\\\fs\\s\\d"

def directory : ObjectVersion where
  versionId := 0
  kind := .ntfsResource
  key := folder
  containerKey := some "fs|s"
  relatedKey := some "fs"
  isPresent := true
  state := some [("path",.text folder), ("dacl_present",.truth true),
    ("dacl_protected",.truth false)]
  stateHash := some "d0"
  validFrom := 0
  lastSeenAt := 10
  openedByRunId := "r1"
  lastSeenRunId := "r2"

/-- An entry that lets a group read, at a place. -/
def entryState (group : String) (index : ℤ) : State :=
  [("trustee_sid",.text group), ("ace_type",.text "allow"), ("access_mask",.whole 1179785),
    ("ace_flags",.whole 0), ("order_index",.whole index)]

def users : ObjectVersion where
  versionId := 1
  kind := .ntfsAce
  key := folder ++ "|S-1-5-32-545|allow|0x00120089|0x00"
  containerKey := some folder
  relatedKey := some "fs|S-1-5-32-545"
  isPresent := true
  state := some (entryState "S-1-5-32-545" 0)
  stateHash := some "d1"
  validFrom := 0
  lastSeenAt := 4
  validTo := some 10
  closeReason := some .superseded
  openedByRunId := "r1"
  lastSeenRunId := "r1"
  closedByRunId := some "r2"

/-- The same entry one place further down. -/
def usersBelow : ObjectVersion where
  versionId := 2
  kind := .ntfsAce
  key := folder ++ "|S-1-5-32-545|allow|0x00120089|0x00"
  containerKey := some folder
  relatedKey := some "fs|S-1-5-32-545"
  isPresent := true
  state := some (entryState "S-1-5-32-545" 1)
  stateHash := some "d2"
  validFrom := 10
  lastSeenAt := 10
  openedByRunId := "r2"
  lastSeenRunId := "r2"

/-- The entry that was put in front of it. -/
def guests : ObjectVersion where
  versionId := 3
  kind := .ntfsAce
  key := folder ++ "|S-1-5-32-546|allow|0x00120089|0x00"
  containerKey := some folder
  relatedKey := some "fs|S-1-5-32-546"
  isPresent := true
  state := some (entryState "S-1-5-32-546" 0)
  stateHash := some "d3"
  validFrom := 10
  lastSeenAt := 10
  openedByRunId := "r2"
  lastSeenRunId := "r2"

def rows : List ObjectVersion := [directory, users, usersBelow, guests]

theorem rows_valid : (∀ v ∈ rows, v.versionId < 4) ∧ (rows.map (·.versionId)).Nodup ∧
    (∀ v ∈ rows, checks v = true) ∧ rows.Pairwise Compatible := by decide +kernel

theorem rows_fresh : ∀ v ∈ rows, v.versionId < 4 := rows_valid.1

theorem rows_ids : (rows.map (·.versionId)).Nodup := rows_valid.2.1

theorem rows_checked : ∀ v ∈ rows, checks v = true := rows_valid.2.2.1

theorem rows_compatible : rows.Pairwise Compatible := rows_valid.2.2.2

def record : Table where
  rows := rows
  nextId := 4
  ids_fresh := rows_fresh
  ids_nodup := rows_ids
  checked := rows_checked
  compatible := rows_compatible

/-- The entry moved down. -/
def change : ObjectChange :=
  classify (some users) usersBelow { containerObservedBefore := some true }

end Sample

end Adg.AclReorderings
