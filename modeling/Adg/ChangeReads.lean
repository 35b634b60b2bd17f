import Adg.AclNormalForm
import Adg.ChangeClassification
import Adg.ChangeScopes
import Adg.VersionTable

/-!
# What a change reads from the record

Some facts about a transition are answered by other rows of the version table:
whether the container was there before, when a sibling was last confirmed and
whether the normalized ACL around an entry moved with it.
-/

set_option autoImplicit false

namespace Adg.ChangeReads
open Adg.Observation Adg.ObjectVersions Adg.VersionTable Adg.SortedLists Adg.AclNormalForm
open Adg.ChangeFields Adg.ChangeRules Adg.ChangeClassification

/-- The earliest of some instants. -/
def earliest (instants : List Instant) : Option Instant := instants.min?

def latest (instants : List Instant) : Option Instant := instants.max?

/-- `first_present_at`, for one object. -/
def firstPresentAt (t : Table) (object : Object) : Option Instant :=
  earliest ((t.rows.filter fun v => v.object = object ∧ v.isPresent).map (·.validFrom))

/-- `container_confirmed_before`, for one container and instant. -/
def containerConfirmedBefore (t : Table) (kind : ObservationKind) (container : String)
    (moment : Instant) : Option Instant :=
  latest ((t.rows.filter fun v => v.kind = kind ∧ v.containerKey = some container ∧
    v.lastSeenAt < moment).map (·.lastSeenAt))

/-- The container of a version, when its kind has one and it is named. -/
def containerOf (v : ObjectVersion) : Option Object :=
  match containerKindOf v.kind, v.containerKey.filter (· ≠ "") with
  | some kind, some key => some (kind,key)
  | _, _ => none

/-- `_container_observed`, with the answer `_container_coverage` asked for. -/
def containerObserved (t : Table) (v : ObjectVersion) : Option Bool :=
  ((containerOf v).bind (firstPresentAt t)).map fun first => first < v.validFrom

/-- `_container_confirmed`, with the answer `_container_confirmations` asked for. -/
def containerConfirmed (t : Table) (v : ObjectVersion) : Option Instant :=
  (v.containerKey.filter (· ≠ "")).bind fun c => containerConfirmedBefore t v.kind c v.validFrom

/-- `VersionReader._at`. -/
def versionsAt (t : Table) (kind : ObservationKind) (moment : Instant) : List ObjectVersion :=
  t.rows.filter fun v => v.kind = kind ∧ v.covers moment

/-- `contained_at`, what is present only. -/
def containedAt (t : Table) (kind : ObservationKind) (container : String) (moment : Instant) :
    List ObjectVersion :=
  sortedBy (·.key) ((versionsAt t kind moment).filter fun v =>
    v.containerKey = some container ∧ v.isPresent)

def versionAt (t : Table) (object : Object) (moment : Instant) : Option ObjectVersion :=
  (versionsAt t object.1 moment).find? (·.key = object.2)

/-- `bool` of a column. -/
def truthOf : Value → Bool
  | .truth b => b
  | .whole n => n ≠ 0
  | .text s => s ≠ ""
  | .null => false

/-- `bool(state.get(name, default))`. -/
def truthOr (state : State) (name : String) (default : Bool) : Bool :=
  (state.lookup name).elim default truthOf

/-- `f"{value}"` of a column. -/
def shown : Value → String
  | .text s => s
  | .whole n => toString n
  | .truth true => "True"
  | .truth false => "False"
  | .null => "None"

def wholeOf : Value → Option ℤ
  | .whole n => some n
  | _ => none

/-- `_facts`. The columns of a stored entry are of the type they are read as. -/
def aceFacts (state : State) : Except DomainError AclAceFacts :=
  let aceType := if valueOf state "ace_type" = .text "deny" then AceType.deny else .allow
  AclAceFacts.build (shown (valueOf state "trustee_sid")) aceType
    ((wholeOf (valueOf state "access_mask")).getD 0) ((wholeOf (valueOf state "ace_flags")).getD 0)
    (wholeOf (valueOf state "order_index"))

/-- `_share_sequence`. -/
def shareSequence (states : List State) : String :=
  let ordered := states.all fun s => valueOf s "order_index" ≠ .null
  let content (s : State) : String := shown (valueOf s "trustee_key") ++ "|" ++
    shown (valueOf s "ace_type") ++ "|" ++ shown (valueOf s "right_token")
  let rendered := if ordered then
      sortedBy (fun s => toLex ((wholeOf (valueOf s "order_index")).getD 0,content s)) states
    else sortedBy content states
  let lines := ["adg-share-acl/1", "order=" ++ if ordered then "observed" else "unordered"] ++
    rendered.map content
  String.join (lines.map (· ++ "\n"))

section Digests
variable (sha256 : String → String)

/-- `_normalized_acl`. -/
def normalizedAcl (t : Table) (kind : ObservationKind) (container : String) (moment : Instant) :
    Option String :=
  let states := (containedAt t kind container moment).filterMap (·.state)
  if kind = .smbAce then some (shareSequence states)
  else do
    let resource ← versionAt t (.ntfsResource,container) moment
    let state ← resource.state
    let entries ← (states.mapM aceFacts).toOption
    let normalized ← (normalizeAcl sha256 (truthOr state "dacl_present" true)
      (truthOr state "dacl_protected" false) entries).toOption
    return normalized.digest

/-- `_acl_moved`. -/
def aclMoved (t : Table) (kind : ObservationKind) (container : String) (was now : Instant) :
    Option Bool :=
  match normalizedAcl sha256 t kind container was, normalizedAcl sha256 t kind container now with
  | some before, some after => some (before ≠ after)
  | _, _ => none

/-- `key_of`. -/
def keyOf (c : ObjectChange) : Object × Instant := (c.object,c.openedAt)

/-- What `ordering_materiality` answers for one candidate. Candidates of one
container and one pair of instants share a reconstruction. -/
def orderingVerdict (t : Table) (c : ObjectChange) : Option Bool := do
  let container ← c.after.containerKey.filter (· ≠ "")
  let before ← c.before
  aclMoved sha256 t c.kind container before.lastSeenAt c.after.validFrom

/-- `ordering_materiality`. -/
def orderingMateriality (t : Table) (changes : List ObjectChange) :
    List ((Object × Instant) × Option Bool) :=
  (changes.filter isOrderOnly).map fun c => (keyOf c,orderingVerdict sha256 t c)

/-- The two passes over a batch: what the first one classifies as a change of
position only is classified again with the answer about the ACL. -/
def classifyTwice (t : Table) (pairs : List (Option ObjectVersion × ObjectVersion))
    (surroundings : Option ObjectVersion × ObjectVersion → Surroundings) : List ObjectChange :=
  let changes := pairs.map fun p => classify p.1 p.2 (surroundings p)
  let materiality := orderingMateriality sha256 t changes
  if materiality = [] then changes
  else pairs.map fun p =>
    let first := classify p.1 p.2 (surroundings p)
    classify p.1 p.2 { surroundings p with
      orderingMaterial := (materiality.lookup (keyOf first)).join }

/-- One transition, decided by itself. -/
def decided (t : Table) (before : Option ObjectVersion) (after : ObjectVersion)
    (s : Surroundings) : ObjectChange :=
  let first := classify before after s
  if isOrderOnly first then
    classify before after { s with orderingMaterial := orderingVerdict sha256 t first }
  else first

end Digests

section Deciding
variable {sha256 : String → String} {t : Table}

theorem keyOf_classify (before : Option ObjectVersion) (after : ObjectVersion) (s : Surroundings) :
    keyOf (classify before after s) = (after.object,after.validFrom) := rfl

/-- Whatever the ACL answers, the transition is classified from the same versions. -/
theorem decided_eq (before : Option ObjectVersion) (after : ObjectVersion) (s : Surroundings) :
    ∃ m, decided sha256 t before after s = classify before after { s with orderingMaterial := m } := by
  unfold decided
  dsimp only
  split_ifs
  · exact ⟨_,rfl⟩
  · exact ⟨s.orderingMaterial,rfl⟩

theorem orderingMateriality_lookup {changes : List ObjectChange}
    (hkeys : (changes.map keyOf).Nodup) {c : ObjectChange} (hc : c ∈ changes) :
    ((orderingMateriality sha256 t changes).lookup (keyOf c)).join =
      if isOrderOnly c then orderingVerdict sha256 t c else none := by
  unfold orderingMateriality
  rw [lookup_answers keyOf isOrderOnly (orderingVerdict sha256 t) hkeys hc]
  split_ifs <;> rfl

/-- Over versions with different keys the batch decides every transition by itself. -/
theorem classifyTwice_eq {pairs : List (Option ObjectVersion × ObjectVersion)}
    {surroundings : Option ObjectVersion × ObjectVersion → Surroundings}
    (hkeys : (pairs.map fun p => (p.2.object,p.2.validFrom)).Nodup)
    (hfresh : ∀ p ∈ pairs, (surroundings p).orderingMaterial = none) :
    classifyTwice sha256 t pairs surroundings =
      pairs.map fun p => decided sha256 t p.1 p.2 (surroundings p) := by
  set first := fun p : Option ObjectVersion × ObjectVersion => classify p.1 p.2 (surroundings p)
    with hfirst
  have hnodup : ((pairs.map first).map keyOf).Nodup := by
    rw [List.map_map]
    exact hkeys
  have hplain : ∀ p ∈ pairs, isOrderOnly (first p) = false →
      decided sha256 t p.1 p.2 (surroundings p) = first p := by
    intro p _ h
    simp [decided, hfirst] at h ⊢
    simp [h]
  unfold classifyTwice
  dsimp only
  split_ifs with hempty
  · refine List.map_congr_left fun p hp => (hplain p hp ?_).symm
    have hnone := List.filter_eq_nil_iff.mp (List.map_eq_nil_iff.mp hempty)
    exact Bool.not_eq_true _ ▸ hnone _ (List.mem_map_of_mem hp)
  · refine List.map_congr_left fun p hp => ?_
    have hmem : first p ∈ pairs.map first := List.mem_map_of_mem hp
    rw [orderingMateriality_lookup hnodup hmem]
    by_cases horder : isOrderOnly (first p) = true
    · rw [if_pos horder]
      unfold decided
      dsimp only
      rw [if_pos horder]
    · have hsame : { surroundings p with orderingMaterial := none } = surroundings p := by
        rw [← hfresh p hp]
      rw [if_neg horder, hsame]
      exact (hplain p hp (Bool.not_eq_true _ ▸ horder)).symm

end Deciding

end Adg.ChangeReads
