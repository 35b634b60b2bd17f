import Adg.Intervals
import Adg.Observation

/-!
# Versions of an object

A version is one state of one object, with three instants: the reading that
opened it, the newest one that confirmed it and the one that ended it. A
tombstone is a version without a state. The table keeps versions of every
object and refuses a row that breaks one of its constraints.
-/

set_option autoImplicit false

namespace Adg.ObjectVersions
open Adg.Intervals

inductive ObservationKind where
  | principal
  | membershipEdge
  | server
  | smbShare
  | smbAce
  | ntfsResource
  | ntfsAce
  deriving DecidableEq, Repr

def ObservationKind.value : ObservationKind → String
  | .principal => "principal"
  | .membershipEdge => "membership_edge"
  | .server => "server"
  | .smbShare => "smb_share"
  | .smbAce => "smb_ace"
  | .ntfsResource => "ntfs_resource"
  | .ntfsAce => "ntfs_ace"

/-- An instant in UTC, in microseconds. A stored timestamp is always aware of its zone. -/
abbrev Instant := ℤ

abbrev RunId := String

/-- A column of a stored row. The columns of a state hold nothing else. -/
inductive Value where
  | text (s : String)
  | whole (n : ℤ)
  | truth (b : Bool)
  | null
  deriving DecidableEq, Repr

/-- A mapping from column names to values. -/
abbrev State := List (String × Value)

/-- `PROVENANCE_FIELDS` less the columns a version has of its own. -/
def sourceKey : String := "source_key"

/-- `digestible_state`. -/
def digestibleState (state : State) : State := state.filter fun c => c.1 ≠ sourceKey

/-- An object is named by its kind and its storage key. -/
abbrev Object := ObservationKind × String

inductive VersionOrigin where
  | observed
  | backfilled
  deriving DecidableEq, Repr

inductive CloseReason where
  | superseded
  | absent
  deriving DecidableEq, Repr

inductive Certainty where
  | observed
  | inferred
  | backfilled
  | unobserved
  deriving DecidableEq, Repr

structure ObjectVersion where
  versionId : ℕ
  kind : ObservationKind
  key : String
  containerKey : Option String := none
  relatedKey : Option String := none
  isPresent : Bool
  state : Option State
  stateHash : Option String
  origin : VersionOrigin := .observed
  validFrom : Instant
  lastSeenAt : Instant
  validTo : Option Instant := none
  closeReason : Option CloseReason := none
  openedByRunId : RunId
  lastSeenRunId : RunId
  closedByRunId : Option RunId := none
  deriving DecidableEq, Repr

/-- What `ObjectVersion.validate` and `ObjectTimeline` refuse. -/
inductive TemporalInvariantError where
  | confirmedBeforeOpened
  | closedBeforeConfirmed
  | closedWithoutReason
  | closedWithoutRun
  | presenceWithoutState
  | presenceWithoutDigest
  | digestOfAnotherState
  | versionOfAnotherObject
  | openBeforeLast
  | overlapping
  deriving DecidableEq, Repr

def TemporalInvariantError.field : TemporalInvariantError → String
  | .confirmedBeforeOpened => "last_seen_at"
  | .closedBeforeConfirmed => "valid_to"
  | .closedWithoutReason => "close_reason"
  | .closedWithoutRun => "closed_by_run_id"
  | .presenceWithoutState => "state"
  | .presenceWithoutDigest | .digestOfAnotherState => "state_hash"
  | .versionOfAnotherObject | .openBeforeLast | .overlapping => "versions"

namespace ObjectVersion

def object (v : ObjectVersion) : Object := (v.kind,v.key)

def isOpen (v : ObjectVersion) : Bool := v.validTo.isNone

def span (v : ObjectVersion) : Span Instant := ⟨v.validFrom,v.validTo⟩

/-- `covers`. -/
def covers (v : ObjectVersion) (moment : Instant) : Bool :=
  if moment < v.validFrom then false
  else match v.validTo with
    | none => true
    | some e => moment < e

/-- `certainty_at`. -/
def certaintyAt (v : ObjectVersion) (moment : Instant) : Certainty :=
  if ¬ v.covers moment then .unobserved
  else if v.origin = .backfilled then .backfilled
  else if moment ≤ v.lastSeenAt then .observed
  else .inferred

theorem covers_iff (v : ObjectVersion) (moment : Instant) :
    v.covers moment = true ↔ v.span.Covers moment := by
  unfold covers span Span.Covers
  cases hto : v.validTo with
  | none => simp
  | some e => simp

end ObjectVersion

section Digest
variable (hash : State → String)

/-- `state_digest`: the hash of what is left when provenance is dropped. -/
def stateDigest (state : State) : String := hash (digestibleState state)

/-- `ObjectVersion.validate`. -/
def ObjectVersion.validate (v : ObjectVersion) : Except TemporalInvariantError ObjectVersion :=
  if v.lastSeenAt < v.validFrom then .error .confirmedBeforeOpened
  else if v.validTo.any (· < v.lastSeenAt) then .error .closedBeforeConfirmed
  else if v.validTo.isNone ≠ v.closeReason.isNone then .error .closedWithoutReason
  else if v.validTo.isNone ≠ v.closedByRunId.isNone then .error .closedWithoutRun
  else if v.isPresent ≠ v.state.isSome then .error .presenceWithoutState
  else if v.isPresent ≠ v.stateHash.isSome then .error .presenceWithoutDigest
  else if v.state.any (fun s => v.stateHash ≠ some (stateDigest hash s)) then
    .error .digestOfAnotherState
  else .ok v

end Digest

/-- `ObjectTimeline.__post_init__`, after the version that comes before. -/
def checkTimeline (object : Object) :
    Option ObjectVersion → List ObjectVersion → Except TemporalInvariantError Unit
  | _, [] => .ok ()
  | previous, v :: vs =>
    if v.object ≠ object then .error .versionOfAnotherObject
    else match previous with
      | none => checkTimeline object (some v) vs
      | some p =>
        match p.validTo with
        | none => .error .openBeforeLast
        | some e => if v.validFrom < e then .error .overlapping else checkTimeline object (some v) vs

/-- `ObjectTimeline`: the versions of one object, oldest first. -/
structure ObjectTimeline where
  object : Object
  versions : List ObjectVersion
  checked : checkTimeline object none versions = .ok ()

def ObjectTimeline.build (object : Object) (versions : List ObjectVersion) :
    Except TemporalInvariantError ObjectTimeline :=
  match h : checkTimeline object none versions with
  | .ok () => .ok ⟨object,versions,h⟩
  | .error e => .error e

/-- `ObjectTimeline.at`. -/
def ObjectTimeline.at (t : ObjectTimeline) (moment : Instant) : Option ObjectVersion :=
  t.versions.find? (·.covers moment)

theorem checkTimeline_some {object : Object} {p : ObjectVersion} {vs : List ObjectVersion} :
    checkTimeline object (some p) vs = .ok () ↔
      (∀ v ∈ vs, v.object = object) ∧ (p :: vs).IsChain fun x y => x.span.Before y.span := by
  induction vs generalizing p with
  | nil => simp [checkTimeline]
  | cons v vs ih =>
    have hbefore : p.span.Before v.span ↔ ∃ e, p.validTo = some e ∧ ¬ v.validFrom < e := by
      simp [Span.Before, ObjectVersion.span]
    simp only [checkTimeline, List.isChain_cons_cons, hbefore, List.forall_mem_cons]
    by_cases hv : v.object = object
    · cases hto : p.validTo with
      | none => simp [hv]
      | some e =>
        by_cases he : v.validFrom < e
        · simp [hv, he]
        · simp [hv, he, ih, not_lt.mp he]
    · simp [hv]

/-- A timeline is accepted exactly when its versions are the object's and each
stops before the next one starts. -/
theorem checkTimeline_none {object : Object} {vs : List ObjectVersion} :
    checkTimeline object none vs = .ok () ↔
      (∀ v ∈ vs, v.object = object) ∧ vs.IsChain fun x y => x.span.Before y.span := by
  cases vs with
  | nil => simp [checkTimeline]
  | cons v vs =>
    by_cases hv : v.object = object
    · simp [checkTimeline, hv, checkTimeline_some]
    · simp [checkTimeline, hv]

/-- What `validate` accepts, condition by condition. -/
structure Valid (hash : State → String) (v : ObjectVersion) : Prop where
  confirmed : v.validFrom ≤ v.lastSeenAt
  closed : ∀ e, v.validTo = some e → v.lastSeenAt ≤ e
  reason : v.validTo.isNone = v.closeReason.isNone
  run : v.validTo.isNone = v.closedByRunId.isNone
  presence : v.isPresent = v.state.isSome
  digest : v.isPresent = v.stateHash.isSome
  own : ∀ s, v.state = some s → v.stateHash = some (stateDigest hash s)

theorem validate_ok {hash : State → String} {v : ObjectVersion} :
    v.validate hash = .ok v ↔ Valid hash v := by
  unfold ObjectVersion.validate
  constructor
  · intro h
    split_ifs at h with h1 h2 h3 h4 h5 h6 h7
    refine ⟨not_lt.mp h1,?_,not_not.mp h3,not_not.mp h4,not_not.mp h5,not_not.mp h6,?_⟩
    · intro e he
      simpa [he] using h2
    · intro s hs
      simpa [hs] using h7
  · intro h
    have h2 : ¬ v.validTo.any (· < v.lastSeenAt) = true := by
      cases hto : v.validTo with
      | none => simp
      | some e => simpa using h.closed e hto
    have h7 : ¬ v.state.any (fun s => v.stateHash ≠ some (stateDigest hash s)) = true := by
      cases hs : v.state with
      | none => simp
      | some s => simpa using h.own s hs
    rw [if_neg (not_lt.mpr h.confirmed), if_neg h2, if_neg (not_not.mpr h.reason),
      if_neg (not_not.mpr h.run), if_neg (not_not.mpr h.presence), if_neg (not_not.mpr h.digest),
      if_neg h7]

theorem Valid.forward {hash : State → String} {v : ObjectVersion} (h : Valid hash v) :
    v.span.Forward := fun e he => h.confirmed.trans (h.closed e he)

end Adg.ObjectVersions
