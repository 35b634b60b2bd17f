import Adg.ChangeReads
import Adg.Timelines
import Adg.VersionReads

/-!
# Comparing two instants

Every object with a version at one of two instants is accounted for once: it
stayed, it moved, or it was looked at on one side only. When a side holds more
objects than a comparison reads, both sides are cut at one object and what
lies behind it is left out of every count.
-/

set_option autoImplicit false

namespace Adg.PointComparison
open Adg.Observation Adg.ObjectVersions Adg.VersionTable Adg.Timelines Adg.SortedLists
open Adg.ChangeFields Adg.ChangeRules Adg.ChangeClassification Adg.ChangeScopes Adg.ChangeReads
open Adg.VersionReads (asDict asDict_self)

inductive ComparisonOutcome where
  | complete
  | incomplete
  | timedOut
  | cancelled
  deriving DecidableEq, Repr

inductive ComparisonPhase where
  | read
  | classify
  | ordering
  deriving DecidableEq, Repr

/-- 400 days. -/
def maxUnscopedWindow : Instant := 400*86400*1000000

/-- The arguments of `compare`. Its clock and `should_stop` are what a
checkpoint finds out: nothing, or how the comparison ends there. -/
structure ComparisonRequest where
  atFrom : Instant
  atTo : Instant
  scope : Option ChangeScope := none
  kinds : Option (List ObservationKind) := none
  significance : List ChangeSignificance := [.security,.undetermined]
  minSeverity : ChangeSeverity := .info
  objectsPerSide : ℕ := 5000
  interrupts : ComparisonPhase → Option ComparisonOutcome := fun _ => none

structure ChangeSummary where
  total : ℕ
  returned : ℕ
  byAction : ChangeAction → ℕ
  bySignificance : ChangeSignificance → ℕ
  bySeverity : ChangeSeverity → ℕ
  byKind : ObservationKind → ℕ
  reconstructed : ℕ
  truncated : Bool

/-- `reconstructed`. -/
def reconstructed (c : ObjectChange) : Bool :=
  (c.before.toList ++ [c.after]).any (·.origin = .backfilled)

/-- `SummaryTally`, once every change is counted. -/
def tally (admits : ObjectChange → Bool) (changes : List ObjectChange) (truncated : Bool) :
    ChangeSummary where
  total := changes.length
  returned := changes.countP admits
  byAction := fun a => changes.countP (·.action = a)
  bySignificance := fun s => changes.countP (·.significance = s)
  bySeverity := fun s => changes.countP (·.severity = s)
  byKind := fun k => changes.countP (·.kind = k)
  reconstructed := changes.countP reconstructed
  truncated := truncated

structure ChangeComparison where
  changes : List ObjectChange
  unchanged : ℕ
  unobservedAtFrom : ℕ
  unobservedAtTo : ℕ
  truncated : Bool
  summary : ChangeSummary
  outcome : ComparisonOutcome
  stoppedIn : Option ComparisonPhase
  comparedThrough : Option Object
  objectsReadFrom : ℕ
  objectsReadTo : ℕ
  differencesFound : ℕ

/-- `_identity`: the place of an object in the comparison order. -/
def objectKey (o : Object) : String ×ₗ String := toLex (o.1.value,o.2)

/-- What both sides were read through; everything, when nothing was cut. -/
def upTo (boundary : Option Object) (o : Object) : Bool :=
  boundary.all fun b => objectKey o ≤ objectKey b

section Reading
variable (t : Table) (inside : ObjectVersion → Bool)

/-- The rows of `present_at` before its limit. -/
def side (moment : Instant) : List ObjectVersion :=
  sortedBy (fun v => objectKey v.object) (t.rows.filter fun v => v.covers moment && inside v)

/-- `present_at`: one row more than the limit is read, to know of it. -/
def presentAt (moment : Instant) (limit : ℕ) : List ObjectVersion × Bool :=
  let rows := (side t inside moment).take (limit+1)
  (rows.take limit,limit < rows.length)

end Reading

/-- The last object of a side that was cut. -/
def endOf (read : List ObjectVersion × Bool) : Option Object :=
  if read.2 then read.1.getLast?.map (·.object) else none

/-- `_aligned_boundary`: the smaller of the two. -/
def alignedBoundary (earlier later : List ObjectVersion × Bool) : Option Object :=
  (sortedBy objectKey ([endOf earlier,endOf later].filterMap id)).head?

def getFrom (dict : List ObjectVersion) (o : Object) : Option ObjectVersion :=
  dict.find? (·.object = o)

/-- The test that leaves an object out of the pairs. -/
def sameState (before after : ObjectVersion) : Bool :=
  before.isPresent = after.isPresent ∧ before.stateHash = after.stateHash

/-- What is compared: a first sighting has nothing before it, and a measured
absence that nothing precedes is no change. -/
def pairsOf (was now : List ObjectVersion) : List (Option ObjectVersion × ObjectVersion) :=
  now.filterMap fun after => match getFrom was after.object with
    | none => if after.isPresent then some (none,after) else none
    | some before => if sameState before after then none else some (some before,after)

def unchangedIn (was now : List ObjectVersion) : ℕ :=
  now.countP fun after => (getFrom was after.object).any (sameState · after)

/-- The facts about the container are asked for first sightings. -/
def surroundingsOf (t : Table) (p : Option ObjectVersion × ObjectVersion) : Surroundings :=
  if p.1.isNone then
    { containerObservedBefore := containerObserved t p.2
      containerConfirmedAt := containerConfirmed t p.2 }
  else {}

/-- Whether an ACL is rebuilt on the way, which is where time may run out. -/
def reconstructs (t : Table) (pairs : List (Option ObjectVersion × ObjectVersion)) : Bool :=
  pairs.any fun p =>
    isOrderOnly (classify p.1 p.2 (surroundingsOf t p)) && (p.2.containerKey.filter (· ≠ "")).isSome

def admits (q : ComparisonRequest) (c : ObjectChange) : Bool :=
  c.significance ∈ q.significance && atLeast c.severity q.minSeverity

def newestFirst (changes : List ObjectChange) : List ObjectChange :=
  sortedBy (fun c => OrderDual.toDual c.openedAt) changes

/-- `stopped`: nothing was compared to completion. -/
def stopped (outcome : ComparisonOutcome) (phase : ComparisonPhase)
    (earlier later : List ObjectVersion) (differences : ℕ) : ChangeComparison where
  changes := []
  unchanged := 0
  unobservedAtFrom := 0
  unobservedAtTo := 0
  truncated := true
  summary := tally (fun _ => false) [] false
  outcome := outcome
  stoppedIn := some phase
  comparedThrough := none
  objectsReadFrom := earlier.length
  objectsReadTo := later.length
  differencesFound := differences

section Comparing
variable (sha256 : String → String) (t : Table) (q : ComparisonRequest)

/-- `compare` after both sides were read and cut at one object. -/
def compareSides (boundary : Option Object) (earlier later : List ObjectVersion) :
    ChangeComparison :=
  match q.interrupts .read with
  | some outcome => stopped outcome .read earlier later 0
  | none =>
    let was := asDict earlier
    let now := asDict later
    let pairs := pairsOf was now
    match q.interrupts .classify, reconstructs t pairs, q.interrupts .ordering with
    | some outcome, _, _ => stopped outcome .classify earlier later pairs.length
    | none, true, some outcome => stopped outcome .ordering earlier later pairs.length
    | none, _, _ =>
      let changes := classifyTwice sha256 t pairs (surroundingsOf t)
      { changes := newestFirst (changes.filter (admits q))
        unchanged := unchangedIn was now
        unobservedAtFrom := now.countP fun after => (getFrom was after.object).isNone
        unobservedAtTo := was.countP fun before => (getFrom now before.object).isNone
        truncated := boundary.isSome
        summary := tally (admits q) changes boundary.isSome
        outcome := if boundary.isSome then .incomplete else .complete
        stoppedIn := none
        comparedThrough := boundary
        objectsReadFrom := earlier.length
        objectsReadTo := later.length
        differencesFound := pairs.length }

/-- `compare` inside the rows that the scope and the kinds select. -/
def compareInside (inside : ObjectVersion → Bool) : ChangeComparison :=
  let earlier := presentAt t inside q.atFrom q.objectsPerSide
  let later := presentAt t inside q.atTo q.objectsPerSide
  let boundary := alignedBoundary earlier later
  compareSides sha256 t q boundary (earlier.1.filter (upTo boundary ·.object))
    (later.1.filter (upTo boundary ·.object))

variable (casefold : String → String)

/-- `ChangeService.compare`. -/
def compare : Except DomainError ChangeComparison := do
  if q.atTo ≤ q.atFrom then
    throw { message := "A comparison needs two distinct instants, the later one second.", field := "at_to" }
  if q.scope.isNone ∧ maxUnscopedWindow < q.atTo - q.atFrom then
    throw { message := "An estate-wide comparison is limited to 400 days apart; narrow the interval, or name a scope and compare any two instants.", field := "at_from" }
  let predicates ← q.scope.mapM (predicatesFor casefold)
  return compareInside sha256 t q (restrict q.kinds predicates)

end Comparing

/-! ### What an account is -/

section Account
variable (sha256 : String → String) (t : Table) (inside : ObjectVersion → Bool)
  (q : ComparisonRequest)

/-- The version that answers for an object at an instant. -/
def coveredBy (moment : Instant) (o : Object) : Option ObjectVersion :=
  (side t inside moment).find? (·.object = o)

/-- The objects that some version covers at either instant, in order. -/
def observedObjects : List Object :=
  sortedBy objectKey
    (((side t inside q.atFrom ++ side t inside q.atTo).map (·.object)).dedup)

/-- The objects a comparison reaches. -/
def reached (boundary : Option Object) : List Object :=
  (observedObjects t inside q).filter (upTo boundary)

/-- Present at both instants, in one state. -/
def remains (before after : Option ObjectVersion) : Bool :=
  match before, after with
  | some b, some a => b.isPresent && a.isPresent && b.stateHash = a.stateHash
  | _, _ => false

/-- Presence or state differs, or a state was found where nothing had looked. -/
def transition (before after : Option ObjectVersion) :
    Option (Option ObjectVersion × ObjectVersion) :=
  match before, after with
  | some b, some a =>
    if b.isPresent ≠ a.isPresent ∨ b.stateHash ≠ a.stateHash then some (some b,a) else none
  | none, some a => if a.isPresent then some (none,a) else none
  | _, none => none

/-- Versions at both instants that are not one state. -/
def twoSided (o : Object) : Bool :=
  (transition (coveredBy t inside q.atFrom o) (coveredBy t inside q.atTo o)).any (·.1.isSome)

/-- The transition of one object, classified by itself. -/
def changeOf (o : Object) : Option ObjectChange :=
  (transition (coveredBy t inside q.atFrom o) (coveredBy t inside q.atTo o)).map fun p =>
    decided sha256 t p.1 p.2 (surroundingsOf t p)

/-- The ceiling of a side leaves an object in: the side fits, or fewer objects
than the ceiling come before it there. -/
def Within (moment : Instant) (o : Object) : Prop :=
  (side t inside moment).length ≤ q.objectsPerSide ∨
    ((side t inside moment).filter fun v => objectKey v.object < objectKey o).length <
      q.objectsPerSide

/-- What a comparison says about the objects it reaches. -/
structure Accounts (c : ChangeComparison) : Prop where
  reach : ∀ o, upTo c.comparedThrough o = true ↔
    Within t inside q q.atFrom o ∧ Within t inside q q.atTo o
  unchanged : c.unchanged = (reached t inside q c.comparedThrough).countP fun o =>
    remains (coveredBy t inside q.atFrom o) (coveredBy t inside q.atTo o)
  unobservedAtFrom : c.unobservedAtFrom = (reached t inside q c.comparedThrough).countP fun o =>
    (coveredBy t inside q.atFrom o).isNone && (coveredBy t inside q.atTo o).isSome
  unobservedAtTo : c.unobservedAtTo = (reached t inside q c.comparedThrough).countP fun o =>
    (coveredBy t inside q.atFrom o).isSome && (coveredBy t inside q.atTo o).isNone
  once : (reached t inside q c.comparedThrough).length =
    c.unchanged + (reached t inside q c.comparedThrough).countP (twoSided t inside q) +
      c.unobservedAtFrom + c.unobservedAtTo
  changes : c.changes = newestFirst (((reached t inside q c.comparedThrough).filterMap
    (changeOf sha256 t inside q)).filter (admits q))
  counted : c.summary = tally (admits q) ((reached t inside q c.comparedThrough).filterMap
    (changeOf sha256 t inside q)) c.comparedThrough.isSome
  appeared : ∀ o ∈ reached t inside q c.comparedThrough, coveredBy t inside q.atFrom o = none →
    ∀ v, coveredBy t inside q.atTo o = some v → v.isPresent = true →
      ∃ e, changeOf sha256 t inside q o = some e ∧ e.object = o ∧ e.before = none ∧
        (e.action = .added ∨ e.action = .firstObserved)
  ended : c.outcome = if c.comparedThrough.isSome then .incomplete else .complete
  cut : ∀ n, t.rows.length ≤ n → c.changes =
    (compareInside sha256 t { q with objectsPerSide := n } inside).changes.filter
      (upTo c.comparedThrough ·.object)

/-- No object that is reached was absent at both instants. -/
def NoLastingTombstone : Prop :=
  ∀ o, Within t inside q q.atFrom o → Within t inside q q.atTo o →
    ∀ v, coveredBy t inside q.atFrom o = some v →
    ∀ w, coveredBy t inside q.atTo o = some w → v.isPresent = true ∨ w.isPresent = true

end Account

/-! ### Two sides, cut at one object -/

theorem kind_value_injective : Function.Injective ObservationKind.value := by
  intro a b h
  cases a <;> cases b <;> first | rfl | (exact absurd h (by decide))

theorem objectKey_injective : Function.Injective objectKey := by
  rintro ⟨k,x⟩ ⟨l,y⟩ h
  obtain ⟨hk,hx⟩ := Prod.mk.inj (toLex.injective h)
  exact Prod.ext (kind_value_injective hk) hx

section Sides
variable {hash : State → String} {t : Table} {inside : ObjectVersion → Bool} {moment : Instant}

theorem mem_side {v : ObjectVersion} :
    v ∈ side t inside moment ↔ v ∈ t.rows ∧ v.covers moment = true ∧ inside v = true := by
  unfold side
  rw [mem_sortedBy, List.mem_filter, Bool.and_eq_true]

theorem side_length_le : (side t inside moment).length ≤ t.rows.length := by
  unfold side
  rw [sortedBy_length]
  exact List.length_filter_le _ _

/-- At one instant an object has one version at most. -/
theorem side_unique (h : WellFormed hash t) {v w : ObjectVersion}
    (hv : v ∈ side t inside moment) (hw : w ∈ side t inside moment) (ho : v.object = w.object) :
    v = w := by
  obtain ⟨hv,hcv,-⟩ := mem_side.mp hv
  obtain ⟨hw,hcw,-⟩ := mem_side.mp hw
  exact h.unambiguous w.object moment v (mem_timelineOf.mpr ⟨hv,ho⟩) w
    (mem_timelineOf.mpr ⟨hw,rfl⟩) hcv hcw

theorem side_nodup : (side t inside moment).Nodup :=
  (sortedBy_perm _ _).nodup_iff.mpr ((List.Nodup.of_map _ t.ids_nodup).filter _)

theorem side_strict (h : WellFormed hash t) :
    (side t inside moment).Pairwise fun v w => objectKey v.object < objectKey w.object := by
  have hle := sortedBy_ordered (fun v : ObjectVersion => objectKey v.object)
    (t.rows.filter fun v => v.covers moment && inside v)
  refine (hle.and side_nodup).imp_of_mem fun {v w} hv hw hvw => ?_
  refine lt_of_le_of_ne hvw.1 fun heq => hvw.2 ?_
  exact side_unique h hv hw (objectKey_injective heq)

theorem presentAt_eq (limit : ℕ) :
    presentAt t inside moment limit =
      ((side t inside moment).take limit,decide (limit < (side t inside moment).length)) := by
  unfold presentAt
  simp only [List.take_take, List.length_take, Nat.lt_min, Nat.lt_succ_self, true_and,
    Nat.min_eq_left (Nat.le_succ limit)]

theorem side_nodup_objects (h : WellFormed hash t) :
    ((side t inside moment).map (·.object)).Nodup := by
  refine List.pairwise_map.mpr ((side_strict h).imp fun hlt heq => ?_)
  exact lt_irrefl _ (heq ▸ hlt)

theorem endOf_some {limit : ℕ} (hlimit : 1 ≤ limit)
    (hcut : limit < (side t inside moment).length) :
    ∃ v, ((side t inside moment).take limit).getLast? = some v ∧
      endOf (presentAt t inside moment limit) = some v.object := by
  have hne : (side t inside moment).take limit ≠ [] := by
    intro hnil
    have := congrArg List.length hnil
    rw [List.length_take, List.length_nil] at this
    omega
  refine ⟨_,List.getLast?_eq_some_getLast hne,?_⟩
  rw [presentAt_eq, endOf, if_pos (decide_eq_true hcut), List.getLast?_eq_some_getLast hne]
  rfl

theorem endOf_none {limit : ℕ} (hfits : (side t inside moment).length ≤ limit) :
    endOf (presentAt t inside moment limit) = none := by
  rw [presentAt_eq, endOf, if_neg (by simpa using hfits)]

/-- A side is cut by a positive ceiling, or by none. -/
theorem ceiling_pos {limit : ℕ} (hroom : 1 ≤ limit ∨ t.rows.length ≤ limit)
    (hcut : limit < (side t inside moment).length) : 1 ≤ limit :=
  hroom.resolve_right fun hall => (side_length_le.trans hall).not_gt hcut

/-- Up to the end of a side lie the objects that its ceiling leaves in. -/
theorem upTo_endOf (h : WellFormed hash t) {q : ComparisonRequest}
    (hroom : 1 ≤ q.objectsPerSide ∨ t.rows.length ≤ q.objectsPerSide) (o : Object) :
    upTo (endOf (presentAt t inside moment q.objectsPerSide)) o = true ↔
      Within t inside q moment o := by
  rcases Nat.lt_or_ge q.objectsPerSide (side t inside moment).length with hcut | hfits
  · obtain ⟨v,hv,hend⟩ := endOf_some (ceiling_pos hroom hcut) hcut
    have hlast := le_last_iff (side_strict h) hv hcut.le (b := objectKey o)
    rw [hend, upTo, Option.all_some, decide_eq_true_iff, hlast, Within]
    exact ⟨.inr,fun hw => hw.resolve_left (Nat.not_le.mpr hcut)⟩
  · rw [endOf_none hfits]
    exact iff_of_true rfl (.inl hfits)

/-- The smaller of two ends lets through what both let through. -/
theorem upTo_alignedBoundary (earlier later : List ObjectVersion × Bool) (o : Object) :
    upTo (alignedBoundary earlier later) o = true ↔
      upTo (endOf earlier) o = true ∧ upTo (endOf later) o = true := by
  unfold alignedBoundary
  cases endOf earlier with
  | none =>
    cases endOf later with
    | none => simp [upTo, sortedBy]
    | some b => simp [upTo, sortedBy]
  | some a =>
    cases endOf later with
    | none => simp [upTo, sortedBy]
    | some b =>
      by_cases hab : objectKey a ≤ objectKey b
      · have hboth : objectKey o ≤ objectKey a → objectKey o ≤ objectKey b := fun h => h.trans hab
        simpa [upTo, sortedBy, hab] using hboth
      · have hboth : objectKey o ≤ objectKey b → objectKey o ≤ objectKey a :=
          fun h => h.trans (not_le.mp hab).le
        simpa [upTo, sortedBy, hab] using fun h => hboth h

theorem alignedBoundary_none {earlier later : List ObjectVersion × Bool}
    (h : alignedBoundary earlier later = none) : endOf earlier = none ∧ endOf later = none := by
  unfold alignedBoundary at h
  have hlength := congrArg List.length (List.head?_eq_none_iff.mp h)
  rw [sortedBy_length] at hlength
  constructor
  · cases he : endOf earlier with
    | none => rfl
    | some a => cases hl : endOf later <;> simp [he, hl] at hlength
  · cases hl : endOf later with
    | none => rfl
    | some b => cases he : endOf earlier <;> simp [he, hl] at hlength

/-- Cutting at what lies before the end of a side loses nothing before the cut. -/
theorem presentAt_upTo (h : WellFormed hash t) {limit : ℕ}
    (hroom : 1 ≤ limit ∨ t.rows.length ≤ limit) {boundary : Option Object}
    (hnone : boundary = none → endOf (presentAt t inside moment limit) = none)
    (hb : ∀ o, upTo boundary o = true →
      upTo (endOf (presentAt t inside moment limit)) o = true) :
    (presentAt t inside moment limit).1.filter (upTo boundary ·.object) =
      (side t inside moment).filter (upTo boundary ·.object) := by
  rcases Nat.lt_or_ge limit (side t inside moment).length with hcut | hfits
  · obtain ⟨v,hv,hend⟩ := endOf_some (ceiling_pos hroom hcut) hcut
    rw [hend] at hb hnone
    cases boundary with
    | none => cases hnone rfl
    | some b =>
      have hle : objectKey b ≤ objectKey v.object := by
        simpa [upTo] using hb b (by simp [upTo])
      have := take_filter_le (side_strict h) hv hle
      rw [presentAt_eq]
      exact this
  · rw [presentAt_eq, List.take_of_length_le hfits]

end Sides

/-! ### One object after the other -/

section Reached
variable {hash : State → String} {t : Table} {inside : ObjectVersion → Bool}
  {q : ComparisonRequest} {moment : Instant} {boundary : Option Object}

/-- The part of a side that both sides were read through. -/
def kept (t : Table) (inside : ObjectVersion → Bool) (boundary : Option Object)
    (moment : Instant) : List ObjectVersion :=
  (side t inside moment).filter (upTo boundary ·.object)

theorem kept_nodup_objects (h : WellFormed hash t) :
    ((kept t inside boundary moment).map (·.object)).Nodup :=
  (side_nodup_objects h).sublist (List.filter_sublist.map _)

theorem coveredBy_object {o : Object} {v : ObjectVersion}
    (h : coveredBy t inside moment o = some v) : v.object = o := by
  simpa using List.find?_some h

theorem mem_of_coveredBy {o : Object} {v : ObjectVersion}
    (h : coveredBy t inside moment o = some v) : v ∈ side t inside moment :=
  List.mem_of_find?_eq_some h

theorem coveredBy_of_mem (h : WellFormed hash t) {v : ObjectVersion}
    (hv : v ∈ side t inside moment) : coveredBy t inside moment v.object = some v := by
  cases hc : coveredBy t inside moment v.object with
  | none => exact absurd (decide_eq_true rfl) (List.find?_eq_none.mp hc v hv)
  | some w => rw [side_unique h (mem_of_coveredBy hc) hv (coveredBy_object hc)]

theorem getFrom_kept (o : Object) :
    getFrom (kept t inside boundary moment) o =
      if upTo boundary o then coveredBy t inside moment o else none := by
  unfold getFrom kept coveredBy
  rw [List.find?_filter]
  by_cases ho : upTo boundary o = true
  · rw [if_pos ho]
    refine congrArg (fun p => List.find? p _) (funext fun v => ?_)
    by_cases hv : v.object = o <;> simp [hv, ho]
  · rw [if_neg ho]
    refine List.find?_eq_none.mpr fun v _ => ?_
    by_cases hv : v.object = o <;> simp [hv, ho]

theorem mem_observedObjects {o : Object} : o ∈ observedObjects t inside q ↔
    ∃ v, (v ∈ side t inside q.atFrom ∨ v ∈ side t inside q.atTo) ∧ v.object = o := by
  unfold observedObjects
  rw [mem_sortedBy, List.mem_dedup, List.mem_map]
  simp only [List.mem_append]

theorem reached_strict : ((reached t inside q boundary).map objectKey).Pairwise (· < ·) := by
  have hle := sortedBy_ordered objectKey
    (((side t inside q.atFrom ++ side t inside q.atTo).map (·.object)).dedup)
  have hnodup : (observedObjects t inside q).Nodup :=
    (sortedBy_perm _ _).nodup_iff.mpr (List.nodup_dedup _)
  refine List.pairwise_map.mpr (List.Pairwise.filter _ ?_)
  refine (hle.and hnodup).imp fun hvw => lt_of_le_of_ne hvw.1 fun heq => hvw.2 ?_
  exact objectKey_injective heq

/-- The versions of a side, found again by going through the objects. -/
theorem reached_coveredBy (h : WellFormed hash t)
    (hmoment : moment = q.atFrom ∨ moment = q.atTo) :
    (reached t inside q boundary).filterMap (coveredBy t inside moment) =
      kept t inside boundary moment := by
  have hall : ∀ v ∈ kept t inside boundary moment,
      objectKey v.object ∈ (reached t inside q boundary).map objectKey := by
    intro v hv
    obtain ⟨hv,hb⟩ := List.mem_filter.mp hv
    refine List.mem_map_of_mem (List.mem_filter.mpr ⟨mem_observedObjects.mpr ⟨v,?_,rfl⟩,hb⟩)
    rcases hmoment with rfl | rfl
    · exact .inl hv
    · exact .inr hv
  have hstrict : (kept t inside boundary moment).Pairwise
      fun v w => objectKey v.object < objectKey w.object := (side_strict h).filter _
  have hfound := filterMap_find reached_strict hstrict hall
  rw [List.filterMap_map] at hfound
  refine Eq.trans (List.filterMap_congr fun o ho => ?_) hfound
  have hb := (List.mem_filter.mp ho).2
  have hget : getFrom (kept t inside boundary moment) o = coveredBy t inside moment o := by
    rw [getFrom_kept, if_pos hb]
  rw [← hget]
  refine congrArg (fun p => List.find? p _) (funext fun v => ?_)
  exact decide_eq_decide.mpr objectKey_injective.eq_iff.symm

theorem getFrom_kept_of_reached {o : Object} (ho : o ∈ reached t inside q boundary) :
    getFrom (kept t inside boundary moment) o = coveredBy t inside moment o := by
  rw [getFrom_kept, if_pos (List.mem_filter.mp ho).2]

/-- Counting over one side is counting over the objects. -/
theorem countP_kept (h : WellFormed hash t) (hmoment : moment = q.atFrom ∨ moment = q.atTo)
    (p : ObjectVersion → Bool) : (kept t inside boundary moment).countP p =
      (reached t inside q boundary).countP fun o => (coveredBy t inside moment o).any p := by
  rw [← reached_coveredBy h hmoment, List.countP_filterMap]
  refine List.countP_congr fun o _ => ?_
  cases coveredBy t inside moment o <;> simp

theorem pairsOf_kept (h : WellFormed hash t) :
    pairsOf (kept t inside boundary q.atFrom) (kept t inside boundary q.atTo) =
      (reached t inside q boundary).filterMap fun o =>
        transition (coveredBy t inside q.atFrom o) (coveredBy t inside q.atTo o) := by
  unfold pairsOf
  have hlater : (reached t inside q boundary).filterMap (coveredBy t inside q.atTo) =
      kept t inside boundary q.atTo := reached_coveredBy h (.inr rfl)
  conv_lhs => rw [← hlater]
  rw [List.filterMap_filterMap]
  refine List.filterMap_congr fun o ho => ?_
  cases hto : coveredBy t inside q.atTo o with
  | none => cases coveredBy t inside q.atFrom o <;> rfl
  | some a =>
    rw [Option.bind_some, coveredBy_object hto, getFrom_kept_of_reached ho]
    cases coveredBy t inside q.atFrom o with
    | none => rfl
    | some b =>
      by_cases hp : b.isPresent = a.isPresent <;> by_cases hs : b.stateHash = a.stateHash <;>
        simp [transition, sameState, hp, hs]

/-- Covered at both instants, by versions that a comparison does not tell apart. -/
def alike (before after : Option ObjectVersion) : Bool :=
  before.any fun b => after.any (sameState b ·)

theorem unchangedIn_kept (h : WellFormed hash t) :
    unchangedIn (kept t inside boundary q.atFrom) (kept t inside boundary q.atTo) =
      (reached t inside q boundary).countP fun o =>
        alike (coveredBy t inside q.atFrom o) (coveredBy t inside q.atTo o) := by
  unfold unchangedIn
  rw [countP_kept h (Or.inr (Eq.refl q.atTo))]
  refine List.countP_congr fun o ho => ?_
  cases hto : coveredBy t inside q.atTo o with
  | none => cases coveredBy t inside q.atFrom o <;> simp [alike]
  | some a =>
    rw [Option.any_some, coveredBy_object hto, getFrom_kept_of_reached ho]
    cases coveredBy t inside q.atFrom o <;> simp [alike]

theorem unobservedAtFrom_kept (h : WellFormed hash t) :
    ((kept t inside boundary q.atTo).countP fun after =>
        (getFrom (kept t inside boundary q.atFrom) after.object).isNone) =
      (reached t inside q boundary).countP fun o =>
        (coveredBy t inside q.atFrom o).isNone && (coveredBy t inside q.atTo o).isSome := by
  rw [countP_kept h (Or.inr (Eq.refl q.atTo))]
  refine List.countP_congr fun o ho => ?_
  cases hto : coveredBy t inside q.atTo o with
  | none => simp
  | some a =>
    rw [Option.any_some, coveredBy_object hto, getFrom_kept_of_reached ho]
    simp

theorem unobservedAtTo_kept (h : WellFormed hash t) :
    ((kept t inside boundary q.atFrom).countP fun before =>
        (getFrom (kept t inside boundary q.atTo) before.object).isNone) =
      (reached t inside q boundary).countP fun o =>
        (coveredBy t inside q.atFrom o).isSome && (coveredBy t inside q.atTo o).isNone := by
  rw [countP_kept h (Or.inl (Eq.refl q.atFrom))]
  refine List.countP_congr fun o ho => ?_
  cases hfrom : coveredBy t inside q.atFrom o with
  | none => simp
  | some b =>
    rw [Option.any_some, coveredBy_object hfrom, getFrom_kept_of_reached ho]
    simp

/-- Every later version is compared at most once. -/
theorem pairsOf_after (was now : List ObjectVersion) :
    ((pairsOf was now).map (·.2)).Sublist now := by
  induction now with
  | nil => exact List.Sublist.slnil
  | cons a now ih =>
    have hskip := ih.cons a
    have htake := ih.cons_cons a
    unfold pairsOf at ih hskip htake ⊢
    rw [List.filterMap_cons]
    cases getFrom was a.object with
    | none => by_cases ha : a.isPresent = true <;> simpa [ha] using by assumption
    | some b => by_cases hs : sameState b a = true <;> simpa [hs] using by assumption

/-- A batch of transitions of different objects is decided one by one. -/
theorem classify_kept (h : WellFormed hash t) (sha256 : String → String) :
    classifyTwice sha256 t (pairsOf (kept t inside boundary q.atFrom)
        (kept t inside boundary q.atTo)) (surroundingsOf t) =
      (reached t inside q boundary).filterMap (changeOf sha256 t inside q) := by
  have hkeys : ((pairsOf (kept t inside boundary q.atFrom)
      (kept t inside boundary q.atTo)).map fun p => (p.2.object,p.2.validFrom)).Nodup := by
    have hobjects := (kept_nodup_objects h).sublist ((pairsOf_after
      (kept t inside boundary q.atFrom) (kept t inside boundary q.atTo)).map (·.object))
    rw [List.map_map] at hobjects
    exact List.Nodup.of_map Prod.fst (by rwa [List.map_map])
  have hfresh : ∀ p : Option ObjectVersion × ObjectVersion,
      (surroundingsOf t p).orderingMaterial = none := by
    intro p
    unfold surroundingsOf
    split <;> rfl
  rw [classifyTwice_eq hkeys fun p _ => hfresh p, pairsOf_kept h, List.map_filterMap]
  rfl

/-- What is returned once both sides are cut at a boundary. -/
def comparedUpTo (sha256 : String → String) (t : Table) (inside : ObjectVersion → Bool)
    (q : ComparisonRequest) (boundary : Option Object) : ChangeComparison where
  changes := newestFirst
    (((reached t inside q boundary).filterMap (changeOf sha256 t inside q)).filter (admits q))
  unchanged := (reached t inside q boundary).countP fun o =>
    alike (coveredBy t inside q.atFrom o) (coveredBy t inside q.atTo o)
  unobservedAtFrom := (reached t inside q boundary).countP fun o =>
    (coveredBy t inside q.atFrom o).isNone && (coveredBy t inside q.atTo o).isSome
  unobservedAtTo := (reached t inside q boundary).countP fun o =>
    (coveredBy t inside q.atFrom o).isSome && (coveredBy t inside q.atTo o).isNone
  truncated := boundary.isSome
  summary := tally (admits q)
    ((reached t inside q boundary).filterMap (changeOf sha256 t inside q)) boundary.isSome
  outcome := if boundary.isSome then .incomplete else .complete
  stoppedIn := none
  comparedThrough := boundary
  objectsReadFrom := (kept t inside boundary q.atFrom).length
  objectsReadTo := (kept t inside boundary q.atTo).length
  differencesFound := ((reached t inside q boundary).filterMap fun o =>
    transition (coveredBy t inside q.atFrom o) (coveredBy t inside q.atTo o)).length

/-- Nothing interrupts the comparison. -/
theorem compareSides_kept (h : WellFormed hash t) (sha256 : String → String)
    (hcalm : ∀ p, q.interrupts p = none) :
    compareSides sha256 t q boundary (kept t inside boundary q.atFrom)
        (kept t inside boundary q.atTo) = comparedUpTo sha256 t inside q boundary := by
  have hfrom : asDict (kept t inside boundary q.atFrom) = kept t inside boundary q.atFrom :=
    asDict_self (kept_nodup_objects h)
  have hto : asDict (kept t inside boundary q.atTo) = kept t inside boundary q.atTo :=
    asDict_self (kept_nodup_objects h)
  have hdecided : classifyTwice sha256 t (pairsOf (kept t inside boundary q.atFrom)
        (kept t inside boundary q.atTo)) (surroundingsOf t) =
      (reached t inside q boundary).filterMap (changeOf sha256 t inside q) :=
    classify_kept h sha256
  unfold compareSides comparedUpTo
  simp only [hcalm, hfrom, hto, hdecided, unchangedIn_kept h, unobservedAtFrom_kept h,
    unobservedAtTo_kept h]
  rw [pairsOf_kept h]
  split
  · contradiction
  · contradiction
  · rfl

/-- A comparison that nothing interrupts, in terms of the objects it reaches. -/
theorem compareInside_eq (h : WellFormed hash t) (sha256 : String → String)
    (hroom : 1 ≤ q.objectsPerSide ∨ t.rows.length ≤ q.objectsPerSide)
    (hcalm : ∀ p, q.interrupts p = none) :
    ∃ boundary, (∀ o, upTo boundary o = true ↔
        Within t inside q q.atFrom o ∧ Within t inside q q.atTo o) ∧
      compareInside sha256 t q inside = comparedUpTo sha256 t inside q boundary := by
  set earlier := presentAt t inside q.atFrom q.objectsPerSide with hearlier
  set later := presentAt t inside q.atTo q.objectsPerSide with hlater
  have hends := upTo_alignedBoundary earlier later
  refine ⟨alignedBoundary earlier later,fun o => ?_,?_⟩
  · rw [hends o, upTo_endOf h hroom o, upTo_endOf h hroom o]
  · have hfrom : earlier.1.filter (upTo (alignedBoundary earlier later) ·.object) =
        (side t inside q.atFrom).filter (upTo (alignedBoundary earlier later) ·.object) :=
      presentAt_upTo h hroom (fun hn => (alignedBoundary_none hn).1)
        (fun o ho => ((hends o).mp ho).1)
    have hto : later.1.filter (upTo (alignedBoundary earlier later) ·.object) =
        (side t inside q.atTo).filter (upTo (alignedBoundary earlier later) ·.object) :=
      presentAt_upTo h hroom (fun hn => (alignedBoundary_none hn).2)
        (fun o ho => ((hends o).mp ho).2)
    rw [← compareSides_kept h sha256 hcalm]
    unfold compareInside
    simp only [← hearlier, ← hlater, kept]
    rw [hfrom, hto]

end Reached

/-! ### The account -/

/-- A test that holds in exactly one of two ways is counted in one of them. -/
theorem countP_split {α : Type} {l : List α} {p p' p'' : α → Bool}
    (h : ∀ a ∈ l, (p a).toNat = (p' a).toNat+(p'' a).toNat) :
    l.countP p = l.countP p'+l.countP p'' := by
  induction l with
  | nil => rfl
  | cons a l ih =>
    have ha := h a List.mem_cons_self
    have hl := ih fun b hb => h b (List.mem_cons_of_mem a hb)
    cases hp : p a <;> cases hp' : p' a <;> cases hp'' : p'' a <;>
      simp [hp, hp', hp''] at ha ⊢ <;> omega

section Accounting
variable {hash : State → String} {sha256 : String → String} {t : Table}
  {inside : ObjectVersion → Bool} {q : ComparisonRequest} {boundary : Option Object}

/-- A tombstone has no digest. -/
theorem tombstone_stateHash {v : ObjectVersion} {moment : Instant}
    (hv : v ∈ side t inside moment) (h : v.isPresent = false) : v.stateHash = none := by
  have hc := t.checked v (mem_side.mp hv).1
  unfold checks at hc
  obtain ⟨-,-,-,-,-,hhash⟩ := of_decide_eq_true hc
  rw [h] at hhash
  exact Option.not_isSome_iff_eq_none.mp (hhash ▸ Bool.false_ne_true)

/-- Absent at both instants. -/
def absentTwice (t : Table) (inside : ObjectVersion → Bool) (q : ComparisonRequest)
    (o : Object) : Bool :=
  (coveredBy t inside q.atFrom o).any fun b =>
    (coveredBy t inside q.atTo o).any fun a => !b.isPresent && !a.isPresent

/-- What a comparison does not tell apart is one state, or one absence. -/
theorem alike_split (o : Object) :
    (alike (coveredBy t inside q.atFrom o) (coveredBy t inside q.atTo o)).toNat =
      (remains (coveredBy t inside q.atFrom o) (coveredBy t inside q.atTo o)).toNat +
        (absentTwice t inside q o).toNat := by
  unfold absentTwice
  cases hfrom : coveredBy t inside q.atFrom o with
  | none => rfl
  | some b =>
    cases hto : coveredBy t inside q.atTo o with
    | none => rfl
    | some a =>
      have hb := tombstone_stateHash (mem_of_coveredBy hfrom)
      have ha := tombstone_stateHash (mem_of_coveredBy hto)
      cases hbp : b.isPresent <;> cases hap : a.isPresent
      · simp [alike, sameState, remains, hbp, hap, hb hbp, ha hap]
      · simp [alike, sameState, remains, hbp, hap]
      · simp [alike, sameState, remains, hbp, hap]
      · simp [alike, sameState, remains, hbp, hap]

/-- An object that is reached is looked at on a side. -/
theorem covered_of_reached (h : WellFormed hash t) {o : Object}
    (ho : o ∈ reached t inside q boundary) :
    coveredBy t inside q.atFrom o ≠ none ∨ coveredBy t inside q.atTo o ≠ none := by
  obtain ⟨v,hv,rfl⟩ := mem_observedObjects.mp (List.mem_filter.mp ho).1
  rcases hv with hv | hv
  · exact .inl (by rw [coveredBy_of_mem h hv]; exact Option.some_ne_none v)
  · exact .inr (by rw [coveredBy_of_mem h hv]; exact Option.some_ne_none v)

/-- Every object that is reached is counted once. -/
theorem counted_once (h : WellFormed hash t) :
    (reached t inside q boundary).length =
      (reached t inside q boundary).countP (fun o =>
        alike (coveredBy t inside q.atFrom o) (coveredBy t inside q.atTo o)) +
      (reached t inside q boundary).countP (twoSided t inside q) +
      (reached t inside q boundary).countP (fun o =>
        (coveredBy t inside q.atFrom o).isNone && (coveredBy t inside q.atTo o).isSome) +
      (reached t inside q boundary).countP (fun o =>
        (coveredBy t inside q.atFrom o).isSome && (coveredBy t inside q.atTo o).isNone) := by
  have hboth : (reached t inside q boundary).countP (fun o =>
        (coveredBy t inside q.atFrom o).isSome && (coveredBy t inside q.atTo o).isSome) =
      (reached t inside q boundary).countP (fun o =>
        alike (coveredBy t inside q.atFrom o) (coveredBy t inside q.atTo o)) +
      (reached t inside q boundary).countP (twoSided t inside q) := by
    refine countP_split fun o _ => ?_
    unfold twoSided
    cases coveredBy t inside q.atFrom o with
    | none => cases coveredBy t inside q.atTo o with
      | none => rfl
      | some a => cases hap : a.isPresent <;> simp [alike, transition, hap]
    | some b => cases coveredBy t inside q.atTo o with
      | none => rfl
      | some a =>
        by_cases hp : b.isPresent = a.isPresent <;> by_cases hs : b.stateHash = a.stateHash <;>
          simp [alike, transition, sameState, hp, hs]
  have hfrom : (reached t inside q boundary).countP (fun o =>
        (coveredBy t inside q.atFrom o).isSome) =
      (reached t inside q boundary).countP (fun o =>
        (coveredBy t inside q.atFrom o).isSome && (coveredBy t inside q.atTo o).isSome) +
      (reached t inside q boundary).countP (fun o =>
        (coveredBy t inside q.atFrom o).isSome && (coveredBy t inside q.atTo o).isNone) := by
    refine countP_split fun o _ => ?_
    cases coveredBy t inside q.atFrom o <;> cases coveredBy t inside q.atTo o <;> rfl
  have hall : (reached t inside q boundary).countP (fun _ => true) =
      (reached t inside q boundary).countP (fun o => (coveredBy t inside q.atFrom o).isSome) +
      (reached t inside q boundary).countP (fun o =>
        (coveredBy t inside q.atFrom o).isNone && (coveredBy t inside q.atTo o).isSome) := by
    refine countP_split fun o ho => ?_
    have hcovered := covered_of_reached h ho
    cases hfrom : coveredBy t inside q.atFrom o <;> cases hto : coveredBy t inside q.atTo o <;>
      simp [hfrom, hto] at hcovered ⊢
  rw [List.countP_true] at hall
  omega

theorem transition_object {o : Object} {p : Option ObjectVersion × ObjectVersion}
    (h : transition (coveredBy t inside q.atFrom o) (coveredBy t inside q.atTo o) = some p) :
    p.2.object = o := by
  cases hto : coveredBy t inside q.atTo o with
  | none => cases hfrom : coveredBy t inside q.atFrom o <;> simp [transition, hfrom, hto] at h
  | some a =>
    cases hfrom : coveredBy t inside q.atFrom o with
    | none =>
      simp only [transition, hfrom, hto, Option.ite_none_right_eq_some, Option.some.injEq] at h
      rw [← h.2, coveredBy_object hto]
    | some b =>
      simp only [transition, hfrom, hto, Option.ite_none_right_eq_some, Option.some.injEq] at h
      rw [← h.2, coveredBy_object hto]

theorem changeOf_object {o : Object} {e : ObjectChange}
    (h : changeOf sha256 t inside q o = some e) : e.object = o := by
  obtain ⟨p,hp,rfl⟩ := Option.map_eq_some_iff.mp h
  have hclassified : ∃ m, decided sha256 t p.1 p.2 (surroundingsOf t p) =
      classify p.1 p.2 { surroundingsOf t p with orderingMaterial := m } := decided_eq ..
  obtain ⟨m,hm⟩ := hclassified
  rw [hm]
  exact transition_object hp

/-- A state found where nothing had looked is an addition or a first sighting. -/
theorem changeOf_appeared {o : Object} (hfrom : coveredBy t inside q.atFrom o = none)
    {v : ObjectVersion} (hto : coveredBy t inside q.atTo o = some v) (hv : v.isPresent = true) :
    ∃ e, changeOf sha256 t inside q o = some e ∧ e.object = o ∧ e.before = none ∧
      (e.action = .added ∨ e.action = .firstObserved) := by
  have hpair : transition (coveredBy t inside q.atFrom o) (coveredBy t inside q.atTo o) =
      some (none,v) := by
    simp [transition, hfrom, hto, hv]
  have hchange : changeOf sha256 t inside q o =
      some (decided sha256 t none v (surroundingsOf t (none,v))) := by
    rw [changeOf, hpair, Option.map_some]
  refine ⟨_,hchange,changeOf_object hchange,?_⟩
  have hclassified : ∃ m, decided sha256 t none v (surroundingsOf t (none,v)) =
      classify none v { surroundingsOf t (none,v) with orderingMaterial := m } := decided_eq ..
  obtain ⟨m,hm⟩ := hclassified
  rw [hm]
  refine ⟨rfl,?_⟩
  simp only [classify, actionFor, hv, not_true_eq_false, if_false]
  split_ifs
  · exact .inl rfl
  · exact .inr rfl

/-- The changes up to a boundary are those of everything, cut there. -/
theorem changes_cut (boundary : Option Object) {whole : Option Object}
    (hwhole : ∀ o, upTo whole o = true) :
    (comparedUpTo sha256 t inside q boundary).changes =
      (comparedUpTo sha256 t inside q whole).changes.filter (upTo boundary ·.object) := by
  have hreached : reached t inside q whole = observedObjects t inside q :=
    List.filter_eq_self.mpr fun o _ => hwhole o
  unfold comparedUpTo newestFirst
  simp only [hreached]
  rw [sortedBy_filter, List.filter_filter, List.filter_filterMap, List.filter_filterMap]
  unfold reached
  rw [List.filterMap_filter]
  refine congrArg (sortedBy _) (List.filterMap_congr fun o _ => ?_)
  cases hc : changeOf sha256 t inside q o with
  | none => by_cases hb : upTo boundary o = true <;> simp [hb]
  | some e =>
    have ho := changeOf_object hc
    by_cases hb : upTo boundary o = true <;> by_cases he : admits q e = true <;>
      simp [hb, he, ho, Option.filter]

/-- The states are counted as the account has them just when no absence is among them. -/
theorem unchanged_iff (hreach : ∀ o, upTo boundary o = true ↔
      Within t inside q q.atFrom o ∧ Within t inside q q.atTo o) :
    (comparedUpTo sha256 t inside q boundary).unchanged = (reached t inside q boundary).countP
        (fun o => remains (coveredBy t inside q.atFrom o) (coveredBy t inside q.atTo o)) ↔
      NoLastingTombstone t inside q := by
  have hsplit : (reached t inside q boundary).countP (fun o =>
        alike (coveredBy t inside q.atFrom o) (coveredBy t inside q.atTo o)) =
      (reached t inside q boundary).countP (fun o =>
        remains (coveredBy t inside q.atFrom o) (coveredBy t inside q.atTo o)) +
        (reached t inside q boundary).countP (absentTwice t inside q) :=
    countP_split fun o _ => alike_split o
  have hzero : (comparedUpTo sha256 t inside q boundary).unchanged =
      (reached t inside q boundary).countP
        (fun o => remains (coveredBy t inside q.atFrom o) (coveredBy t inside q.atTo o)) ↔
      (reached t inside q boundary).countP (absentTwice t inside q) = 0 := by
    unfold comparedUpTo
    dsimp only
    omega
  rw [hzero, List.countP_eq_zero]
  constructor
  · intro h o hfrom hto v hv w hw
    have ho : o ∈ reached t inside q boundary := by
      refine List.mem_filter.mpr ⟨mem_observedObjects.mpr ⟨v,?_,coveredBy_object hv⟩,?_⟩
      · exact .inl (mem_of_coveredBy hv)
      · exact (hreach o).mpr ⟨hfrom,hto⟩
    have hnot := h o ho
    simp only [absentTwice, hv, hw, Option.any_some] at hnot
    cases hvp : v.isPresent <;> cases hwp : w.isPresent <;> simp [hvp, hwp] at hnot ⊢
  · intro h o ho habsent
    have hin := (hreach o).mp (List.mem_filter.mp ho).2
    unfold absentTwice at habsent
    cases hv : coveredBy t inside q.atFrom o with
    | none => simp [hv] at habsent
    | some v =>
      cases hw : coveredBy t inside q.atTo o with
      | none => simp [hv, hw] at habsent
      | some w => rcases h o hin.1 hin.2 v hv w hw with hp | hp <;> simp [hv, hw, hp] at habsent

theorem accounts_iff (h : WellFormed hash t)
    (hroom : 1 ≤ q.objectsPerSide ∨ t.rows.length ≤ q.objectsPerSide)
    (hcalm : ∀ p, q.interrupts p = none) :
    Accounts sha256 t inside q (compareInside sha256 t q inside) ↔
      NoLastingTombstone t inside q := by
  obtain ⟨boundary,hreach,heq⟩ : ∃ boundary, (∀ o, upTo boundary o = true ↔
        Within t inside q q.atFrom o ∧ Within t inside q q.atTo o) ∧
      compareInside sha256 t q inside = comparedUpTo sha256 t inside q boundary :=
    compareInside_eq h sha256 hroom hcalm
  have hunchanged : (comparedUpTo sha256 t inside q boundary).unchanged =
        (reached t inside q boundary).countP
          (fun o => remains (coveredBy t inside q.atFrom o) (coveredBy t inside q.atTo o)) ↔
      NoLastingTombstone t inside q := unchanged_iff hreach
  rw [heq, ← hunchanged]
  refine ⟨fun ha => ha.unchanged,fun hunchanged => ?_⟩
  refine
    { reach := hreach
      unchanged := hunchanged
      unobservedAtFrom := rfl
      unobservedAtTo := rfl
      once := counted_once h
      changes := rfl
      counted := rfl
      appeared := fun o _ hfrom v hto hv => changeOf_appeared hfrom hto hv
      ended := rfl
      cut := fun n hn => ?_ }
  obtain ⟨whole,hall,hwhole⟩ : ∃ whole, (∀ o, upTo whole o = true ↔
        Within t inside { q with objectsPerSide := n } q.atFrom o ∧
          Within t inside { q with objectsPerSide := n } q.atTo o) ∧
      compareInside sha256 t { q with objectsPerSide := n } inside =
        comparedUpTo sha256 t inside { q with objectsPerSide := n } whole :=
    compareInside_eq h sha256 (.inr hn) hcalm
  rw [hwhole]
  have hfits : ∀ m, (side t inside m).length ≤ n := fun m => side_length_le.trans hn
  exact changes_cut boundary fun o => (hall o).mpr ⟨.inl (hfits _),.inl (hfits _)⟩

end Accounting

/-- A comparison within its time accounts for every object it reaches exactly
when none of these was absent at both instants: it counts a lasting absence as
an object that stayed. -/
theorem comparison_accounts_iff (casefold sha256 : String → String) {hash : State → String}
    {t : Table} (h : WellFormed hash t) (q : ComparisonRequest) (hlt : q.atFrom < q.atTo)
    (hwindow : q.scope = none → q.atTo-q.atFrom ≤ maxUnscopedWindow)
    (hlimit : 1 ≤ q.objectsPerSide) (hcalm : ∀ p, q.interrupts p = none)
    {predicates : Option (ObservationKind → Option Predicate)}
    (hscope : q.scope.mapM (predicatesFor casefold) = .ok predicates) :
    (∃ c, compare sha256 t q casefold = .ok c ∧
        Accounts sha256 t (restrict q.kinds predicates) q c) ↔
      NoLastingTombstone t (restrict q.kinds predicates) q := by
  have hcompare : compare sha256 t q casefold =
      .ok (compareInside sha256 t q (restrict q.kinds predicates)) := by
    have hinstants : ¬ q.atTo ≤ q.atFrom := not_le.mpr hlt
    have hnarrow : ¬ (q.scope.isNone = true ∧ maxUnscopedWindow < q.atTo-q.atFrom) := by
      rintro ⟨hnone,hwide⟩
      exact (hwindow (Option.isNone_iff_eq_none.mp hnone)).not_gt hwide
    unfold compare
    rw [if_neg hinstants, if_neg hnarrow, hscope]
    rfl
  have hiff : Accounts sha256 t (restrict q.kinds predicates) q
        (compareInside sha256 t q (restrict q.kinds predicates)) ↔
      NoLastingTombstone t (restrict q.kinds predicates) q := accounts_iff h (.inl hlimit) hcalm
  rw [hcompare, ← hiff]
  constructor
  · rintro ⟨c,hc,ha⟩
    cases hc
    exact ha
  · intro ha
    exact ⟨_,rfl,ha⟩

namespace Sample

def state (name : String) : State := [("server",.text name)]

def digest (_ : State) : String := "d1"

def version (id : ℕ) (name : String) (validFrom : Instant) : ObjectVersion where
  versionId := id
  kind := .server
  key := name
  isPresent := true
  state := some (state name)
  stateHash := some "d1"
  validFrom := validFrom
  lastSeenAt := validFrom+4
  openedByRunId := "r1"
  lastSeenRunId := "r1"

/-- There until five, and known to be gone from then on. -/
def early : ObjectVersion :=
  { version 0 "fs01" 0 with
    validTo := some 5
    closeReason := some .absent
    closedByRunId := some "r2" }

def gone : ObjectVersion :=
  { version 1 "fs01" 5 with
    isPresent := false
    state := none
    stateHash := none }

def stays : ObjectVersion := version 2 "fs02" 0

def rows : List ObjectVersion := [early,gone,stays]

theorem rows_fresh : ∀ v ∈ rows, v.versionId < 3 := by decide

theorem rows_nodup : (rows.map (·.versionId)).Nodup := by decide

theorem rows_checked : ∀ v ∈ rows, checks v = true := by decide

theorem rows_compatible : rows.Pairwise Compatible := by decide

def servers : Table where
  rows := rows
  nextId := 3
  ids_fresh := rows_fresh
  ids_nodup := rows_nodup
  checked := rows_checked
  compatible := rows_compatible

theorem mem_servers {v : ObjectVersion} (h : v ∈ servers.rows) :
    v = early ∨ v = gone ∨ v = stays := by
  simpa [servers, rows] using h

theorem servers_sound : Sound digest servers where
  valid := by
    intro v hv
    refine validate_ok.mp ?_
    rcases mem_servers hv with rfl | rfl | rfl <;> rfl
  proper := by
    intro v hv e he
    rcases mem_servers hv with rfl | rfl | rfl <;> cases he
    decide
  apart := by
    intro v hv w hw hne ho
    have hends : early.span.Before gone.span := ⟨5,rfl,le_refl 5⟩
    have hother : "fs01" ≠ "fs02" := by decide
    rcases mem_servers hv with rfl | rfl | rfl <;> rcases mem_servers hw with rfl | rfl | rfl <;>
      first
      | exact absurd rfl hne
      | exact .inl hends
      | exact .inr hends
      | exact absurd (congrArg Prod.snd ho) hother
      | exact absurd (congrArg Prod.snd ho) hother.symm
  opened := by
    intro v hv
    rcases mem_servers hv with rfl | rfl | rfl
    · exact ⟨gone,by simp [servers, rows],rfl,rfl⟩
    · exact ⟨gone,hv,rfl,rfl⟩
    · exact ⟨stays,hv,rfl,rfl⟩

/-- One object a side, between two instants before anything went. -/
def before : ComparisonRequest where
  atFrom := 1
  atTo := 3
  objectsPerSide := 1

/-- Between two instants after the server went. -/
def after : ComparisonRequest where
  atFrom := 6
  atTo := 8

theorem before_present (inside : ObjectVersion → Bool) :
    NoLastingTombstone servers inside before := by
  intro o _ _ v hv w _
  obtain ⟨hv,hc,-⟩ := mem_side.mp (mem_of_coveredBy hv)
  rcases mem_servers hv with rfl | rfl | rfl
  · exact .inl rfl
  · exact absurd hc (by decide)
  · exact .inl rfl

end Sample

theorem comparison_accounts_sample :
    ∃ c, compare id Sample.servers Sample.before id = .ok c ∧
      Accounts id Sample.servers (restrict none none) Sample.before c :=
  (comparison_accounts_iff id id Sample.servers_sound.wellFormed Sample.before (by decide)
    (fun _ => by decide) (by decide) (fun _ => rfl) rfl).mpr (Sample.before_present _)

/-- A server that was gone at both instants is counted as one that stayed. -/
theorem lasting_tombstone_unchanged :
    WellFormed Sample.digest Sample.servers ∧
      ∀ c, compare id Sample.servers Sample.after id = .ok c →
        ¬ Accounts id Sample.servers (restrict none none) Sample.after c := by
  have hcount : (compare id Sample.servers Sample.after id).toOption.map
      (fun c => (c.unchanged,c.comparedThrough)) = some (2,none) := by
    decide +kernel
  have hspec : (reached Sample.servers (restrict none none) Sample.after none).countP (fun o =>
      remains (coveredBy Sample.servers (restrict none none) Sample.after.atFrom o)
        (coveredBy Sample.servers (restrict none none) Sample.after.atTo o)) = 1 := by
    decide +kernel
  refine ⟨Sample.servers_sound.wellFormed,fun c hc ha => ?_⟩
  rw [hc, Except.toOption, Option.map_some, Option.some.injEq, Prod.mk.injEq] at hcount
  have hunchanged := ha.unchanged
  rw [hcount.1, hcount.2, hspec] at hunchanged
  exact absurd hunchanged (by decide)

end Adg.PointComparison
