import Adg.ChangeRules
import Adg.SortedLists

/-!
# One change from two versions

A change is what the step from one version of an object to the next says: what
happened, when at the earliest and at the latest, which fields moved, and what
the rules make of it. It is a function of the two versions and of the few facts
that the object cannot know about itself.
-/

set_option autoImplicit false

namespace Adg.ChangeClassification
open Adg.ObjectVersions Adg.ChangeFields Adg.ChangeRules Adg.SortedLists

inductive ChangeSignificance where
  | security
  | metadata
  | noise
  | undetermined
  deriving DecidableEq, Repr

structure ChangeWindow where
  after : Instant
  atOrBefore : Instant
  deriving DecidableEq, Repr

structure SubjectRef where
  containerKind : Option ObservationKind
  containerKey : Option String
  relatedKind : Option ObservationKind
  relatedKey : Option String
  deriving DecidableEq, Repr

/-- What `__post_init__` refuses cannot be built. -/
structure ObjectChange where
  kind : ObservationKind
  key : String
  action : ChangeAction
  window : Option ChangeWindow
  before : Option ObjectVersion
  after : ObjectVersion
  deltas : List FieldDelta
  significance : ChangeSignificance
  direction : ChangeDirection
  severity : ChangeSeverity
  subject : SubjectRef
  ruleId : String
  first_unbounded : action = .firstObserved → window = none
  first_alone : action = .firstObserved → before = none
  bounded : before.isSome = true → window.isSome = true
  deriving DecidableEq

/-- `at`: when the newer version opened. -/
def ObjectChange.openedAt (c : ObjectChange) : Instant := c.after.validFrom

def ObjectChange.object (c : ObjectChange) : Object := (c.kind,c.key)

/-- `deltas_between`, over the union of the two key sets. -/
def deltasBetween (kind : ObservationKind) (before after : Option State) : List FieldDelta :=
  let left := before.getD []
  let right := after.getD []
  (sortedBy id ((left ++ right).map (·.1)).dedup).filterMap fun name =>
    if h : valueOf left name ≠ valueOf right name then
      some ⟨name,valueOf left name,valueOf right name,
        (significanceOf kind name).getD .unclassified,h⟩
    else none

/-- `action_for`. -/
def actionFor (before : Option ObjectVersion) (after : ObjectVersion)
    (containerObservedBefore : Option Bool) : ChangeAction :=
  if ¬ after.isPresent then .removed
  else match before with
    | none => if containerObservedBefore = some true then .added else .firstObserved
    | some b => if ¬ b.isPresent then .added else .modified

/-- `window_between`. -/
def windowBetween (before : Option ObjectVersion) (after : ObjectVersion)
    (containerConfirmedAt : Option Instant) : Option ChangeWindow :=
  let lower := match before with
    | some b => some b.lastSeenAt
    | none => containerConfirmedAt
  lower.map fun l => ⟨l,max after.validFrom l⟩

/-- `significance_for`: the strongest kind of field decides a modification. -/
def significanceFor (action : ChangeAction) (deltas : List FieldDelta)
    (orderingMaterial : Option Bool) : ChangeSignificance :=
  let moved (s : FieldSignificance) : Bool := deltas.any (·.significance = s)
  if action ≠ .modified then .security
  else if moved .unclassified || moved .identity then .undetermined
  else if moved .security then .security
  else if moved .order then
    match orderingMaterial with
    | none => .undetermined
    | some true => .security
    | some false => .noise
  else if moved .metadata || moved .derived then .metadata
  else .noise

/-- `_first_key`: the newer version's key, unless it is empty. -/
def firstKey (key : ObjectVersion → Option String) (after : ObjectVersion)
    (before : Option ObjectVersion) : Option String :=
  ((key after).filter (· ≠ "")).or ((before.bind key).filter (· ≠ ""))

def subjectOf (kind : ObservationKind) (containerKey relatedKey : Option String) : SubjectRef where
  containerKind := if containerKey.isSome then containerKindOf kind else none
  containerKey := containerKey
  relatedKind := if relatedKey.isSome then relatedKindOf kind else none
  relatedKey := relatedKey

/-- What an object cannot know about itself. -/
structure Surroundings where
  containerObservedBefore : Option Bool := none
  containerConfirmedAt : Option Instant := none
  orderingMaterial : Option Bool := none
  siblingAceChanges : Option ℕ := none
  deriving DecidableEq, Repr

def factsOf (before : Option ObjectVersion) (after : ObjectVersion) (s : Surroundings) :
    ChangeFacts :=
  let action := actionFor before after s.containerObservedBefore
  { kind := after.kind
    key := after.key
    action := action
    before := before.bind (·.state)
    after := after.state
    deltas := if action = .modified then
      deltasBetween after.kind (before.bind (·.state)) after.state else []
    containerKey := firstKey (·.containerKey) after before
    relatedKey := firstKey (·.relatedKey) after before
    orderingMaterial := s.orderingMaterial
    siblingAceChanges := s.siblingAceChanges }

/-- A first sighting carries no window, whatever was confirmed beside it. -/
def windowOf (before : Option ObjectVersion) (after : ObjectVersion) (s : Surroundings) :
    Option ChangeWindow :=
  if actionFor before after s.containerObservedBefore = .firstObserved then none
  else windowBetween before after s.containerConfirmedAt

theorem windowOf_first {before : Option ObjectVersion} {after : ObjectVersion} {s : Surroundings}
    (h : actionFor before after s.containerObservedBefore = .firstObserved) :
    windowOf before after s = none := if_pos h

theorem actionFor_first {before : Option ObjectVersion} {after : ObjectVersion} {o : Option Bool}
    (h : actionFor before after o = .firstObserved) : before = none := by
  cases before with
  | none => rfl
  | some b =>
    by_cases ha : after.isPresent <;> by_cases hb : b.isPresent <;> simp [actionFor, ha, hb] at h

theorem windowOf_bounded {before : Option ObjectVersion} {after : ObjectVersion}
    {s : Surroundings} (h : before.isSome = true) : (windowOf before after s).isSome = true := by
  obtain ⟨b,rfl⟩ := Option.isSome_iff_exists.mp h
  unfold windowOf
  rw [if_neg fun hfirst => Option.some_ne_none b (actionFor_first hfirst)]
  rfl

/-- `classify`. -/
def classify (before : Option ObjectVersion) (after : ObjectVersion) (s : Surroundings) :
    ObjectChange where
  kind := after.kind
  key := after.key
  action := actionFor before after s.containerObservedBefore
  window := windowOf before after s
  before := before
  after := after
  deltas := (factsOf before after s).deltas
  significance := significanceFor (actionFor before after s.containerObservedBefore)
    (factsOf before after s).deltas s.orderingMaterial
  direction := (evaluate (factsOf before after s)).direction
  severity := (evaluate (factsOf before after s)).severity
  subject := subjectOf after.kind (firstKey (·.containerKey) after before)
    (firstKey (·.relatedKey) after before)
  ruleId := (evaluate (factsOf before after s)).ruleId
  first_unbounded := windowOf_first
  first_alone := actionFor_first
  bounded := windowOf_bounded

/-- `_is_order_only`: every delta that is not noise is a position. -/
def isOrderOnly (c : ObjectChange) : Bool :=
  c.action = .modified && c.kind ∈ aceKinds && c.deltas.any (·.significance = .order) &&
    c.deltas.all fun d => d.significance = .order ∨ d.significance = .noise

theorem actionFor_some (b after : ObjectVersion) (o o' : Option Bool) :
    actionFor (some b) after o = actionFor (some b) after o' := rfl

/-- The facts about the container matter to a first version only. -/
theorem classify_some (b after : ObjectVersion) (s s' : Surroundings)
    (horder : s.orderingMaterial = s'.orderingMaterial)
    (hsiblings : s.siblingAceChanges = s'.siblingAceChanges) :
    classify (some b) after s = classify (some b) after s' := by
  have hfacts : factsOf (some b) after s = factsOf (some b) after s' := by
    unfold factsOf
    rw [horder, hsiblings]
    rfl
  have hwindow : windowOf (some b) after s = windowOf (some b) after s' := rfl
  simp only [classify, hfacts, hwindow,
    actionFor_some b after s.containerObservedBefore s'.containerObservedBefore, horder]

/-- What appears and what disappears is about access. -/
theorem significanceFor_unmodified {action : ChangeAction} (h : action ≠ .modified)
    (deltas : List FieldDelta) (o : Option Bool) :
    significanceFor action deltas o = .security := if_pos h

end Adg.ChangeClassification
