import Adg.RemovalAnalysis
import Adg.Verdicts
import Adg.FirstOfEach
import Adg.SortedLists
import Adg.ShortestRoutes

/-!
# Investigations of an explained answer

An investigation selects from an explanation: whether access is present, the
route through each ACL that carries it, which findings could change the
conclusion, and what to look at next. It decides nothing that the explanation
has not decided.
-/

set_option autoImplicit false

namespace Adg.Investigations
open Adg.Observation Adg.RightsAlgebra Adg.AccessConditions Adg.AccessResolver
open Adg.AccessCausality Adg.Verdicts Adg.SortedLists Adg.FirstOfEach Adg.ShortestRoutes

inductive AccessPresence where
  | present
  | absent
  | undetermined
  deriving DecidableEq, Repr

inductive RouteKind where
  | direct
  | group
  | assumed
  | ownership
  deriving DecidableEq, Repr

inductive EntryPlacement where
  | explicit
  | inherited
  | owner
  deriving DecidableEq, Repr

inductive RemovalEffect where
  | revokesAccess
  | narrowsAccess
  | changesNothing
  | widensAccess
  deriving DecidableEq, Repr

inductive EvidenceState where
  | confirmed
  | ambiguous
  | missing
  | conflicting
  | assumed
  | derived
  | context
  deriving DecidableEq, Repr

inductive ConclusionImpact where
  | none
  | extent
  | presence
  deriving DecidableEq, Repr

/-- `_IMPACT_RANK`. -/
def ConclusionImpact.rank : ConclusionImpact → ℕ
  | .none => 0
  | .extent => 1
  | .presence => 2

inductive NextStepCode where
  | resolveTrusteeIdentity
  | collectGroupMembership
  | settleSystemMapping
  | resolveSubjectIdentity
  | collectSubjectMembership
  | rescanResource
  | reviewRedundantEntry
  | reviewSoleRoute
  | reviewFinding
  | inspectExplanation
  deriving DecidableEq, Repr

structure PrimaryRoute where
  layer : RightsLayer
  pathId : String
  route : RouteKind
  placement : EntryPlacement
  membershipHops : ℤ
  coverage : RightsMask
  removalEdgeId : Option String
  removalEffect : Option RemovalEffect
  removal : Option RemovalTarget
  alternates : List String

structure OpenQuestion where
  finding : AccessFinding
  state : EvidenceState
  impact : ConclusionImpact
  about : Option String
  deriving DecidableEq

structure NextStep where
  code : NextStepCode
  about : Option String := none
  pathId : Option String := none
  condition : Option AccessCondition := none
  deriving DecidableEq, Repr

structure Investigation where
  presence : AccessPresence
  outcome : AccessOutcome
  primaryRoutes : List PrimaryRoute
  openQuestions : List OpenQuestion
  impact : ConclusionImpact
  nextSteps : List NextStep
  routesComplete : Bool

def Investigation.affectsConclusion (i : Investigation) : Bool := i.impact = .presence

/-! ### Question 1 -/

/-- `_presence`. -/
def presenceOf : AccessOutcome → AccessPresence
  | .granted => .present
  | .indeterminate => .undetermined
  | _ => .absent

/-! ### Questions 2 to 4 -/

/-- A path that settled a right nothing else withheld, and allows it. -/
def carries (layer : RightsLayer) (p : CausalPath) : Bool :=
  p.layer = layer && p.effect = .contributes && p.isGrant

/-- `_coverage`. -/
def coverage (final : AccessMask) (p : CausalPath) : AccessMask :=
  p.aceRights.expandGenerics.value &&& final

/-- `int.bit_count`. -/
def bitCount (m : AccessMask) : ℕ := (List.range 32).countP m.getLsbD

/-- What a path is ranked by: its coverage, then observed before assumed. -/
def strength (final : AccessMask) (p : CausalPath) : ℕ ×ₗ ℕ :=
  toLex (bitCount (coverage final p),if p.assumed then 0 else 1)

/-- The strongest of the paths; of equals the first. -/
def strongest (final : AccessMask) (paths : List CausalPath) : Option CausalPath :=
  firstBest (fun p best => strength final best < strength final p) paths

/-- `_route_kind`. -/
def routeKind (p : CausalPath) : RouteKind :=
  if p.acePosition = ownershipPosition then .ownership
  else if p.assumed then .assumed
  else if p.viaGroup then .group
  else .direct

/-- `_placement`. -/
def placementOf (p : CausalPath) : EntryPlacement :=
  if p.acePosition = ownershipPosition then .owner
  else if p.inherited then .inherited
  else .explicit

/-- `_first_removable_edge`; of two edges of one id the mapping keeps the later. -/
def firstRemovableEdge (p : CausalPath) (graph : ExplanationGraph) : Option String :=
  p.edgeIds.find? fun id => (graph.edges.reverse.find? (·.edgeId = id)).any (·.isRemovable)

/-- `_removal_effect`. -/
def removalEffectOf (t : RemovalTarget) : RemovalEffect :=
  if !t.rightsAdded.isEmpty then .widensAccess
  else if t.revokesAllAccess then .revokesAccess
  else if t.rightsRemoved.isEmpty then .changesNothing
  else .narrowsAccess

/-- The measured removal of the first edge of a path that can be deleted. -/
def measuredRemoval (x : AccessExplanation) (p : CausalPath) : Option RemovalTarget :=
  (firstRemovableEdge p x.graph).bind fun id => x.removalTargets.reverse.find? (·.edgeId = id)

/-- `_route`. -/
def routeOf (x : AccessExplanation) (final : AccessMask) (p : CausalPath) : PrimaryRoute where
  layer := p.layer
  pathId := p.pathId
  route := routeKind p
  placement := placementOf p
  membershipHops := p.length
  coverage := ⟨coverage final p,.effective⟩
  removalEdgeId := (measuredRemoval x p).bind fun _ => firstRemovableEdge p x.graph
  removalEffect := (measuredRemoval x p).map removalEffectOf
  removal := measuredRemoval x p
  alternates :=
    (x.paths.filter fun other => carries p.layer other && other.pathId ≠ p.pathId).map (·.pathId)

/-- `access.rights.expand_generics().value`. -/
def finalMask (x : AccessExplanation) : AccessMask := x.access.rights.expandGenerics.value

/-- The route through one ACL, where any path carries access there. -/
def layerRoute (x : AccessExplanation) (layer : RightsLayer) : Option PrimaryRoute :=
  (strongest (finalMask x) (x.paths.filter (carries layer))).map (routeOf x (finalMask x))

/-- `_primary_routes`. -/
def primaryRoutes (x : AccessExplanation) : List PrimaryRoute :=
  [.ntfs, .smbShare].filterMap (layerRoute x)

/-! ### Questions 5 and 6 -/

/-- `_SYSTEM_STATES`. -/
def systemState : AccessCondition → Option EvidenceState
  | .systemMappingConfirmed => some .confirmed
  | .systemMappingAmbiguous => some .ambiguous
  | .systemMappingMissing => some .missing
  | .systemMappingConflicting => some .conflicting
  | _ => none

/-- `_STATES`, and `_state` of what is not in it. -/
def stateOf (condition : AccessCondition) : EvidenceState :=
  match condition with
  | .trusteeMembershipUnobserved | .unresolvedTrustee | .subjectUnresolved
  | .membershipTruncated | .shareAclNotObserved | .ntfsAclNotObserved
  | .intermediatePathUnobserved | .aceCountMismatch | .aclTruncated => .missing
  | .ntfsAclDerived => .derived
  | .logonTypeTrustee | .subjectIsAGroup => .ambiguous
  | .assumedTokenSids => .assumed
  | other => (systemState other).getD .context

/-- `_impact`. -/
def impactOf (granted : Bool) (f : AccessFinding) : ConclusionImpact :=
  if granted then
    if f.mayOverstate then .presence
    else if f.mayUnderstate then .extent
    else .none
  else if f.mayUnderstate then .presence
  else .none

/-- `_about`. -/
def aboutOf (f : AccessFinding) : Option String :=
  ["trustee_key", "subject_key"].findSome? fun field =>
    match f.detail.lookup field with
    | some (.text value) => if value = "" then none else some value
    | _ => none

def questionOf (granted : Bool) (f : AccessFinding) : OpenQuestion :=
  ⟨f,stateOf f.condition,impactOf granted f,aboutOf f⟩

/-- The most severe impact, `none` where there is no question. -/
def worstImpact (questions : List OpenQuestion) : ConclusionImpact :=
  ((firstBest (fun q best => best.impact.rank < q.impact.rank) questions).map (·.impact)).getD .none

/-! ### Question 7 -/

/-- `_RESCAN`. -/
def rescan : List AccessCondition :=
  [.shareAclNotObserved, .ntfsAclNotObserved, .ntfsAclDerived, .intermediatePathUnobserved,
    .aceCountMismatch, .aclTruncated]

/-- `_step_for`. -/
def stepFor (unidentified : List String) (q : OpenQuestion) : NextStep :=
  let condition := q.finding.condition
  let code : NextStepCode :=
    if condition = .trusteeMembershipUnobserved then
      if q.about.any (· ∈ unidentified) then .resolveTrusteeIdentity else .collectGroupMembership
    else if condition = .unresolvedTrustee then .resolveTrusteeIdentity
    else if (systemState condition).isSome && condition ≠ .systemMappingConfirmed then
      .settleSystemMapping
    else if condition = .subjectUnresolved then .resolveSubjectIdentity
    else if condition = .membershipTruncated then .collectSubjectMembership
    else if condition ∈ rescan then .rescanResource
    else .reviewFinding
  { code := code
    about := q.about
    condition := some condition }

/-- `_route_step`. -/
def routeStep (r : PrimaryRoute) : Option NextStep :=
  if r.removalEffect = some .revokesAccess then
    some { code := .reviewSoleRoute, pathId := some r.pathId }
  else if r.route = .direct && r.removalEffect = some .changesNothing then
    some { code := .reviewRedundantEntry, pathId := some r.pathId }
  else none

def NextStep.key (s : NextStep) : NextStepCode × Option String × Option String :=
  (s.code,s.about,s.pathId)

/-- The open questions that could change the answer, the gravest first. -/
def rankedQuestions (questions : List OpenQuestion) : List OpenQuestion :=
  sortedBy (fun q => OrderDual.toDual q.impact.rank) (questions.filter (·.impact ≠ .none))

/-- `_next_steps`; a step under a key that is taken is passed over. -/
def nextStepsOf (unidentified : List String) (questions : List OpenQuestion)
    (routes : List PrimaryRoute) : List NextStep :=
  let steps := firstOfEach NextStep.key
    ((rankedQuestions questions).map (stepFor unidentified) ++ routes.filterMap routeStep)
  if steps = [] then [{ code := .inspectExplanation }] else steps

/-- `investigate`. -/
def investigate (x : AccessExplanation) (unidentified : List String) : Investigation :=
  let outcome := (classifyAccess x.access).outcome
  let granted := presenceOf outcome = .present
  let routes := if granted then primaryRoutes x else []
  let questions := x.access.findings.map (questionOf granted)
  { presence := presenceOf outcome
    outcome := outcome
    primaryRoutes := routes
    openQuestions := questions
    impact := worstImpact questions
    nextSteps := nextStepsOf unidentified questions routes
    routesComplete := x.truncation.isEmpty }

end Adg.Investigations
