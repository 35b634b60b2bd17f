import Adg.AccessCausality
import Adg.Reachability

/-!
# Measured removals and the whole explanation

A removal target is an edge some path runs through, measured by running the
access check again with the edge gone: a membership row withdraws the groups
it alone led to, a trustee edge withdraws one entry of one ACL.
-/

set_option autoImplicit false

namespace Adg.RemovalAnalysis
open Adg.Observation Adg.RightsAlgebra Adg.AccessSubjects Adg.Evaluation Adg.AccessResolver
open Adg.MembershipGraph Adg.CycleSearch Adg.AccessCausality Adg.Reachability

/-- The groups a key is a direct member of, one row at a time. -/
def groupsOf (edges : List GraphEdge) (key : String) : List String :=
  (edges.filter (·.memberKey = key)).map (·.groupKey)

/-- `_reachable_upward`. -/
def reachableUpward (edges : List GraphEdge) (root : String) : List String :=
  reachedFrom (groupsOf edges) (edges.length+1) root

/-- The stored rows without one of them. -/
def withoutRow (edges : List GraphEdge) (row : String) : List GraphEdge :=
  edges.filter (·.edgeKey ≠ row)

/-- `_without`: one entry removed, the order of the rest kept. -/
def without (entries : List AclEntry) (excluded : Option (RightsLayer × ℕ)) (layer : RightsLayer) :
    List AclEntry :=
  match excluded with
  | none => entries
  | some (l,position) => if l = layer then entries.eraseIdx position else entries

/-- `_restricted`: the same token carrying only some of its keys. -/
def restricted (token : SubjectToken) (keys : List String) : Except DomainError SubjectToken :=
  if h : token.entries.filter (·.key ∈ keys) ≠ [] then
    .ok { token with
      entries := token.entries.filter (·.key ∈ keys)
      entries_ne := h
      keys_nodup := token.keys_nodup.sublist (List.filter_sublist.map _) }
  else
    .error { message := "A token always contains at least the subject's own SID."
             field := "entries" }

section Measure
variable (q : Question)

/-- `_surviving_keys`: what the subject still reaches without the edge. -/
def survivingKeys (edge : ExplanationEdge) : List String :=
  let token := q.access.token
  match edge.kind, edge.membershipEdgeKey with
  | .membership, some row =>
    let reachable := reachableUpward (withoutRow q.subgraph row) token.subject.key
    (token.entries.filter fun e => e.origin ≠ .groupMembership || e.key ∈ reachable).map (·.key)
  | _, _ => token.keys

/-- `_ace_behind`: the entry a trustee edge points at, read off its node. -/
def aceBehind (b : Builder) (edge : ExplanationEdge) : Option (RightsLayer × ℕ) :=
  if edge.kind ≠ .trustee then none
  else
    match b.node edge.target with
    | none => none
    | some node =>
      match node.layer, node.position with
      | some layer, some position => some (layer,position)
      | _, _ => none

/-- `_reevaluate`: the access check for a reduced token and a reduced ACL. -/
def reevaluate (keys : List String) (excluded : Option (RightsLayer × ℕ)) :
    Except DomainError RightsMask := do
  let token ← restricted q.access.token keys
  let ntfs ← evaluateAcl (without q.resource.entries excluded .ntfs) token .ntfs q.resource.facts
  match q.share with
  | none =>
    let crossed ← effectiveRights ntfs.rights q.access.path none
    return crossed.rights
  | some share =>
    if !share.observed then return ⟨ntfs.rights.expandGenerics.value,.effective⟩
    else
      let evaluation ← evaluateAcl (without share.entries excluded .smbShare) token .smbShare
        unownedPresentDacl
      let crossed ← effectiveRights ntfs.rights q.access.path (some evaluation.rights)
      return crossed.rights

/-- The target that a measured mask makes of an edge. -/
def targetOf (b : Builder) (edge : ExplanationEdge) (edgeId : String) (rights : RightsMask) :
    RemovalTarget :=
  let before := q.access.rights.expandGenerics.value
  { edgeId := edgeId
    kind := edge.kind
    source := edge.source
    target := edge.target
    rightsRemoved := ⟨before &&& ~~~rights.value,.effective⟩
    rightsAdded := ⟨rights.value &&& ~~~before,.effective⟩
    rightsAfter := rights
    revokesAllAccess := q.access.hasAccess && rights.value = 0
    alternatePaths := (b.paths.filter fun p =>
      p.effect = .contributes && p.isGrant && edgeId ∉ p.edgeIds).map (·.pathId)
    pathsRemoved := (b.paths.filter (edgeId ∈ ·.edgeIds)).map (·.pathId) }

/-- `_measure`. -/
def measure (b : Builder) (edgeId : String) : Except DomainError (Option RemovalTarget) :=
  match b.edge edgeId with
  | none => .ok none
  | some edge => do
    let rights ← reevaluate q (survivingKeys q edge) (aceBehind b edge)
    return some (targetOf q b edge edgeId rights)

/-- `_candidates`: the removable edges on a path, in the order of the paths. -/
def candidates (b : Builder) : List String :=
  firstOccurrences ((b.paths.flatMap (·.edgeIds)).filter fun edgeId =>
    (b.edge edgeId).any (·.isRemovable))

/-- The loop of `removal_targets`, with the targets measured so far. -/
def measureAll : List String → List RemovalTarget → Builder →
    Except DomainError (List RemovalTarget × Builder)
  | [], targets, b => .ok (targets,b)
  | edgeId :: rest, targets, b =>
    if q.limits.maxRemovalTargets ≤ targets.length then .ok (targets,b.truncate .maxRemovalTargets)
    else do
      let target ← measure q b edgeId
      measureAll rest (targets ++ target.toList) b

/-- `removal_targets`. -/
def removalTargets (b : Builder) : Except DomainError (List RemovalTarget × Builder) :=
  measureAll q (candidates b) [] b

end Measure

/-- `_check_inputs`: the DACL and share of the answer, and no other. -/
def checkInputs (access : EffectiveAccess) (resource : ResourceDacl) (share : Option ShareDacl) :
    Except DomainError Unit := do
  if resource.resourceKey ≠ access.resourceKey then
    throw { message := s!"The answer is about '{access.resourceKey}' and the DACL supplied is '{resource.resourceKey}'. Explaining one with the other would derive a plausible chain of causes for rights nobody holds.", field := "resource" }
  let supplied := share.map (·.shareKey)
  if supplied ≠ access.shareKey then
    let answered := access.shareKey.getD "None"
    let given := supplied.getD "None"
    throw { message := s!"The answer was resolved against share '{answered}' and share '{given}' was supplied.", field := "share" }

/-- `explain_access`. -/
def explainAccess (access : EffectiveAccess) (resource : ResourceDacl) (share : Option ShareDacl)
    (edges : List GraphEdge) (limits : ExplanationLimits) :
    Except DomainError AccessExplanation := do
  checkInputs access resource share
  let q : Question := ⟨access,resource,share,limits,edges⟩
  let b ← build q
  let (targets,b') ← removalTargets q b
  return {
    access := access
    graph := b.graph
    paths := b.paths
    removalTargets := targets
    cycles := if edges = [] then [] else findCycles edges .up none
    limits := limits
    truncation := b'.truncation.insertionSort fun r s => r.value ≤ s.value
    findings := b'.findings }

end Adg.RemovalAnalysis
