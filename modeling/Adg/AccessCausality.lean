import Adg.LowerBound
import Adg.CycleSearch
import Adg.SimplePaths

/-!
# Why a principal has the rights it has

An explanation is a graph and the routes across it: the subject, up through
groups, onto an entry, onto the object. The builder enumerates every route,
replays what each entry settled first, and splits that against the other
layer.
-/

set_option autoImplicit false

namespace Adg.AccessCausality
open Adg.Observation Adg.RightsAlgebra Adg.AccessConditions Adg.AccessSubjects Adg.Evaluation
open Adg.FirstMatch Adg.AccessResolver Adg.MembershipGraph Adg.SimplePaths Adg.CycleSearch

def ownershipPosition : ℤ := -1

def maxRemovalTargetsCeiling : ℕ := 256

inductive NodeKind where
  | principal
  | group
  | assumedTrustee
  | ntfsAce
  | smbAce
  | resource
  | share
  deriving DecidableEq, Repr

inductive EdgeKind where
  | membership
  | assumedMembership
  | trustee
  | grant
  | deny
  | ownership
  deriving DecidableEq, Repr

def EdgeKind.value : EdgeKind → String
  | .membership => "membership"
  | .assumedMembership => "assumed_membership"
  | .trustee => "trustee"
  | .grant => "grant"
  | .deny => "deny"
  | .ownership => "ownership"

structure ExplanationNode where
  nodeId : String
  kind : NodeKind
  key : String
  sid : Option String := none
  displayName : Option String := none
  layer : Option RightsLayer := none
  position : Option ℕ := none
  deriving DecidableEq

structure ExplanationEdge where
  edgeId : String
  kind : EdgeKind
  source : String
  target : String
  membershipEdgeKey : Option String := none
  aceKey : Option String := none
  deriving DecidableEq

def ExplanationEdge.isRemovable (e : ExplanationEdge) : Bool :=
  e.kind = .membership || e.kind = .trustee

structure ExplanationGraph where
  nodes : List ExplanationNode := []
  edges : List ExplanationEdge := []

namespace ExplanationGraph

def node (g : ExplanationGraph) (nodeId : String) : Option ExplanationNode :=
  g.nodes.find? (·.nodeId = nodeId)

def edge (g : ExplanationGraph) (edgeId : String) : Option ExplanationEdge :=
  g.edges.find? (·.edgeId = edgeId)

end ExplanationGraph

inductive PathRelation where
  | grant
  | deny
  deriving DecidableEq, Repr

inductive PathEffect where
  | contributes
  | redundant
  | constrained
  deriving DecidableEq, Repr

/-- One route from the subject to one entry on one object. -/
structure CausalPath where
  pathId : String
  layer : RightsLayer
  relation : PathRelation
  effect : PathEffect
  chain : List String
  nodeIds : List String
  edgeIds : List String
  trusteeKey : String
  acePosition : ℤ
  aceKey : Option String
  aceRights : RightsMask
  layerRights : RightsMask
  effectiveRights : RightsMask
  constrainedRights : RightsMask
  assumed : Bool
  viaGroup : Bool
  inherited : Bool
  deriving DecidableEq

namespace CausalPath

def length (p : CausalPath) : ℕ := p.chain.length-1

def isGrant (p : CausalPath) : Bool := p.relation = .grant

end CausalPath

structure RemovalTarget where
  edgeId : String
  kind : EdgeKind
  source : String
  target : String
  rightsRemoved : RightsMask
  rightsAdded : RightsMask
  rightsAfter : RightsMask
  revokesAllAccess : Bool
  alternatePaths : List String
  pathsRemoved : List String
  deriving DecidableEq

/-- Bounds on an explanation: at least one of everything, below the ceilings. -/
structure ExplanationLimits where
  maxPaths : ℕ := 200
  maxPathsPerTrustee : ℕ := 25
  maxDepth : ℕ := 32
  maxRemovalTargets : ℕ := 64
  paths_bounds : 1 ≤ maxPaths ∧ maxPaths ≤ maxPathsCeiling := by decide
  trustee_bounds : 1 ≤ maxPathsPerTrustee ∧ maxPathsPerTrustee ≤ maxPathsCeiling := by decide
  depth_bounds : 1 ≤ maxDepth ∧ maxDepth ≤ maxDepthCeiling := by decide
  removal_bounds : 1 ≤ maxRemovalTargets ∧ maxRemovalTargets ≤ maxRemovalTargetsCeiling := by
    decide

/-- The limits of one chain enumeration. -/
def ExplanationLimits.graphLimits (l : ExplanationLimits) : TraversalLimits where
  maxDepth := l.maxDepth
  maxPaths := l.maxPathsPerTrustee
  depth_bounds := l.depth_bounds
  paths_bounds := l.trustee_bounds

inductive PathTruncation where
  | maxPaths
  | maxPathsPerTrustee
  | maxDepth
  | maxRemovalTargets
  | membershipIncomplete
  | edgesNotSupplied
  deriving DecidableEq, Repr

def PathTruncation.value : PathTruncation → String
  | .maxPaths => "max_paths"
  | .maxPathsPerTrustee => "max_paths_per_trustee"
  | .maxDepth => "max_depth"
  | .maxRemovalTargets => "max_removal_targets"
  | .membershipIncomplete => "membership_incomplete"
  | .edgesNotSupplied => "edges_not_supplied"

/-- A chain enumeration's own reason, as the explanation reports it. -/
def chainTruncation (reason : TruncationReason) : PathTruncation :=
  if reason = .maxPaths then .maxPathsPerTrustee else .maxDepth

structure AccessExplanation where
  access : EffectiveAccess
  graph : ExplanationGraph
  paths : List CausalPath
  removalTargets : List RemovalTarget
  cycles : List GraphCycle
  limits : ExplanationLimits
  truncation : List PathTruncation := []
  findings : List AccessFinding := []

/-- What one explanation is about: the fixed fields of the builder. -/
structure Question where
  access : EffectiveAccess
  resource : ResourceDacl
  share : Option ShareDacl
  limits : ExplanationLimits
  subgraph : List GraphEdge

/-- The mutable fields of the builder; its mappings keep insertion order. -/
structure Builder where
  nodes : List ExplanationNode := []
  edges : List ExplanationEdge := []
  paths : List CausalPath := []
  truncation : List PathTruncation := []
  findings : List AccessFinding := []
  chains : List (String × List MembershipPath) := []

namespace Builder

def node (b : Builder) (nodeId : String) : Option ExplanationNode :=
  b.nodes.find? (·.nodeId = nodeId)

def edge (b : Builder) (edgeId : String) : Option ExplanationEdge :=
  b.edges.find? (·.edgeId = edgeId)

def truncate (b : Builder) (reason : PathTruncation) : Builder :=
  if reason ∈ b.truncation then b else { b with truncation := b.truncation ++ [reason] }

/-- `setdefault`: the node already stored under the id wins. -/
def addNode (b : Builder) (n : ExplanationNode) : ExplanationNode × Builder :=
  match b.node n.nodeId with
  | some stored => (stored,b)
  | none => (n,{ b with nodes := b.nodes ++ [n] })

def addEdge (b : Builder) (e : ExplanationEdge) : ExplanationEdge × Builder :=
  match b.edge e.edgeId with
  | some stored => (stored,b)
  | none => (e,{ b with edges := b.edges ++ [e] })

end Builder

/-- `f"{n:04d}"`. -/
def pad4 (n : ℕ) : String := "".pushn '0' (4-(toString n).length) ++ toString n

/-- Every entry that matched the token, in stored order. -/
def appliedEntries (ev : AclEvaluation) : List AppliedAce :=
  (ev.grantedBy ++ ev.deniedBy ++ ev.superseded).insertionSort fun a b => a.position ≤ b.position

/-- The loop state of `_novel_contributions`. -/
structure Replay where
  granted : AccessMask
  denied : AccessMask := 0
  novel : List (ℕ × AccessMask) := []

def replayEntry (r : Replay) (a : AppliedAce) : Replay :=
  let contributed := a.contributed.expandGenerics.value
  if a.entry.isAllow then
    { r with
      granted := r.granted ||| contributed
      novel := r.novel ++ [(a.position,contributed &&& ~~~r.granted)] }
  else
    { r with
      denied := r.denied ||| contributed
      novel := r.novel ++ [(a.position,contributed &&& ~~~r.denied)] }

/-- The owner's implicit rights with their generic bits expanded, or nothing. -/
def ownerSeed (ev : AclEvaluation) : AccessMask :=
  match ev.ownerRights with
  | none => 0
  | some owner => owner.expandGenerics.value

/-- `_novel_contributions`: what each entry settled first, by position. -/
def novelContributions (ev : AclEvaluation) : List (ℕ × AccessMask) :=
  ((appliedEntries ev).foldl replayEntry { granted := ownerSeed ev }).novel

/-- `.get(position, 0)`; a later entry of one position replaces an earlier one. -/
def novelAt (novel : List (ℕ × AccessMask)) (position : ℕ) : AccessMask :=
  (novel.reverse.lookup position).getD 0

/-- Both layers, the file system first. -/
def evaluations (access : EffectiveAccess) : List (RightsLayer × AclEvaluation) :=
  (.ntfs,access.ntfs) :: (access.share.map fun ev => (.smbShare,ev)).toList

section Build
variable (q : Question)

def objectNodeId : String := "resource:" ++ q.access.resourceKey

def objectNode : ExplanationNode where
  nodeId := objectNodeId q
  kind := .resource
  key := q.access.resourceKey

def principalNode (key : String) : ExplanationNode where
  nodeId := "principal:" ++ key
  kind := .principal
  key := key
  sid := some q.access.token.subject.sid
  displayName := q.access.token.subject.displayName

/-- `_membership_node`: a group, or an assumed trustee of the token. -/
def membershipNode (key : String) : ExplanationNode :=
  let entry := q.access.token.entry key
  let assumed := entry.any (·.isAssumed)
  { nodeId := (if assumed then "assumed:" else "group:") ++ key
    kind := if assumed then .assumedTrustee else .group
    key := key
    sid := entry.map (·.sid)
    displayName := entry.bind (·.displayName) }

/-- The object an entry of a layer is stored on. -/
def aceTarget (layer : RightsLayer) : String :=
  if layer = .ntfs then q.access.resourceKey else q.access.shareKey.getD "None"

def aceNodeId (layer : RightsLayer) (position : ℕ) : String :=
  (if layer = .ntfs then "ntfs-ace:" else "smb-ace:") ++ aceTarget q layer ++ ":" ++ pad4 position

/-- `_ace_node`: one node an entry, by its layer and position. -/
def aceNode (a : AppliedAce) (layer : RightsLayer) : ExplanationNode where
  nodeId := aceNodeId q layer a.position
  kind := if layer = .ntfs then .ntfsAce else .smbAce
  key :=
    match a.entry.aceKey with
    | none => aceTarget q layer ++ "#" ++ toString a.position
    | some key => if key = "" then aceTarget q layer ++ "#" ++ toString a.position else key
  sid := some a.entry.trusteeSid
  displayName := a.entry.trusteeName
  layer := some layer
  position := some a.position

/-- `_membership_edge`: observed when a stored row explains the hop. -/
def membershipEdge (source target : String) (hop : Option GraphEdge) : ExplanationEdge :=
  let kind : EdgeKind := if hop.isSome then .membership else .assumedMembership
  { edgeId := kind.value ++ ":" ++ source ++ "->" ++ target
    kind := kind
    source := source
    target := target
    membershipEdgeKey := hop.map (·.edgeKey) }

def trusteeEdge (source target : String) (a : AppliedAce) : ExplanationEdge where
  edgeId := "trustee:" ++ source ++ "->" ++ target
  kind := .trustee
  source := source
  target := target
  aceKey := a.entry.aceKey

def objectEdge (aceId : String) (a : AppliedAce) : ExplanationEdge :=
  let kind : EdgeKind := if a.entry.isAllow then .grant else .deny
  { edgeId := kind.value ++ ":" ++ aceId
    kind := kind
    source := aceId
    target := objectNodeId q
    aceKey := a.entry.aceKey }

def ownershipEdge (source : String) : ExplanationEdge where
  edgeId := "ownership:" ++ source ++ "->" ++ objectNodeId q
  kind := .ownership
  source := source
  target := objectNodeId q

/-- `_other_layer`: the mask the other ACL permits, when there is one. -/
def otherLayer (layer : RightsLayer) : Option AccessMask :=
  match q.access.share with
  | none => none
  | some share =>
    if layer = .ntfs then some share.rights.expandGenerics.value
    else some q.access.ntfs.rights.expandGenerics.value

/-- `_crossing`: what survives the other layer, and what it withholds. -/
def crossing (novel : AccessMask) (layer : RightsLayer) : RightsMask × RightsMask :=
  match otherLayer q layer with
  | none => (⟨novel,.effective⟩,⟨0,.effective⟩)
  | some other => (⟨novel &&& other,.effective⟩,⟨novel &&& ~~~other,.effective⟩)

/-- `_effect`. -/
def effectOf (novel : AccessMask) (delivered constrained : RightsMask) : PathEffect :=
  if novel = 0 then .redundant
  else if delivered.isEmpty && !constrained.isEmpty then .constrained
  else .contributes

/-- `dict.fromkeys`: the first occurrence of each key. -/
def firstOccurrences (keys : List String) : List String :=
  keys.foldl (fun kept key => if key ∈ kept then kept else kept ++ [key]) []

/-- `_recorded_chain`: the one chain the token's traversal recorded. -/
def recordedChain (matched : TokenSid) : MembershipPath :=
  let subject := q.access.token.subject.key
  let recorded := if matched.path = [] then [subject, matched.key] else matched.path
  let recorded := if recorded.head? = some subject then recorded else subject :: recorded
  let recorded := if recorded.getLast? = some matched.key then recorded
    else recorded ++ [matched.key]
  { nodes := firstOccurrences recorded }

/-- `_enumerate`. -/
def enumerateChains (matched : TokenSid) (b : Builder) :
    Except DomainError (List MembershipPath × Builder) :=
  let subject := q.access.token.subject.key
  if matched.origin = .subject then .ok ([{ nodes := [subject] }],b)
  else if matched.isAssumed then .ok ([{ nodes := [subject, matched.key] }],b)
  else if q.subgraph = [] then .ok ([recordedChain q matched],b.truncate .edgesNotSupplied)
  else do
    let found ← simplePaths q.subgraph subject matched.key q.limits.graphLimits
    let b := found.truncation.foldl (fun b reason => b.truncate (chainTruncation reason)) b
    if found.paths = [] then
      let b := b.truncate .edgesNotSupplied
      return ([recordedChain q matched],
        { b with
          findings := b.findings ++
            [{ condition := .membershipTruncated
               detail := [("trustee_key", .text matched.key),
                 ("reason", .text "no_supplied_edge_explains_it")] }] })
    else return (found.paths,b)

/-- `_chains_to`: enumerated once a trustee. -/
def chainsTo (matched : TokenSid) (b : Builder) :
    Except DomainError (List MembershipPath × Builder) :=
  match b.chains.lookup matched.key with
  | some cached => .ok (cached,b)
  | none => do
    let (chains,b) ← enumerateChains q matched b
    return (chains,{ b with chains := b.chains ++ [(matched.key,chains)] })

/-- The nodes and edges of a chain past `previous`, its hops in step. -/
def followChain (previous : String) : List String → List GraphEdge → Builder →
    (List String × List String) × Builder
  | [], _, b => (([],[]),b)
  | key :: keys, hops, b =>
    let (node,b) := b.addNode (membershipNode q key)
    let (edge,b) := b.addEdge (membershipEdge previous node.nodeId hops.head?)
    let ((nodeIds,edgeIds),b) := followChain node.nodeId keys hops.tail b
    ((node.nodeId :: nodeIds,edge.edgeId :: edgeIds),b)

/-- `_append_path`: one chain to one matched entry. -/
def appendPath (a : AppliedAce) (layer : RightsLayer) (novel : List (ℕ × AccessMask))
    (aceId objectEdgeId : String) (b : Builder) (chain : MembershipPath) : Builder :=
  let (start,b) := b.addNode (principalNode q (chain.nodes.headD ""))
  let ((nodeIds,edgeIds),b) := followChain q start.nodeId chain.nodes.tail chain.edges b
  let trusteeNodeId := (start.nodeId :: nodeIds).getLast (List.cons_ne_nil _ _)
  let (trustee,b) := b.addEdge (trusteeEdge trusteeNodeId aceId a)
  let settled := novelAt novel a.position
  let (delivered,constrained) := crossing q settled layer
  { b with
    paths := b.paths ++
      [{ pathId := "p" ++ pad4 b.paths.length
         layer := layer
         relation := if a.entry.isAllow then .grant else .deny
         effect := effectOf settled delivered constrained
         chain := chain.nodes
         nodeIds := start.nodeId :: nodeIds ++ [aceId, objectNodeId q]
         edgeIds := edgeIds ++ [trustee.edgeId, objectEdgeId]
         trusteeKey := a.entry.trusteeKey
         acePosition := a.position
         aceKey := a.entry.aceKey
         aceRights := a.considered
         layerRights := ⟨settled,layer⟩
         effectiveRights := delivered
         constrainedRights := constrained
         assumed := a.matched.isAssumed
         viaGroup := a.viaGroup
         inherited := a.entry.isInherited }] }

/-- The chains of one entry, up to the path limit. -/
def appendChains (a : AppliedAce) (layer : RightsLayer) (novel : List (ℕ × AccessMask))
    (aceId objectEdgeId : String) : List MembershipPath → Builder → Builder
  | [], b => b
  | chain :: rest, b =>
    if q.limits.maxPaths ≤ b.paths.length then b.truncate .maxPaths
    else
      appendChains a layer novel aceId objectEdgeId rest
        (appendPath q a layer novel aceId objectEdgeId b chain)

/-- `_paths_for`. -/
def pathsFor (layer : RightsLayer) (novel : List (ℕ × AccessMask)) (b : Builder)
    (a : AppliedAce) : Except DomainError Builder := do
  let (node,b) := b.addNode (aceNode q a layer)
  let (edge,b) := b.addEdge (objectEdge q node.nodeId a)
  let (chains,b) ← chainsTo q a.matched b
  return appendChains q a layer novel node.nodeId edge.edgeId chains b

/-- `_ownership_path`. -/
def ownershipPath (ev : AclEvaluation) (layer : RightsLayer) (b : Builder) : Builder :=
  let novel := ownerSeed ev
  if novel = 0 then b
  else
    let subject := q.access.token.subject.key
    let (principal,b) := b.addNode (principalNode q subject)
    let (edge,b) := b.addEdge (ownershipEdge q principal.nodeId)
    let (delivered,constrained) := crossing q novel layer
    { b with
      paths := b.paths ++
        [{ pathId := "p" ++ pad4 b.paths.length
           layer := layer
           relation := .grant
           effect := effectOf novel delivered constrained
           chain := [subject]
           nodeIds := [principal.nodeId, objectNodeId q]
           edgeIds := [edge.edgeId]
           trusteeKey := subject
           acePosition := ownershipPosition
           aceKey := none
           aceRights := ⟨novel,layer⟩
           layerRights := ⟨novel,layer⟩
           effectiveRights := delivered
           constrainedRights := constrained
           assumed := false
           viaGroup := false
           inherited := false }] }

/-- One layer of `build`: ownership, then every matched entry in order. -/
def buildLayer (b : Builder) (row : RightsLayer × AclEvaluation) : Except DomainError Builder :=
  (appliedEntries row.2).foldlM (pathsFor q row.1 (novelContributions row.2))
    (ownershipPath q row.2 row.1 b)

/-- `_path_order`: the file system first, then the entry, then the shortest chain. -/
def causalOrder (p r : CausalPath) : Prop :=
  let rank (layer : RightsLayer) : ℕ := if layer = .ntfs then 0 else 1
  rank p.layer < rank r.layer ∨ (rank p.layer = rank r.layer ∧
    (p.acePosition < r.acePosition ∨ (p.acePosition = r.acePosition ∧
      (p.length < r.length ∨ (p.length = r.length ∧ p.chain ≤ r.chain)))))

instance : DecidableRel causalOrder := fun p r => by
  unfold causalOrder
  infer_instance

/-- The builder before its first layer. -/
def startBuilder : Builder :=
  let b : Builder := {}
  let b := if q.access.token.membershipComplete then b else b.truncate .membershipIncomplete
  let b := (b.addNode (objectNode q)).2
  (b.addNode (principalNode q q.access.token.subject.key)).2

/-- `build`. -/
def build : Except DomainError Builder := do
  let b ← (evaluations q.access).foldlM (buildLayer q) (startBuilder q)
  return { b with paths := b.paths.insertionSort causalOrder }

def Builder.graph (b : Builder) : ExplanationGraph where
  nodes := b.nodes.insertionSort fun m n => m.nodeId ≤ n.nodeId
  edges := b.edges.insertionSort fun d e => d.edgeId ≤ e.edgeId

end Build

end Adg.AccessCausality
