import Adg.Observation

/-!
# The membership graph and its bounded expansion

`expand` walks outward from a root one level at a time, within a depth, a
node and an edge budget. A level can stop in its middle; the depth limit is
followed by one probe of the edges that leave the last frontier.
-/

set_option autoImplicit false

namespace Adg.MembershipGraph
open Adg.Observation

inductive Direction where
  | down
  | up
  deriving DecidableEq, Repr

def Direction.value : Direction → String
  | .down => "down"
  | .up => "up"

def Direction.inverse : Direction → Direction
  | .down => .up
  | .up => .down

/-- One stored membership edge. The last three fields are its checks. -/
@[ext]
structure GraphEdge where
  edgeKey : String
  groupKey : String
  memberKey : String
  kind : MembershipEdgeKind := .directoryGroupMember
  hostKey : Option String := none
  memberKind : Option PrincipalKind := none
  isForeignSecurityPrincipal : Bool := false
  group_ne : groupKey ≠ "" := by decide
  member_ne : memberKey ≠ "" := by decide
  endpoints_ne : groupKey ≠ memberKey := by decide

instance : DecidableEq GraphEdge := fun _ _ => decidable_of_iff _ GraphEdge.ext_iff.symm

namespace GraphEdge

def endpoint (e : GraphEdge) : Direction → String
  | .down => e.memberKey
  | .up => e.groupKey

def origin (e : GraphEdge) : Direction → String
  | .down => e.groupKey
  | .up => e.memberKey

end GraphEdge

inductive TruncationReason where
  | maxDepth
  | maxNodes
  | maxEdges
  | maxPaths
  deriving DecidableEq, Repr

def TruncationReason.value : TruncationReason → String
  | .maxDepth => "max_depth"
  | .maxNodes => "max_nodes"
  | .maxEdges => "max_edges"
  | .maxPaths => "max_paths"

def maxDepthCeiling : ℕ := 128
def maxNodesCeiling : ℕ := 250000
def maxEdgesCeiling : ℕ := 1000000
def maxPathsCeiling : ℕ := 1000

/-- Safety bounds: at least one of everything, and never above a ceiling. -/
structure TraversalLimits where
  maxDepth : ℕ := 32
  maxNodes : ℕ := 50000
  maxEdges : ℕ := 200000
  maxPaths : ℕ := 100
  depth_bounds : 1 ≤ maxDepth ∧ maxDepth ≤ maxDepthCeiling := by decide
  nodes_bounds : 1 ≤ maxNodes ∧ maxNodes ≤ maxNodesCeiling := by decide
  edges_bounds : 1 ≤ maxEdges ∧ maxEdges ≤ maxEdgesCeiling := by decide
  paths_bounds : 1 ≤ maxPaths ∧ maxPaths ≤ maxPathsCeiling := by decide

structure ReachedNode where
  key : String
  depth : ℕ
  path : List String
  edgeKeys : List String
  edgeKinds : List MembershipEdgeKind
  reportedKind : Option PrincipalKind := none
  viaForeignSecurityPrincipal : Bool := false
  deriving DecidableEq

structure GraphCycle where
  members : List String
  representativePath : List String
  deriving DecidableEq

structure MembershipPath where
  nodes : List String
  edges : List GraphEdge := []
  deriving DecidableEq

def MembershipPath.length (p : MembershipPath) : ℕ := p.nodes.length-1

/-- The edges leading out of each key of a frontier. An absent key reads as
no edges, so the mapping is a total function. -/
abbrev AdjacencyProvider := Direction → List String → String → List GraphEdge

/-- Record a reason once. -/
def addReason (reason : TruncationReason) (reasons : List TruncationReason) :
    List TruncationReason :=
  if reason ∈ reasons then reasons else reasons ++ [reason]

theorem mem_addReason {r reason : TruncationReason} {reasons : List TruncationReason} :
    r ∈ addReason reason reasons ↔ r = reason ∨ r ∈ reasons := by
  unfold addReason
  split
  · next h =>
    constructor
    · exact .inr
    · rintro (rfl | hr)
      · exact h
      · exact hr
  · rw [List.mem_append, List.mem_singleton, or_comm]

/-- `sorted` over the reasons, by their values. -/
def sortReasons (reasons : List TruncationReason) : List TruncationReason :=
  reasons.insertionSort fun a b => a.value ≤ b.value

/-- `_check_origin`. -/
def checkOrigin (edge : GraphEdge) (key : String) (direction : Direction) :
    Except DomainError Unit :=
  if edge.origin direction = key then .ok ()
  else .error
    { message := s!"The adjacency provider returned edge '{edge.edgeKey}' for node '{key}', but the edge leads out of '{edge.origin direction}' when followed {direction.value}. A misattributed edge would invent a membership nobody has."
      field := "edge_key" }

/-- The locals of one expansion. -/
structure Walk where
  paths : List ReachedNode
  visited : List ReachedNode := []
  edgesSeen : List GraphEdge := []
  truncation : List TruncationReason := []
  nextFrontier : List String := []

namespace Walk

def known (w : Walk) (key : String) : Bool := w.paths.any (·.key = key)

def node (w : Walk) (key : String) : Option ReachedNode := w.paths.find? (·.key = key)

def seen (w : Walk) (edgeKey : String) : Bool := w.edgesSeen.any (·.edgeKey = edgeKey)

def truncate (w : Walk) (reason : TruncationReason) : Walk :=
  { w with truncation := addReason reason w.truncation }

def record (w : Walk) (edge : GraphEdge) : Walk :=
  if w.seen edge.edgeKey then w else { w with edgesSeen := w.edgesSeen ++ [edge] }

def reach (w : Walk) (n : ReachedNode) : Walk :=
  { w with
    paths := w.paths ++ [n]
    visited := w.visited ++ [n]
    nextFrontier := w.nextFrontier ++ [n.key] }

end Walk

/-- The node an edge reaches, one hop past its origin. -/
def reachedThrough (edge : GraphEdge) (direction : Direction) (depth : ℕ)
    (originNode : ReachedNode) : ReachedNode where
  key := edge.endpoint direction
  depth := depth
  path := originNode.path ++ [edge.endpoint direction]
  edgeKeys := originNode.edgeKeys ++ [edge.edgeKey]
  edgeKinds := originNode.edgeKinds ++ [edge.kind]
  reportedKind := if direction = .down then edge.memberKind else none
  viaForeignSecurityPrincipal :=
    originNode.viaForeignSecurityPrincipal || edge.isForeignSecurityPrincipal

section Expand
variable (direction : Direction) (limits : TraversalLimits) (depth : ℕ)

/-- One edge out of the frontier node `key`. A budget that ran out truncates.
The frontier holds known keys only, so its node is always found. -/
def takeEdge (key : String) (w : Walk) (edge : GraphEdge) : Walk :=
  if !w.seen edge.edgeKey && limits.maxEdges ≤ w.edgesSeen.length then w.truncate .maxEdges
  else
    let w := w.record edge
    if w.known (edge.endpoint direction) then w
    else if limits.maxNodes ≤ w.paths.length-1 then w.truncate .maxNodes
    else
      match w.node key with
      | none => w
      | some originNode => w.reach (reachedThrough edge direction depth originNode)

/-- The edges of one node, up to the first that truncates. -/
def takeEdges (key : String) : List GraphEdge → Walk → Except DomainError Walk
  | [], w => .ok w
  | edge :: rest, w => do
    checkOrigin edge key direction
    let w := takeEdge direction limits depth key w edge
    if w.truncation ≠ [] then return w else takeEdges key rest w

/-- One level: every frontier node, up to the first that truncates. -/
def takeLevel (neighbors : String → List GraphEdge) :
    List String → Walk → Except DomainError Walk
  | [], w => .ok w
  | key :: rest, w => do
    let w ← takeEdges direction limits depth key (neighbors key) w
    if w.truncation ≠ [] then return w else takeLevel neighbors rest w

end Expand

/-- Level after level, while there is a frontier, depth left and no cut. -/
def takeLevels (direction : Direction) (limits : TraversalLimits) (provider : AdjacencyProvider) :
    ℕ → List String → Walk → Except DomainError (List String × Walk)
  | 0, frontier, w => .ok (frontier,w)
  | left+1, frontier, w =>
    if frontier = [] ∨ w.truncation ≠ [] then .ok (frontier,w)
    else do
      let w ← takeLevel direction limits (limits.maxDepth-left) (provider direction frontier)
        frontier { w with nextFrontier := [] }
      takeLevels direction limits provider left w.nextFrontier w

/-- One edge of the boundary probe: kept within the budget, never followed. -/
def probeEdge (direction : Direction) (limits : TraversalLimits) (w : Walk) (edge : GraphEdge) :
    Walk :=
  let w := if w.seen edge.edgeKey then w
    else if limits.maxEdges ≤ w.edgesSeen.length then w.truncate .maxEdges
    else { w with edgesSeen := w.edgesSeen ++ [edge] }
  if w.known (edge.endpoint direction) then w else w.truncate .maxDepth

def probeBoundary (direction : Direction) (limits : TraversalLimits)
    (neighbors : String → List GraphEdge) (frontier : List String) (w : Walk) :
    Except DomainError Walk :=
  frontier.foldlM (fun w key =>
    (neighbors key).foldlM (fun w edge => do
      checkOrigin edge key direction
      return probeEdge direction limits w edge) w) w

end Adg.MembershipGraph
