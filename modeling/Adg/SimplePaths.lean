import Adg.MembershipGraph
import Adg.Loop

/-!
# Every simple chain between two keys

`simplePaths` is a depth-first search with an explicit stack. Each frame is a
node, the edges that led to it and the next edge to try. The search ends on
every graph: what its frames can still do shrinks with every step.
-/

set_option autoImplicit false

namespace Adg.SimplePaths
open Adg.Observation Adg.MembershipGraph Adg.Loop

structure PathEnumeration where
  paths : List MembershipPath
  truncation : List TruncationReason := []
  deriving DecidableEq

structure PathFrame where
  node : String
  taken : List GraphEdge
  index : ℕ

structure PathSearch where
  stack : List PathFrame
  onPath : List String
  found : List MembershipPath := []
  truncation : List TruncationReason := []
  full : Bool := false

/-- Sort key of a candidate edge: the group it leads to, then its row. -/
def candidateOrder (a b : GraphEdge) : Prop :=
  a.groupKey < b.groupKey ∨ (a.groupKey = b.groupKey ∧ a.edgeKey ≤ b.edgeKey)

instance : DecidableRel candidateOrder := fun a b => by
  unfold candidateOrder
  infer_instance

/-- The edges up from a node, in the order they are tried. -/
def outgoing (edges : List GraphEdge) (node : String) : List GraphEdge :=
  (edges.filter (·.memberKey = node)).insertionSort candidateOrder

/-- Sort key of a path: its length, then its nodes. -/
def pathOrder (a b : MembershipPath) : Prop :=
  a.length < b.length ∨ (a.length = b.length ∧ a.nodes ≤ b.nodes)

instance : DecidableRel pathOrder := fun a b => by
  unfold pathOrder
  infer_instance

section Search
variable (out : String → List GraphEdge) (member group : String) (limits : TraversalLimits)

def PathSearch.report (s : PathSearch) (path : MembershipPath) : PathSearch :=
  let s := { s with found := s.found ++ [path] }
  if limits.maxPaths ≤ s.found.length then
    { s with truncation := addReason .maxPaths s.truncation, full := true }
  else s

/-- One edge past the frame's node, which led there by `taken`. -/
def takeHop (taken : List GraphEdge) (edge : GraphEdge) (s : PathSearch) : PathSearch :=
  let far := edge.groupKey
  let taken := taken ++ [edge]
  if far ∈ s.onPath then s
  else if far = group then
    s.report limits { nodes := member :: taken.map (·.groupKey), edges := taken }
  else if limits.maxDepth ≤ taken.length then
    if out far ≠ [] then { s with truncation := addReason .maxDepth s.truncation } else s
  else { s with onPath := s.onPath ++ [far], stack := ⟨far,taken,0⟩ :: s.stack }

/-- One turn of the loop; nothing is left of a full or empty search. -/
def pathStep (s : PathSearch) : Option PathSearch :=
  if s.full then none
  else
    match s.stack with
    | [] => none
    | frame :: below =>
      match (out frame.node)[frame.index]? with
      | none =>
        some { s with
          stack := below
          onPath := if frame.node = member then s.onPath else s.onPath.filter (· ≠ frame.node) }
      | some edge =>
        some (takeHop out member group limits frame.taken edge
          { s with stack := { frame with index := frame.index+1 } :: below })

end Search

/-- Steps a frame can cause, `left` hops above the depth limit, with at most
`width` edges out of any node. -/
def subtreeSteps (width : ℕ) : ℕ → ℕ
  | 0 => 0
  | left+1 => 1 + width*(1+subtreeSteps width left)

def searchFrom (member : String) : PathSearch where
  stack := [⟨member,[],0⟩]
  onPath := [member]

/-- The loop of `simple_paths`, run to its end. -/
def runSearch (edges : List GraphEdge) (member group : String) (limits : TraversalLimits) :
    PathSearch :=
  iterate (pathStep (outgoing edges) member group limits)
    (subtreeSteps edges.length limits.maxDepth) (searchFrom member)

/-- `simple_paths`. -/
def simplePaths (edges : List GraphEdge) (member group : String) (limits : TraversalLimits) :
    Except DomainError PathEnumeration :=
  if member = group then
    .error { message := "An identity is not a member of itself; give two distinct keys."
             field := "group_key" }
  else
    let s := runSearch edges member group limits
    .ok { paths := s.found.insertionSort pathOrder, truncation := sortReasons s.truncation }

section Termination
variable (edges : List GraphEdge) (member group : String) (limits : TraversalLimits)

theorem outgoing_length (node : String) : (outgoing edges node).length ≤ edges.length := by
  unfold outgoing
  rw [List.length_insertionSort]
  exact List.length_filter_le _ _

/-- What one frame may still cause. -/
def frameSteps (frame : PathFrame) : ℕ :=
  1 + ((outgoing edges frame.node).length-frame.index) *
    (1+subtreeSteps edges.length (limits.maxDepth-frame.taken.length-1))

def stepsLeft (s : PathSearch) : ℕ := (s.stack.map (frameSteps edges limits)).sum

/-- Every open frame is above the depth limit. -/
def Shallow (s : PathSearch) : Prop := ∀ frame ∈ s.stack, frame.taken.length < limits.maxDepth

theorem frameSteps_fresh (node : String) (taken : List GraphEdge)
    (h : taken.length < limits.maxDepth) :
    frameSteps edges limits ⟨node,taken,0⟩ ≤
      subtreeSteps edges.length (limits.maxDepth-taken.length) := by
  obtain ⟨left,hleft⟩ : ∃ left, limits.maxDepth-taken.length = left+1 :=
    ⟨limits.maxDepth-taken.length-1,by omega⟩
  have hlen := Nat.mul_le_mul_right (1+subtreeSteps edges.length left)
    (outgoing_length edges node)
  simp only [frameSteps, hleft, subtreeSteps, Nat.sub_zero, Nat.add_sub_cancel]
  omega

/-- Trying an edge opens at most one frame, one hop deeper. -/
theorem takeHop_stack (taken : List GraphEdge) (edge : GraphEdge) (s : PathSearch) :
    (takeHop (outgoing edges) member group limits taken edge s).stack = s.stack ∨
      ∃ far, (takeHop (outgoing edges) member group limits taken edge s).stack =
        ⟨far,taken++[edge],0⟩ :: s.stack ∧ (taken++[edge]).length < limits.maxDepth := by
  simp only [takeHop]
  split
  · exact .inl rfl
  · split
    · simp only [PathSearch.report]
      split <;> exact .inl rfl
    · split
      · split <;> exact .inl rfl
      · next hdeep => exact .inr ⟨edge.groupKey,rfl,not_le.mp hdeep⟩

theorem pathStep_shallow {s s' : PathSearch} (h : Shallow limits s)
    (hs : pathStep (outgoing edges) member group limits s = some s') : Shallow limits s' := by
  unfold pathStep at hs
  split at hs
  · cases hs
  · split at hs
    · cases hs
    · next frame below hstack =>
      have hframe : frame.taken.length < limits.maxDepth := h frame (by simp [hstack])
      have hbelow : ∀ f ∈ below, f.taken.length < limits.maxDepth :=
        fun f hf => h f (by simp [hstack, hf])
      split at hs
      · cases hs
        exact hbelow
      · next edge _ =>
        cases hs
        intro f hf
        rcases takeHop_stack edges member group limits frame.taken edge
          { s with stack := { frame with index := frame.index+1 } :: below } with he | ⟨far,he,hd⟩
        · rw [he] at hf
          rcases List.mem_cons.mp hf with rfl | hf
          · exact hframe
          · exact hbelow f hf
        · rw [he] at hf
          rcases List.mem_cons.mp hf with rfl | hf
          · exact hd
          · rcases List.mem_cons.mp hf with rfl | hf
            · exact hframe
            · exact hbelow f hf

theorem pathStep_lowers {s s' : PathSearch} (hs : pathStep (outgoing edges) member group limits s =
    some s') : stepsLeft edges limits s' < stepsLeft edges limits s := by
  unfold pathStep at hs
  split at hs
  · cases hs
  · split at hs
    · cases hs
    · next frame below hstack =>
      have hsum : stepsLeft edges limits s = frameSteps edges limits frame +
          (below.map (frameSteps edges limits)).sum := by simp [stepsLeft, hstack]
      split at hs
      · cases hs
        have hpos : 0 < frameSteps edges limits frame := by unfold frameSteps; omega
        rw [hsum]
        exact Nat.lt_add_of_pos_left hpos
      · next edge hedge =>
        cases hs
        have hindex := (List.getElem?_eq_some_iff.mp hedge).1
        have hspent : frameSteps edges limits { frame with index := frame.index+1 } + 1 +
            subtreeSteps edges.length (limits.maxDepth-frame.taken.length-1) =
              frameSteps edges limits frame := by
          unfold frameSteps
          obtain ⟨rest,hrest⟩ : ∃ rest, (outgoing edges frame.node).length-frame.index = rest+1 :=
            ⟨(outgoing edges frame.node).length-frame.index-1,by omega⟩
          have hless : (outgoing edges frame.node).length-(frame.index+1) = rest := by omega
          simp only [hrest, hless]
          ring
        rw [hsum]
        rcases takeHop_stack edges member group limits frame.taken edge
          { s with stack := { frame with index := frame.index+1 } :: below } with he | ⟨far,he,hd⟩
        · simp only [stepsLeft, he, List.map_cons, List.sum_cons]
          omega
        · have hfresh := frameSteps_fresh edges limits far (frame.taken++[edge]) hd
          have hdeeper : limits.maxDepth-(frame.taken++[edge]).length =
              limits.maxDepth-frame.taken.length-1 := by
            rw [List.length_append, List.length_singleton]
            omega
          rw [hdeeper] at hfresh
          simp only [stepsLeft, he, List.map_cons, List.sum_cons]
          omega

/-- The loop ends on every graph, cyclic ones included. -/
theorem runSearch_finished :
    Finished (pathStep (outgoing edges) member group limits)
      (runSearch edges member group limits) := by
  have hdepth := limits.depth_bounds.1
  have hshallow : Shallow limits (searchFrom member) := by
    intro frame hf
    rw [List.mem_singleton.mp hf]
    exact hdepth
  refine iterate_ends (stepsLeft edges limits)
    (fun s s' h hs => pathStep_shallow edges member group limits h hs)
    (fun s s' _ hs => pathStep_lowers edges member group limits hs) hshallow ?_
  have hstart := frameSteps_fresh edges limits member [] hdepth
  simpa [stepsLeft, searchFrom] using hstart

end Termination

end Adg.SimplePaths
