import Adg.MembershipGraph
import Adg.StronglyConnected

/-!
# Membership cycles

`findCycles` reports the strongly connected components of at least two nodes
among a set of edges, each with one concrete loop through it.
-/

set_option autoImplicit false

namespace Adg.CycleSearch
open Adg.MembershipGraph Adg.StronglyConnected Adg.Loop

/-- `restrict_to`: both ends have to be inside, when it is given. -/
def keptEdges (edges : List GraphEdge) (direction : Direction)
    (restrictTo : Option (List String)) : List GraphEdge :=
  match restrictTo with
  | none => edges
  | some inside =>
    edges.filter fun e => e.origin direction ∈ inside && e.endpoint direction ∈ inside

/-- The far ends of a node's kept edges, sorted; parallel rows repeat one. -/
def adjacency (edges : List GraphEdge) (direction : Direction) (x : String) : List String :=
  ((edges.filter fun e => e.origin direction = x).map (·.endpoint direction)).insertionSort
    (· ≤ ·)

/-- The keys of the adjacency, sorted. -/
def adjacencyKeys (edges : List GraphEdge) (direction : Direction) : List String :=
  (edges.flatMap fun e => [e.origin direction, e.endpoint direction]).dedup.insertionSort (· ≤ ·)

/-- The search for a loop through a component: parents, queue and seen. -/
structure LoopSearch where
  parents : List (String × String) := []
  queue : List String
  seen : List String
  closing : Option String := none

/-- Follow the parents back from `cursor` to `start`. -/
def traceBack (parents : List (String × String)) (start : String) : ℕ → String → List String
  | 0, _ => []
  | n+1, cursor =>
    if cursor = start then []
    else cursor :: traceBack parents start n ((parents.lookup cursor).getD start)

/-- The neighbors of one queued node, up to the edge that closes the loop. -/
def queueNeighbors (start node : String) (component : List String) :
    List String → LoopSearch → LoopSearch
  | [], s => s
  | neighbor :: rest, s =>
    if neighbor ∉ component then queueNeighbors start node component rest s
    else if neighbor = start then { s with closing := some node }
    else if neighbor ∈ s.seen then queueNeighbors start node component rest s
    else queueNeighbors start node component rest
      { s with
        seen := s.seen ++ [neighbor]
        parents := s.parents ++ [(neighbor,node)]
        queue := s.queue ++ [neighbor] }

def loopStep (adj : String → List String) (start : String) (component : List String)
    (s : LoopSearch) : Option LoopSearch :=
  match s.closing, s.queue with
  | some _, _ => none
  | none, [] => none
  | none, node :: queue =>
    some (queueNeighbors start node component (adj node) { s with queue })

/-- `_representative_loop`: the shortest loop through `start`. -/
def representativeLoop (adj : String → List String) (start : String) (component : List String) :
    List String :=
  let s := iterate (loopStep adj start component) (component.length+1)
    { queue := [start], seen := [start] }
  match s.closing with
  | none => [start]
  | some node =>
    (start :: traceBack s.parents start (component.length+1) node ++ [start]).reverse

def cycleOf (adj : String → List String) (component : List String) : GraphCycle :=
  let members := component.insertionSort (· ≤ ·)
  { members := members
    representativePath := representativeLoop adj (members.headD "") component }

/-- `find_cycles`. -/
def findCycles (edges : List GraphEdge) (direction : Direction)
    (restrictTo : Option (List String)) : List GraphCycle :=
  let kept := keptEdges edges direction restrictTo
  let adj := adjacency kept direction
  let keys := adjacencyKeys kept direction
  let components := (Search.searchAll adj (2*keys.length+1) keys).components
  ((components.filter fun c => 2 ≤ c.length).map (cycleOf adj)).insertionSort
    fun a b => a.members ≤ b.members

section Specification
variable {edges : List GraphEdge} {direction : Direction}

/-- One hop along a set of edges. -/
def Hop (edges : List GraphEdge) (direction : Direction) (x y : String) : Prop :=
  ∃ e ∈ edges, e.origin direction = x ∧ e.endpoint direction = y

theorem mem_adjacency {x y : String} :
    y ∈ adjacency edges direction x ↔ Hop edges direction x y := by
  unfold adjacency Hop
  rw [List.mem_insertionSort, List.mem_map]
  simp only [List.mem_filter, decide_eq_true_eq, and_assoc]

theorem mem_adjacencyKeys {x : String} :
    x ∈ adjacencyKeys edges direction ↔
      ∃ e ∈ edges, x = e.origin direction ∨ x = e.endpoint direction := by
  unfold adjacencyKeys
  rw [List.mem_insertionSort, List.mem_dedup, List.mem_flatMap]
  simp

variable (edges direction) in
theorem adjacencyKeys_closed : ∀ x ∈ adjacencyKeys edges direction,
    ∀ y ∈ adjacency edges direction x, y ∈ adjacencyKeys edges direction := by
  intro x _ y hy
  obtain ⟨e,he,-,rfl⟩ := mem_adjacency.mp hy
  exact mem_adjacencyKeys.mpr ⟨e,he,.inr rfl⟩

theorem mutual_keys {x y : String} (hne : x ≠ y)
    (h : Mutual (adjacency edges direction) x y) : x ∈ adjacencyKeys edges direction := by
  rcases h.1.cases_head with rfl | ⟨z,hz,-⟩
  · exact absurd rfl hne
  · obtain ⟨e,he,rfl,-⟩ := mem_adjacency.mp hz
    exact mem_adjacencyKeys.mpr ⟨e,he,.inl rfl⟩

theorem component_perm {α : Type} {adj : α → List α} {C D : List α} (hp : C.Perm D)
    (h : IsComponent adj C) : IsComponent adj D := by
  refine ⟨fun hd => h.1 (by rw [hd] at hp; exact hp.eq_nil),fun x hx y => ?_⟩
  rw [← hp.mem_iff]
  exact h.2 x (hp.mem_iff.mpr hx) y

end Specification

section Cycles
variable (edges : List GraphEdge) (direction : Direction) (restrictTo : Option (List String))

/-- The adjacency a cycle search runs over. -/
def searched : String → List String :=
  adjacency (keptEdges edges direction restrictTo) direction

theorem mem_findCycles {c : GraphCycle} :
    c ∈ findCycles edges direction restrictTo ↔
      ∃ C ∈ (Search.searchAll (searched edges direction restrictTo)
        (2*(adjacencyKeys (keptEdges edges direction restrictTo) direction).length+1)
        (adjacencyKeys (keptEdges edges direction restrictTo) direction)).components,
        2 ≤ C.length ∧ cycleOf (searched edges direction restrictTo) C = c := by
  unfold findCycles searched
  rw [List.mem_insertionSort, List.mem_map]
  simp only [List.mem_filter, decide_eq_true_eq, and_assoc]

/-- Every reported cycle is one whole component of at least two nodes. -/
theorem findCycles_sound {c : GraphCycle} (hc : c ∈ findCycles edges direction restrictTo) :
    IsComponent (searched edges direction restrictTo) c.members ∧ c.members.Nodup ∧
      2 ≤ c.members.length := by
  obtain ⟨C,hC,hlen,rfl⟩ := (mem_findCycles edges direction restrictTo).mp hc
  obtain ⟨hcomponents,hnodup,-⟩ := searchAll_spec
    (adjacencyKeys_closed (keptEdges edges direction restrictTo) direction)
  have hperm : C.Perm (cycleOf (searched edges direction restrictTo) C).members :=
    (List.perm_insertionSort _ C).symm
  refine ⟨component_perm hperm (hcomponents C hC),?_,hperm.length_eq ▸ hlen⟩
  exact hperm.nodup_iff.mp ((List.nodup_flatten.mp hnodup).1 C hC)

/-- Two distinct mutually reachable nodes lie on one reported cycle. -/
theorem findCycles_complete {x y : String} (hne : x ≠ y)
    (h : Mutual (searched edges direction restrictTo) x y) :
    ∃ c ∈ findCycles edges direction restrictTo, x ∈ c.members ∧ y ∈ c.members := by
  obtain ⟨hcomponents,hnodup,hall⟩ := searchAll_spec
    (adjacencyKeys_closed (keptEdges edges direction restrictTo) direction)
  obtain ⟨C,hC,hx⟩ := List.mem_flatten.mp ((hall x).mpr (mutual_keys hne h))
  have hy : y ∈ C := ((hcomponents C hC).2 x hx y).mpr h
  have hlen : 2 ≤ C.length := by
    by_contra hshort
    have hone : C.length ≤ 1 := by omega
    obtain ⟨z,hz⟩ : ∃ z, C = [z] := List.length_eq_one_iff.mp
      (le_antisymm hone (List.length_pos_of_mem hx))
    rw [hz, List.mem_singleton] at hx hy
    exact hne (hx.trans hy.symm)
  refine ⟨_,(mem_findCycles edges direction restrictTo).mpr ⟨C,hC,hlen,rfl⟩,?_,?_⟩
  · exact (List.perm_insertionSort _ C).mem_iff.mpr hx
  · exact (List.perm_insertionSort _ C).mem_iff.mpr hy

/-- No node is on two reported cycles. -/
theorem findCycles_apart :
    (findCycles edges direction restrictTo).Pairwise fun c d => c.members.Disjoint d.members := by
  obtain ⟨-,hnodup,-⟩ := searchAll_spec
    (adjacencyKeys_closed (keptEdges edges direction restrictTo) direction)
  have hsymm : ∀ {c d : GraphCycle}, c.members.Disjoint d.members → d.members.Disjoint c.members :=
    fun h => h.symm
  unfold findCycles
  refine ((List.perm_insertionSort _ _).pairwise_iff hsymm).mpr ?_
  refine List.pairwise_map.mpr (((List.nodup_flatten.mp hnodup).2.sublist ?_).imp ?_)
  · exact List.filter_sublist
  · intro C D hdisjoint x hC hD
    exact hdisjoint ((List.perm_insertionSort _ C).mem_iff.mp hC)
      ((List.perm_insertionSort _ D).mem_iff.mp hD)

end Cycles

end Adg.CycleSearch
