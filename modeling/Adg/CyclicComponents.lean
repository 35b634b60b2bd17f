import Adg.RepresentativeLoop

/-!
# What the reported cycles are

The cycles reported for a set of edges are its classes of mutually reachable
keys, each once and sorted, whichever way the edges are followed and in
whatever order they come. The loop shown for one is as short as any.
-/

set_option autoImplicit false

namespace Adg.CyclicComponents
open Relation Adg.MembershipGraph Adg.StronglyConnected Adg.CycleSearch Adg.RepresentativeLoop

/-- Two keys that reach each other. -/
def MutuallyReachable (hop : String → String → Prop) (x y : String) : Prop :=
  ReflTransGen hop x y ∧ ReflTransGen hop y x

/-- A maximal set of at least two mutually reachable keys, in order. -/
structure Cyclic (hop : String → String → Prop) (members : List String) : Prop where
  several : 2 ≤ members.length
  ordered : members.Pairwise (· < ·)
  maximal : ∀ x ∈ members, ∀ y, y ∈ members ↔ MutuallyReachable hop x y

section Report
variable {edges edges' : List GraphEdge} {direction direction' : Direction}
  {restrictTo : Option (List String)}

theorem mem_searched {x y : String} : y ∈ searched edges direction restrictTo x ↔
    Hop (keptEdges edges direction restrictTo) direction x y := mem_adjacency

theorem searched_hop : (fun x y => y ∈ searched edges direction restrictTo x) =
    Hop (keptEdges edges direction restrictTo) direction :=
  funext fun _ => funext fun _ => propext mem_searched

theorem mutual_iff {x y : String} : Mutual (searched edges direction restrictTo) x y ↔
    MutuallyReachable (Hop (keptEdges edges direction restrictTo) direction) x y := by
  rw [← searched_hop]
  exact Iff.rfl

theorem strictly_sorted {members : List String} (hnodup : members.Nodup)
    (hsorted : members.Pairwise (· ≤ ·)) : members.Pairwise (· < ·) :=
  (hsorted.and hnodup).imp fun h => lt_of_le_of_ne h.1 h.2

theorem reported_cyclic {c : GraphCycle} (hc : c ∈ findCycles edges direction restrictTo) :
    Cyclic (Hop (keptEdges edges direction restrictTo) direction) c.members := by
  obtain ⟨hcomponent,hnodup,hseveral⟩ := findCycles_sound edges direction restrictTo hc
  obtain ⟨C,-,-,rfl⟩ := (mem_findCycles edges direction restrictTo).mp hc
  constructor
  · exact hseveral
  · exact strictly_sorted hnodup (List.pairwise_insertionSort _ _)
  · intro x hx y
    rw [hcomponent.2 x hx y, mutual_iff]

/-- The members of a class are told by any one of them. -/
theorem Cyclic.unique {hop : String → String → Prop} {M N : List String} (hM : Cyclic hop M)
    (hN : Cyclic hop N) {x : String} (hxM : x ∈ M) (hxN : x ∈ N) : M = N := by
  have hperm : M.Perm N := by
    apply (List.perm_ext_iff_of_nodup (hM.ordered.imp ne_of_lt) (hN.ordered.imp ne_of_lt)).mpr
    intro y
    rw [hM.maximal x hxM y, hN.maximal x hxN y]
  exact hperm.eq_of_pairwise (fun _ _ _ _ hab hba => absurd hab hba.asymm) hM.ordered hN.ordered

/-- Exactly the classes of at least two mutually reachable keys are reported. -/
theorem reported_iff (members : List String) :
    members ∈ (findCycles edges direction restrictTo).map (·.members) ↔
      Cyclic (Hop (keptEdges edges direction restrictTo) direction) members := by
  constructor
  · intro h
    obtain ⟨c,hc,rfl⟩ := List.mem_map.mp h
    exact reported_cyclic hc
  · intro h
    have hseveral := h.several
    cases members with
    | nil => simp at hseveral
    | cons x rest =>
      cases rest with
      | nil => simp at hseveral
      | cons y rest =>
        have hlt : x < y := (List.pairwise_cons.mp h.ordered).1 y List.mem_cons_self
        have hmutual := (h.maximal x List.mem_cons_self y).mp (by simp)
        obtain ⟨c,hc,hx,-⟩ := findCycles_complete edges direction restrictTo hlt.ne
          (mutual_iff.mpr hmutual)
        rw [h.unique (reported_cyclic hc) List.mem_cons_self hx]
        exact List.mem_map_of_mem hc

theorem reported_once : ((findCycles edges direction restrictTo).map (·.members)).Nodup := by
  apply List.pairwise_map.mpr
  apply (findCycles_apart edges direction restrictTo).imp_of_mem
  intro c d hc _ hdisjoint heq
  obtain ⟨x,hx⟩ := List.exists_mem_of_length_pos
    (lt_of_lt_of_le Nat.zero_lt_two (reported_cyclic hc).several)
  exact hdisjoint hx (heq ▸ hx)

theorem reported_sorted :
    ((findCycles edges direction restrictTo).map (·.members)).Pairwise (· ≤ ·) := by
  have htotal : Std.Total fun a b : GraphCycle => a.members ≤ b.members :=
    ⟨fun a b => le_total a.members b.members⟩
  have htrans : IsTrans GraphCycle fun a b => a.members ≤ b.members := ⟨fun _ _ _ => le_trans⟩
  exact List.pairwise_map.mpr (List.pairwise_insertionSort _ _)

theorem hop_flip {x y : String} :
    Hop edges direction.inverse x y ↔ Hop edges direction y x := by
  cases direction <;> simp [Hop, Direction.inverse, GraphEdge.origin, GraphEdge.endpoint, and_comm]

theorem keptEdges_flip :
    keptEdges edges direction.inverse restrictTo = keptEdges edges direction restrictTo := by
  cases restrictTo with
  | none => rfl
  | some inside =>
    apply List.filter_congr
    intro e _
    cases direction <;> exact Bool.and_comm _ _

theorem mutual_flip {x y : String} :
    MutuallyReachable (Hop edges direction.inverse) x y ↔
      MutuallyReachable (Hop edges direction) x y := by
  have hhop : Hop edges direction.inverse = Function.swap (Hop edges direction) :=
    funext fun _ => funext fun _ => propext hop_flip
  unfold MutuallyReachable
  rw [hhop]
  exact (and_congr reflTransGen_swap reflTransGen_swap).trans and_comm

theorem keptEdges_perm (h : edges.Perm edges') :
    (keptEdges edges direction restrictTo).Perm (keptEdges edges' direction restrictTo) := by
  cases restrictTo with
  | none => exact h
  | some inside => exact h.filter _

theorem hop_perm (h : edges.Perm edges') : Hop edges direction = Hop edges' direction := by
  funext x y
  unfold Hop
  simp only [h.mem_iff]

/-- Neither the order of the edges nor the way they are followed matters. -/
theorem mutual_same (h : edges.Perm edges') {x y : String} :
    MutuallyReachable (Hop (keptEdges edges direction restrictTo) direction) x y ↔
      MutuallyReachable (Hop (keptEdges edges' direction' restrictTo) direction') x y := by
  rw [hop_perm (keptEdges_perm h)]
  by_cases hsame : direction' = direction
  · rw [hsame]
  · have hinverse : direction' = direction.inverse := by
      cases direction <;> cases direction' <;> simp_all [Direction.inverse]
    rw [hinverse, keptEdges_flip, mutual_flip]

theorem cyclic_same (h : edges.Perm edges') {members : List String} :
    Cyclic (Hop (keptEdges edges direction restrictTo) direction) members ↔
      Cyclic (Hop (keptEdges edges' direction' restrictTo) direction') members := by
  constructor
  · intro hc
    exact ⟨hc.several,hc.ordered,fun x hx y => (hc.maximal x hx y).trans (mutual_same h)⟩
  · intro hc
    exact ⟨hc.several,hc.ordered,fun x hx y => (hc.maximal x hx y).trans (mutual_same h).symm⟩

/-- The loop of a reported cycle. -/
theorem reported_loop {c : GraphCycle} (hc : c ∈ findCycles edges direction restrictTo) :
    ∃ smallest ∈ c.members, (∀ x ∈ c.members, smallest ≤ x) ∧
      ClosedWalk (Hop (keptEdges edges direction restrictTo) direction) smallest c.members
        c.representativePath ∧
      ∀ walk, ClosedWalk (Hop (keptEdges edges direction restrictTo) direction) smallest
        c.members walk → c.representativePath.length ≤ walk.length := by
  have hcyclic := reported_cyclic hc
  obtain ⟨hcomponent,-,-⟩ := findCycles_sound edges direction restrictTo hc
  obtain ⟨C,-,-,rfl⟩ := (mem_findCycles edges direction restrictTo).mp hc
  have hperm : C.Perm (cycleOf (searched edges direction restrictTo) C).members :=
    (List.perm_insertionSort _ C).symm
  rw [← searched_hop]
  cases hmembers : (cycleOf (searched edges direction restrictTo) C).members with
  | nil =>
    have hseveral := hcyclic.several
    rw [hmembers] at hseveral
    simp at hseveral
  | cons smallest rest =>
    rw [hmembers] at hperm hcomponent hcyclic
    have hstart : smallest ∈ C := hperm.mem_iff.mpr List.mem_cons_self
    obtain ⟨y,hy⟩ : ∃ y, y ∈ rest := by
      have hseveral := hcyclic.several
      rw [List.length_cons] at hseveral
      exact List.exists_mem_of_length_pos (by omega)
    have hlt := (List.pairwise_cons.mp hcyclic.ordered).1
    obtain ⟨z,hz,hback⟩ := component_returns (component_perm hperm.symm hcomponent) hstart
      (hperm.mem_iff.mpr (List.mem_cons_of_mem _ hy)) (hlt y hy).ne'
    have hpath : (cycleOf (searched edges direction restrictTo) C).representativePath =
        representativeLoop (searched edges direction restrictTo) smallest C := by
      show representativeLoop _
        ((cycleOf (searched edges direction restrictTo) C).members.headD "") C = _
      rw [hmembers]
      rfl
    have hinside : ∀ walk, ClosedWalk (fun x y => y ∈ searched edges direction restrictTo x)
        smallest (smallest :: rest) walk ↔
        ClosedWalk (fun x y => y ∈ searched edges direction restrictTo x) smallest C walk := by
      intro walk
      constructor
      · intro h
        exact ⟨h.starts,h.ends,h.moves,h.hops,fun x hx => hperm.mem_iff.mpr (h.inside x hx)⟩
      · intro h
        exact ⟨h.starts,h.ends,h.moves,h.hops,fun x hx => hperm.mem_iff.mp (h.inside x hx)⟩
    obtain ⟨hloop,hshortest⟩ := representativeLoop_spec hstart hz hback
    rw [hpath]
    refine ⟨smallest,List.mem_cons_self,?_,(hinside _).mpr hloop,?_⟩
    · intro x hx
      rcases List.mem_cons.mp hx with rfl | hx
      · exact le_rfl
      · exact (hlt x hx).le
    · intro walk hwalk
      exact hshortest walk ((hinside walk).mp hwalk)

end Report

/-- `find_cycles` reports exactly the maximal sets of at least two mutually
reachable keys, each once, apart and the same for every order of the edges and
both directions, with a shortest closed walk from the smallest member. -/
theorem find_cycles_exact (edges : List GraphEdge) (direction : Direction)
    (restrictTo : Option (List String)) :
    (∀ members, members ∈ (findCycles edges direction restrictTo).map (·.members) ↔
      Cyclic (Hop (keptEdges edges direction restrictTo) direction) members) ∧
    ((findCycles edges direction restrictTo).map (·.members)).Nodup ∧
    ((findCycles edges direction restrictTo).map (·.members)).Pairwise List.Disjoint ∧
    (∀ edges' direction', edges.Perm edges' →
      (findCycles edges' direction' restrictTo).map (·.members) =
        (findCycles edges direction restrictTo).map (·.members)) ∧
    ∀ c ∈ findCycles edges direction restrictTo,
      ∃ smallest ∈ c.members, (∀ x ∈ c.members, smallest ≤ x) ∧
        ClosedWalk (Hop (keptEdges edges direction restrictTo) direction) smallest c.members
          c.representativePath ∧
        ∀ walk, ClosedWalk (Hop (keptEdges edges direction restrictTo) direction) smallest
          c.members walk → c.representativePath.length ≤ walk.length := by
  refine ⟨reported_iff,reported_once,?_,?_,fun c hc => reported_loop hc⟩
  · exact List.pairwise_map.mpr (findCycles_apart edges direction restrictTo)
  · intro edges' direction' h
    have hperm : ((findCycles edges' direction' restrictTo).map (·.members)).Perm
        ((findCycles edges direction restrictTo).map (·.members)) := by
      apply (List.perm_ext_iff_of_nodup reported_once reported_once).mpr
      intro members
      rw [reported_iff, reported_iff, cyclic_same h]
    exact hperm.eq_of_pairwise (fun _ _ _ _ => le_antisymm) reported_sorted reported_sorted

end Adg.CyclicComponents
