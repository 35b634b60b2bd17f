import Adg.CycleSearch
import Adg.Reachability

/-!
# The loop shown for a cycle

The search for a component's loop is breadth first from its smallest member.
What it has seen is kept in the order of its distance from there, so the
first edge back to the start closes a loop no other is shorter than.
-/

set_option autoImplicit false

namespace Adg.RepresentativeLoop
open Relation Adg.MembershipGraph Adg.StronglyConnected Adg.Loop Adg.Reachability Adg.CycleSearch

section Search
variable (adj : String → List String) (start : String) (component : List String)

/-- One hop that stays inside the component. -/
def Inside (x y : String) : Prop := y ∈ adj x ∧ y ∈ component

/-- Hops from the start of the loop. -/
noncomputable def depth (x : String) : ℕ := distance (Inside adj component) start x

/-- What has been seen: near before far, each by way of its parent. -/
structure Known (s : LoopSearch) : Prop where
  nodup : s.seen.Nodup
  starts : start ∈ s.seen
  inside : ∀ x ∈ s.seen, x ∈ component
  reached : ∀ x ∈ s.seen, ReflTransGen (Inside adj component) start x
  sorted : s.seen.Pairwise fun x y => depth adj start component x ≤ depth adj start component y
  parents : ∀ x ∈ s.seen, x ≠ start → ∃ p ∈ s.seen, s.parents.lookup x = some p ∧
    Inside adj component p x ∧ depth adj start component x = depth adj start component p+1
  fresh : ∀ x, x ∉ s.seen → s.parents.lookup x = none

/-- The nodes done with lead to seen nodes only, and none back to the start. -/
def Expanded (seen done : List String) : Prop :=
  ∀ x ∈ done, ∀ y, Inside adj component x y → y ∈ seen ∧ y ≠ start

/-- The search is at `node`, after the nodes `done` and before the queue. -/
structure Expanding (node : String) (done : List String) (s : LoopSearch) : Prop where
  known : Known adj start component s
  split : s.seen = done ++ node :: s.queue
  expanded : Expanded adj start component s.seen done
  near : ∀ x ∈ s.seen, depth adj start component x ≤ depth adj start component node+1

/-- The search is between two nodes. -/
structure Waiting (done : List String) (s : LoopSearch) : Prop where
  known : Known adj start component s
  split : s.seen = done ++ s.queue
  expanded : Expanded adj start component s.seen done
  near : ∀ node ∈ s.queue.head?, ∀ x ∈ s.seen,
    depth adj start component x ≤ depth adj start component node+1

variable {adj start component}

/-- Whatever is no farther than the node at hand has been seen. -/
theorem Expanding.near_seen {node : String} {done : List String} {s : LoopSearch}
    (h : Expanding adj start component node done s) {y : String}
    (hy : ReflTransGen (Inside adj component) start y)
    (hle : depth adj start component y ≤ depth adj start component node) : y ∈ s.seen := by
  generalize hn : depth adj start component y = n at hle
  induction n generalizing y with
  | zero =>
    rw [← eq_of_distance hy hn]
    exact h.known.starts
  | succ n ih =>
    obtain ⟨z,hz,hr,hdepth⟩ := distance_prior hy hn
    have hseen := ih hz hdepth (by omega)
    have hsorted := h.known.sorted
    rw [h.split] at hseen hsorted
    rcases List.mem_append.mp hseen with hdone | hlater
    · exact (h.expanded z hdone y hr).1
    · have hge : depth adj start component node ≤ depth adj start component z := by
        rcases List.mem_cons.mp hlater with rfl | hqueue
        · exact le_rfl
        · exact (List.pairwise_cons.mp (List.pairwise_append.mp hsorted).2.1).1 z hqueue
      have hz' : depth adj start component z = n := hdepth
      omega

/-- An unseen neighbor is one hop farther than the node at hand. -/
theorem Expanding.unseen {node : String} {done : List String} {s : LoopSearch}
    (h : Expanding adj start component node done s) {y : String}
    (hr : Inside adj component node y) (hy : y ∉ s.seen) :
    ReflTransGen (Inside adj component) start y ∧
      depth adj start component y = depth adj start component node+1 := by
  have hnode : node ∈ s.seen := by simp [h.split]
  have hreach := (h.known.reached node hnode).tail hr
  have hstep : depth adj start component y ≤ depth adj start component node+1 :=
    distance_step (h.known.reached node hnode) hr
  refine ⟨hreach,?_⟩
  by_contra hne
  exact hy (h.near_seen hreach (by omega))

theorem Expanding.push {node : String} {done : List String} {s : LoopSearch}
    (h : Expanding adj start component node done s) {y : String}
    (hr : Inside adj component node y) (hy : y ∉ s.seen) :
    Expanding adj start component node done
      { s with
        seen := s.seen ++ [y]
        parents := s.parents ++ [(y,node)]
        queue := s.queue ++ [y] } := by
  obtain ⟨hreach,hdepth⟩ := h.unseen hr hy
  have hnode : node ∈ s.seen := by simp [h.split]
  have hlookup : ∀ x, x ≠ y → (s.parents ++ [(y,node)]).lookup x = s.parents.lookup x := by
    intro x hx
    rw [List.lookup_append, List.lookup_cons, beq_false_of_ne hx]
    simp
  refine ⟨⟨?_,?_,?_,?_,?_,?_,?_⟩,?_,?_,?_⟩
  · exact h.known.nodup.append (List.nodup_singleton y) (by simpa using hy)
  · exact List.mem_append_left _ h.known.starts
  · intro x hx
    rcases List.mem_append.mp hx with hold | hnew
    · exact h.known.inside x hold
    · rw [List.mem_singleton.mp hnew]
      exact hr.2
  · intro x hx
    rcases List.mem_append.mp hx with hold | hnew
    · exact h.known.reached x hold
    · rw [List.mem_singleton.mp hnew]
      exact hreach
  · refine List.pairwise_append.mpr ⟨h.known.sorted,List.pairwise_singleton _ _,?_⟩
    intro x hx z hz
    rw [List.mem_singleton.mp hz, hdepth]
    exact h.near x hx
  · intro x hx hne
    rcases List.mem_append.mp hx with hold | hnew
    · obtain ⟨p,hp,hparent,hinside,hd⟩ := h.known.parents x hold hne
      refine ⟨p,List.mem_append_left _ hp,?_,hinside,hd⟩
      rw [hlookup x (fun heq => hy (heq ▸ hold)), hparent]
    · rw [List.mem_singleton.mp hnew]
      refine ⟨node,List.mem_append_left _ hnode,?_,hr,hdepth⟩
      rw [List.lookup_append, h.known.fresh y hy]
      simp
  · intro x hx
    rw [hlookup x (fun heq => hx (by simp [heq]))]
    exact h.known.fresh x (fun hold => hx (List.mem_append_left _ hold))
  · show s.seen ++ [y] = done ++ node :: (s.queue ++ [y])
    rw [h.split, List.append_assoc]
    rfl
  · intro x hx z hz
    obtain ⟨hseen,hne⟩ := h.expanded x hx z hz
    exact ⟨List.mem_append_left _ hseen,hne⟩
  · intro x hx
    rcases List.mem_append.mp hx with hold | hnew
    · exact h.near x hold
    · rw [List.mem_singleton.mp hnew, hdepth]

theorem Expanding.close {node : String} {done : List String} {s : LoopSearch}
    (h : Expanding adj start component node done s) (closing : Option String) :
    Expanding adj start component node done { s with closing := closing } := by
  obtain ⟨⟨hnodup,hstarts,hinside,hreached,hsorted,hparents,hfresh⟩,hsplit,hexpanded,hnear⟩ := h
  exact ⟨⟨hnodup,hstarts,hinside,hreached,hsorted,hparents,hfresh⟩,hsplit,hexpanded,hnear⟩

/-- Taking up the neighbors either closes the loop or leaves them all seen. -/
theorem queueNeighbors_spec {node : String} {done rest : List String} {s : LoopSearch}
    (h : Expanding adj start component node done s) (hopen : s.closing = none)
    (hrest : ∀ y ∈ rest, y ∈ adj node)
    (hseen : ∀ y, Inside adj component node y → y ∈ rest ∨ (y ∈ s.seen ∧ y ≠ start)) :
    Expanding adj start component node done (queueNeighbors start node component rest s) ∧
      (((queueNeighbors start node component rest s).closing = none ∧
          ∀ y, Inside adj component node y →
            y ∈ (queueNeighbors start node component rest s).seen ∧ y ≠ start) ∨
        ((queueNeighbors start node component rest s).closing = some node ∧
          Inside adj component node start)) := by
  induction rest generalizing s with
  | nil =>
    refine ⟨h,.inl ⟨hopen,fun y hy => ?_⟩⟩
    exact (hseen y hy).resolve_left (by simp)
  | cons neighbor rest ih =>
    have hmore : ∀ y ∈ rest, y ∈ adj node := fun y hy => hrest y (List.mem_cons_of_mem _ hy)
    simp only [queueNeighbors]
    split
    · next hout =>
      apply ih h hopen hmore
      intro y hy
      rcases hseen y hy with hin | hin
      · rcases List.mem_cons.mp hin with rfl | hin
        · exact absurd hy.2 hout
        · exact .inl hin
      · exact .inr hin
    · next hin =>
      have hinside : Inside adj component node neighbor :=
        ⟨hrest neighbor List.mem_cons_self,not_not.mp hin⟩
      split
      · next hstart =>
        refine ⟨h.close _,.inr ⟨rfl,?_⟩⟩
        rwa [hstart] at hinside
      · next hstart =>
        split
        · next hold =>
          apply ih h hopen hmore
          intro y hy
          rcases hseen y hy with hleft | hdone
          · rcases List.mem_cons.mp hleft with rfl | hleft
            · exact .inr ⟨hold,hstart⟩
            · exact .inl hleft
          · exact .inr hdone
        · next hnew =>
          apply ih (h.push hinside hnew) hopen hmore
          intro y hy
          rcases hseen y hy with hleft | hdone
          · rcases List.mem_cons.mp hleft with rfl | hleft
            · exact .inr ⟨List.mem_append_right _ (List.mem_singleton.mpr rfl),hstart⟩
            · exact .inl hleft
          · exact .inr ⟨List.mem_append_left _ hdone.1,hdone.2⟩

variable (adj start component) in
/-- The invariant of the loop: it is between two nodes, or it has closed. -/
def Looking (s : LoopSearch) : Prop :=
  (s.closing = none ∧ ∃ done, Waiting adj start component done s) ∨
    ∃ node done, s.closing = some node ∧ Expanding adj start component node done s ∧
      Inside adj component node start

theorem Waiting.take {node : String} {done queue : List String} {s : LoopSearch}
    (h : Waiting adj start component done s) (hqueue : s.queue = node :: queue) :
    Expanding adj start component node done { s with queue := queue } := by
  obtain ⟨⟨hnodup,hstarts,hinside,hreached,hsorted,hparents,hfresh⟩,hsplit,hexpanded,hnear⟩ := h
  rw [hqueue] at hsplit hnear
  exact ⟨⟨hnodup,hstarts,hinside,hreached,hsorted,hparents,hfresh⟩,hsplit,hexpanded,hnear node rfl⟩

/-- With its neighbors all seen, the node at hand is done with. -/
theorem Expanding.finish {node : String} {done : List String} {s : LoopSearch}
    (h : Expanding adj start component node done s)
    (hall : ∀ y, Inside adj component node y → y ∈ s.seen ∧ y ≠ start) :
    Waiting adj start component (done ++ [node]) s := by
  have hsplit : s.seen = (done ++ [node]) ++ s.queue := by
    rw [h.split, List.append_assoc]
    rfl
  refine ⟨h.known,hsplit,?_,?_⟩
  · intro x hx
    rcases List.mem_append.mp hx with hold | hnode
    · exact h.expanded x hold
    · rw [List.mem_singleton.mp hnode]
      exact hall
  · intro next hnext x hx
    have hsorted := h.known.sorted
    rw [h.split] at hsorted
    have hmem : next ∈ s.queue := List.mem_of_head? hnext
    have hle := (List.pairwise_cons.mp (List.pairwise_append.mp hsorted).2.1).1 next hmem
    exact (h.near x hx).trans (by omega)

theorem loopStep_looking {s s' : LoopSearch} (h : Looking adj start component s)
    (hs : loopStep adj start component s = some s') : Looking adj start component s' := by
  unfold loopStep at hs
  split at hs
  · cases hs
  · cases hs
  · next node queue hopen hqueue =>
    cases hs
    rcases h with ⟨-,done,hwaiting⟩ | ⟨closed,-,hclosed,-⟩
    · have hstart : ∀ y, Inside adj component node y →
          y ∈ adj node ∨ (y ∈ ({ s with queue := queue } : LoopSearch).seen ∧ y ≠ start) :=
        fun y hy => .inl hy.1
      obtain ⟨hexpanding,hcase⟩ := queueNeighbors_spec (hwaiting.take hqueue) hopen
        (fun y hy => hy) hstart
      rcases hcase with ⟨hnone,hall⟩ | ⟨hsome,hback⟩
      · exact .inl ⟨hnone,_,hexpanding.finish hall⟩
      · exact .inr ⟨node,done,hsome,hexpanding,hback⟩
    · rw [hopen] at hclosed
      cases hclosed

theorem Known.bounded {s : LoopSearch} (h : Known adj start component s) :
    s.seen.length ≤ component.length :=
  (List.subperm_of_subset h.nodup h.inside).length_le

/-- Each turn of the loop is done with one more node. -/
theorem loopStep_lowers {s s' : LoopSearch} (h : Looking adj start component s)
    (hs : loopStep adj start component s = some s') :
    component.length-(s'.seen.length-s'.queue.length) <
      component.length-(s.seen.length-s.queue.length) := by
  unfold loopStep at hs
  split at hs
  · cases hs
  · cases hs
  · next node queue hopen hqueue =>
    cases hs
    rcases h with ⟨-,done,hwaiting⟩ | ⟨closed,-,hclosed,-⟩
    · obtain ⟨hexpanding,-⟩ := queueNeighbors_spec (hwaiting.take hqueue) hopen
        (fun y hy => hy) (fun y hy => .inl hy.1)
      have hbefore := congrArg List.length hwaiting.split
      have hafter := congrArg List.length hexpanding.split
      have hbound := hwaiting.known.bounded
      rw [List.length_append, hqueue, List.length_cons] at hbefore
      rw [List.length_append, List.length_cons] at hafter
      rw [hqueue, List.length_cons]
      omega
    · rw [hopen] at hclosed
      cases hclosed

theorem looking_start (hstart : start ∈ component) :
    Looking adj start component { queue := [start], seen := [start] } := by
  refine .inl ⟨rfl,[],⟨?_,?_,?_,?_,?_,?_,?_⟩,rfl,?_,?_⟩
  · exact List.nodup_singleton _
  · exact List.mem_cons_self
  · intro x hx
    rw [List.mem_singleton.mp hx]
    exact hstart
  · intro x hx
    rw [List.mem_singleton.mp hx]
  · exact List.pairwise_singleton _ _
  · intro x hx hne
    exact absurd (List.mem_singleton.mp hx) hne
  · intro x _
    rfl
  · intro x hx
    cases hx
  · intro node hnode x hx
    rw [List.mem_singleton.mp hx, ← Option.mem_some.mp hnode]
    exact Nat.le_succ _

theorem finished_empty {s : LoopSearch} (hend : Finished (loopStep adj start component) s)
    (hopen : s.closing = none) : s.queue = [] := by
  unfold Finished loopStep at hend
  rw [hopen] at hend
  cases hqueue : s.queue with
  | nil => rfl
  | cons node queue => simp [hqueue] at hend

/-- A search through a component with a loop ends by closing one. -/
theorem search_closes (hstart : start ∈ component) {z : String}
    (hz : ReflTransGen (Inside adj component) start z) (hback : Inside adj component z start) :
    ∃ node done, Expanding adj start component node done
        (iterate (loopStep adj start component) (component.length+1)
          { queue := [start], seen := [start] }) ∧
      (iterate (loopStep adj start component) (component.length+1)
        { queue := [start], seen := [start] }).closing = some node ∧
      Inside adj component node start := by
  have hstarted : Looking adj start component { queue := [start], seen := [start] } :=
    looking_start hstart
  have hlooking := iterate_invariant (fun _ _ h hs => loopStep_looking h hs) (component.length+1)
    hstarted
  have hend := iterate_ends (fun s : LoopSearch => component.length-(s.seen.length-s.queue.length))
    (fun _ _ h hs => loopStep_looking h hs) (fun _ _ h hs => loopStep_lowers h hs)
    hstarted (show _ ≤ component.length+1 by omega)
  rcases hlooking with ⟨hopen,done,hwaiting⟩ | ⟨node,done,hclosed,hexpanding,hnode⟩
  · have hempty := finished_empty hend hopen
    have hsplit := hwaiting.split
    rw [hempty, List.append_nil] at hsplit
    have hexpanded := hwaiting.expanded
    rw [← hsplit] at hexpanded
    have hseen := closed_reaches hwaiting.known.starts
      (fun u hu v hv => (hexpanded u hu v hv).1) hz
    exact absurd rfl (hexpanded z hseen start hback).2
  · exact ⟨node,done,hexpanding,hclosed,hnode⟩

/-- Every number of hops up to a seen node's is some seen node's. -/
theorem Known.every_depth {s : LoopSearch} (h : Known adj start component s) {n : ℕ} {x : String}
    (hx : x ∈ s.seen) (hn : depth adj start component x = n) {k : ℕ} (hk : k ≤ n) :
    k ∈ s.seen.map (depth adj start component) := by
  induction n generalizing x with
  | zero =>
    rw [Nat.le_zero.mp hk, ← hn]
    exact List.mem_map_of_mem hx
  | succ n ih =>
    rcases Nat.lt_or_ge k (n+1) with hlt | hge
    · have hne : x ≠ start := by
        rintro rfl
        have hzero : depth adj x component x = 0 := distance_self x
        omega
      obtain ⟨p,hp,-,-,hdepth⟩ := h.parents x hx hne
      exact ih hp (by omega) (by omega)
    · rw [le_antisymm hk hge, ← hn]
      exact List.mem_map_of_mem hx

theorem Known.depth_lt {s : LoopSearch} (h : Known adj start component s) {x : String}
    (hx : x ∈ s.seen) : depth adj start component x < component.length := by
  have hsub : List.range (depth adj start component x+1) ⊆
      s.seen.map (depth adj start component) := by
    intro k hk
    exact h.every_depth hx rfl (Nat.lt_succ_iff.mp (List.mem_range.mp hk))
  have hle := (List.subperm_of_subset List.nodup_range hsub).length_le
  rw [List.length_range, List.length_map] at hle
  exact lt_of_lt_of_le hle h.bounded

/-- The parents lead back to the start, one hop nearer each. -/
theorem traceBack_spec {s : LoopSearch} (h : Known adj start component s) {n : ℕ} {x : String}
    (hx : x ∈ s.seen) (hn : depth adj start component x ≤ n) :
    (traceBack s.parents start n x ++ [start]).IsChain (fun a b => Inside adj component b a) ∧
      (traceBack s.parents start n x ++ [start]).head? = some x ∧
      (traceBack s.parents start n x).length = depth adj start component x ∧
      ∀ y ∈ traceBack s.parents start n x, y ∈ component := by
  induction n generalizing x with
  | zero =>
    have hstart : start = x := eq_of_distance (h.reached x hx) (Nat.le_zero.mp hn)
    subst hstart
    have hzero : depth adj start component start = 0 := distance_self start
    simp [traceBack, hzero]
  | succ n ih =>
    by_cases hstart : x = start
    · subst hstart
      have hzero : depth adj x component x = 0 := distance_self x
      simp [traceBack, hzero]
    · obtain ⟨p,hp,hparent,hinside,hdepth⟩ := h.parents x hx hstart
      obtain ⟨hchain,hhead,hlength,hmem⟩ := ih hp (by omega)
      have hunfold : traceBack s.parents start (n+1) x =
          x :: traceBack s.parents start n p := by
        simp only [traceBack, if_neg hstart, hparent, Option.getD_some]
      rw [hunfold, List.cons_append]
      refine ⟨?_,rfl,?_,?_⟩
      · rw [List.isChain_cons]
        refine ⟨?_,hchain⟩
        intro y hy
        rw [hhead] at hy
        rw [← Option.mem_some.mp hy]
        exact hinside
      · rw [List.length_cons, hlength, hdepth]
      · intro y hy
        rcases List.mem_cons.mp hy with rfl | hy
        · exact h.inside y hx
        · exact hmem y hy

/-- The node that closed the loop is as near as any that could. -/
theorem Expanding.nearest {node : String} {done : List String} {s : LoopSearch}
    (h : Expanding adj start component node done s) {z : String}
    (hz : ReflTransGen (Inside adj component) start z) (hback : Inside adj component z start) :
    depth adj start component node ≤ depth adj start component z := by
  by_contra hlt
  have hseen := h.near_seen hz (by omega)
  have hsorted := h.known.sorted
  rw [h.split] at hseen hsorted
  rcases List.mem_append.mp hseen with hdone | hlater
  · exact (h.expanded z hdone start hback).2 rfl
  · rcases List.mem_cons.mp hlater with rfl | hqueue
    · exact hlt le_rfl
    · exact hlt ((List.pairwise_cons.mp (List.pairwise_append.mp hsorted).2.1).1 z hqueue)

end Search

/-- A walk of at least one hop from a node back to it, inside a component. -/
structure ClosedWalk (hop : String → String → Prop) (start : String) (component : List String)
    (walk : List String) : Prop where
  starts : walk.head? = some start
  ends : walk.getLast? = some start
  moves : 2 ≤ walk.length
  hops : walk.IsChain hop
  inside : ∀ x ∈ walk, x ∈ component

section Loop
variable {adj : String → List String} {start : String} {component : List String}

/-- A closed walk returns from a node it has reached. -/
theorem ClosedWalk.returns {walk : List String}
    (h : ClosedWalk (fun x y => y ∈ adj x) start component walk) :
    ∃ z, Inside adj component z start ∧ Hops (Inside adj component) (walk.length-2) start z := by
  obtain ⟨hstarts,hends,hmoves,hhops,hinside⟩ := h
  cases walk with
  | nil => simp at hmoves
  | cons x rest =>
    obtain rfl : x = start := Option.some.inj hstarts
    have hchain : (x :: rest).IsChain (Inside adj component) :=
      hhops.imp_of_mem_tail_imp fun a b _ hb hab =>
        ⟨hab,hinside b (List.mem_of_mem_tail hb)⟩
    have hall := hops_of_chain hchain hends
    obtain ⟨n,hn⟩ : ∃ n, rest.length = n+1 := ⟨rest.length-1,by simp at hmoves; omega⟩
    rw [hn] at hall
    obtain ⟨z,hz,hback⟩ := hall
    refine ⟨z,hback,?_⟩
    rw [List.length_cons, hn]
    exact hz

/-- The loop found is a closed walk, and no closed walk is shorter. -/
theorem representativeLoop_spec (hstart : start ∈ component) {z : String}
    (hz : ReflTransGen (Inside adj component) start z) (hback : Inside adj component z start) :
    ClosedWalk (fun x y => y ∈ adj x) start component (representativeLoop adj start component) ∧
      ∀ walk, ClosedWalk (fun x y => y ∈ adj x) start component walk →
        (representativeLoop adj start component).length ≤ walk.length := by
  obtain ⟨node,done,hexpanding,hclosing,hnode⟩ := search_closes hstart hz hback
  have hseen : node ∈ (iterate (loopStep adj start component) (component.length+1)
      { queue := [start], seen := [start] }).seen := by
    simp [hexpanding.split]
  have hfuel : depth adj start component node ≤ component.length+1 := by
    have hlt := hexpanding.known.depth_lt hseen
    omega
  obtain ⟨hchain,hhead,hlength,hmem⟩ := traceBack_spec hexpanding.known hseen hfuel
  unfold representativeLoop
  simp only [hclosing]
  generalize traceBack _ start (component.length+1) node = trace at hchain hhead hlength hmem ⊢
  refine ⟨⟨?_,?_,?_,?_,?_⟩,?_⟩
  · simp
  · rw [List.getLast?_reverse]
    rfl
  · simp
  · have hclosed : (start :: (trace ++ [start])).IsChain fun a b => Inside adj component b a := by
      rw [List.isChain_cons]
      refine ⟨?_,hchain⟩
      intro y hy
      rw [hhead] at hy
      rw [← Option.mem_some.mp hy]
      exact hnode
    rw [List.isChain_reverse]
    exact hclosed.imp fun a b hab => hab.1
  · intro x hx
    rw [List.mem_reverse, List.cons_append, List.mem_cons, List.mem_append, List.mem_singleton] at hx
    rcases hx with rfl | hx | rfl
    · exact hstart
    · exact hmem x hx
    · exact hstart
  · intro walk hwalk
    obtain ⟨y,hclose,hy⟩ := hwalk.returns
    have hmin : depth adj start component node ≤ walk.length-2 :=
      (hexpanding.nearest hy.reaches hclose).trans (distance_le hy)
    have hmoves := hwalk.moves
    simp only [List.length_reverse, List.length_append, List.length_cons, List.length_nil, hlength]
    omega

/-- Between two nodes of a component every way stays inside it. -/
theorem reach_inside (hC : IsComponent adj component) {x y : String} (hx : x ∈ component)
    (hy : y ∈ component) (h : Reach adj x y) : ReflTransGen (Inside adj component) x y := by
  induction h using ReflTransGen.head_induction_on with
  | refl => exact .refl
  | @head x z hr hrest ih =>
    have hback := (((hC.2 x hx) y).mp hy).2
    have hz : z ∈ component := ((hC.2 x hx) z).mpr ⟨.single hr,hrest.trans hback⟩
    exact .head ⟨hr,hz⟩ (ih hz)

/-- A component of two nodes has a last hop back to each of its nodes. -/
theorem component_returns (hC : IsComponent adj component) (hstart : start ∈ component)
    {y : String} (hy : y ∈ component) (hne : y ≠ start) :
    ∃ z, ReflTransGen (Inside adj component) start z ∧ Inside adj component z start := by
  obtain ⟨hout,hback⟩ := ((hC.2 start hstart) y).mp hy
  rcases (reach_inside hC hy hstart hback).cases_tail with heq | ⟨z,hz,hlast⟩
  · exact absurd heq.symm hne
  · exact ⟨z,(reach_inside hC hstart hy hout).trans hz,hlast⟩

end Loop

end Adg.RepresentativeLoop
