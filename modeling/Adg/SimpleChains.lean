import Adg.SimplePaths

/-!
# What the search for simple chains enumerates

`sightsFrom` is the search as a recursion: every path that reaches the group
and every cut of the depth limit, in the order they are met. The loop's stack
stands for the part of that list still to come, so a search that ends without
a truncation has met all of it.
-/

set_option autoImplicit false

namespace Adg.SimpleChains
open Adg.Observation Adg.MembershipGraph Adg.SimplePaths Adg.Loop

/-- One thing a search meets: a path to the group, or a cut that hides some. -/
inductive Sight where
  | path (p : MembershipPath)
  | cut
  deriving DecidableEq

def Sight.path? : Sight → Option MembershipPath
  | .path p => some p
  | .cut => none

def pathsOf (sights : List Sight) : List MembershipPath := sights.filterMap Sight.path?

theorem mem_pathsOf {p : MembershipPath} {sights : List Sight} :
    p ∈ pathsOf sights ↔ .path p ∈ sights := by
  unfold pathsOf
  rw [List.mem_filterMap]
  constructor
  · rintro ⟨s,hs,hp⟩
    cases s with
    | path q =>
      cases hp
      exact hs
    | cut => cases hp
  · intro h
    exact ⟨_,h,rfl⟩

/-- The path a chain of edges up from the member makes. -/
def pathAlong (member : String) (taken : List GraphEdge) : MembershipPath where
  nodes := member :: taken.map (·.groupKey)
  edges := taken

section Recursion
variable (out : String → List GraphEdge) (member group : String)

/-- What is met past one edge, given what is met past the node it leads to. -/
def sightsPast (further : List String → List GraphEdge → String → List Sight) (left : ℕ)
    (onPath : List String) (taken : List GraphEdge) (edge : GraphEdge) : List Sight :=
  if edge.groupKey ∈ onPath then []
  else if edge.groupKey = group then [.path (pathAlong member (taken ++ [edge]))]
  else if left = 0 then if out edge.groupKey ≠ [] then [.cut] else []
  else further (onPath ++ [edge.groupKey]) (taken ++ [edge]) edge.groupKey

/-- Everything the search meets from a node, `left` hops above the limit. -/
def sightsFrom : ℕ → List String → List GraphEdge → String → List Sight
  | 0, _, _, _ => []
  | left+1, onPath, taken, node =>
    (out node).flatMap (sightsPast out member group (sightsFrom left) left onPath taken)

/-- What a stack still has to meet. The nodes of its frames are on the path. -/
def pending (maxDepth : ℕ) : List PathFrame → List Sight
  | [] => []
  | frame :: below =>
    ((out frame.node).drop frame.index).flatMap
      (sightsPast out member group (sightsFrom out member group (maxDepth-frame.taken.length-1))
        (maxDepth-frame.taken.length-1) ((frame :: below).map (·.node)).reverse frame.taken) ++
      pending maxDepth below

end Recursion

section Refinement
variable (out : String → List GraphEdge) (member group : String) (limits : TraversalLimits)

/-- The frames spell a chain up from the member, above the depth limit. -/
structure Stacked (stack : List PathFrame) : Prop where
  apart : (stack.map (·.node)).Nodup
  bottom : ∀ frame ∈ stack.getLast?, frame.node = member
  shallow : ∀ frame ∈ stack, frame.taken.length < limits.maxDepth

/-- The search has recorded what it met so far. -/
structure Recorded (met : List Sight) (s : PathSearch) : Prop where
  found : s.found = pathsOf met
  cuts : .cut ∈ met → .maxDepth ∈ s.truncation
  capped : s.full = true → .maxPaths ∈ s.truncation

/-- The invariant of the loop: what was met and what is pending is everything. -/
structure Underway (s : PathSearch) : Prop where
  stacked : Stacked member limits s.stack
  onPath : s.stack ≠ [] → s.onPath = (s.stack.map (·.node)).reverse
  split : ∃ met, Recorded met s ∧
    met ++ pending out member group limits.maxDepth s.stack =
      sightsFrom out member group limits.maxDepth [member] [] member

variable {out member group limits}

theorem Recorded.skip {met : List Sight} {s : PathSearch} (h : Recorded met s) (onPath : List String)
    (stack : List PathFrame) : Recorded met { s with stack := stack, onPath := onPath } :=
  ⟨h.found,h.cuts,h.capped⟩

theorem Recorded.report {met : List Sight} {s : PathSearch} (h : Recorded met s)
    (p : MembershipPath) : Recorded (met ++ [.path p]) (s.report limits p) := by
  have hfound : s.found ++ [p] = pathsOf (met ++ [.path p]) := by
    simp [pathsOf, h.found, Sight.path?]
  have hcut : Sight.cut ∈ met ++ [.path p] → Sight.cut ∈ met := by simp
  simp only [PathSearch.report]
  split
  · constructor
    · exact hfound
    · intro hc
      exact mem_addReason.mpr (.inr (h.cuts (hcut hc)))
    · intro _
      exact mem_addReason.mpr (.inl rfl)
  · exact ⟨hfound,fun hc => h.cuts (hcut hc),h.capped⟩

theorem Recorded.cutOff {met : List Sight} {s : PathSearch} (h : Recorded met s) :
    Recorded (met ++ [.cut]) { s with truncation := addReason .maxDepth s.truncation } := by
  constructor
  · simp [pathsOf, h.found, Sight.path?]
  · intro _
    exact mem_addReason.mpr (.inl rfl)
  · intro hfull
    exact mem_addReason.mpr (.inr (h.capped hfull))

theorem report_stack (s : PathSearch) (p : MembershipPath) :
    (s.report limits p).stack = s.stack ∧ (s.report limits p).onPath = s.onPath := by
  simp only [PathSearch.report]
  split <;> exact ⟨rfl,rfl⟩

variable (out member group limits) in
/-- One edge: what it shows is recorded, or is pending on a new frame. -/
theorem takeHop_sights (taken : List GraphEdge) (edge : GraphEdge) {s : PathSearch}
    {met : List Sight} (h : Recorded met s) :
    ∃ seen, Recorded (met ++ seen) (takeHop out member group limits taken edge s) ∧
      (((takeHop out member group limits taken edge s).stack = s.stack ∧
          (takeHop out member group limits taken edge s).onPath = s.onPath ∧
          seen = sightsPast out member group
            (sightsFrom out member group (limits.maxDepth-taken.length-1))
            (limits.maxDepth-taken.length-1) s.onPath taken edge) ∨
        (seen = [] ∧ edge.groupKey ∉ s.onPath ∧ (taken ++ [edge]).length < limits.maxDepth ∧
          (takeHop out member group limits taken edge s).stack =
            ⟨edge.groupKey,taken ++ [edge],0⟩ :: s.stack ∧
          (takeHop out member group limits taken edge s).onPath = s.onPath ++ [edge.groupKey] ∧
          sightsPast out member group
            (sightsFrom out member group (limits.maxDepth-taken.length-1))
            (limits.maxDepth-taken.length-1) s.onPath taken edge =
            sightsFrom out member group (limits.maxDepth-taken.length-1)
              (s.onPath ++ [edge.groupKey]) (taken ++ [edge]) edge.groupKey)) := by
  have hlen : (taken ++ [edge]).length = taken.length+1 := by simp
  simp only [takeHop, sightsPast]
  split
  · exact ⟨[],by rwa [List.append_nil],.inl ⟨rfl,rfl,rfl⟩⟩
  · next hnew =>
    split
    · exact ⟨_,h.report _,.inl ⟨(report_stack s _).1,(report_stack s _).2,rfl⟩⟩
    · split
      · next hdeep =>
        have hzero : limits.maxDepth-taken.length-1 = 0 := by omega
        rw [if_pos hzero]
        split
        · exact ⟨_,h.cutOff,.inl ⟨rfl,rfl,rfl⟩⟩
        · exact ⟨[],by rwa [List.append_nil],.inl ⟨rfl,rfl,rfl⟩⟩
      · next hdeep =>
        have hleft : limits.maxDepth-taken.length-1 ≠ 0 := by omega
        rw [if_neg hleft]
        refine ⟨[],?_,.inr ⟨rfl,hnew,not_le.mp hdeep,rfl,rfl,rfl⟩⟩
        rw [List.append_nil]
        exact h.skip _ _

theorem Stacked.below {frame : PathFrame} {below : List PathFrame}
    (h : Stacked member limits (frame :: below)) : Stacked member limits below := by
  constructor
  · exact (List.nodup_cons.mp h.apart).2
  · intro f hf
    cases below with
    | nil => cases hf
    | cons g rest =>
      apply h.bottom
      rwa [List.getLast?_cons_cons]
  · intro f hf
    exact h.shallow f (List.mem_cons_of_mem frame hf)

/-- Only the lowest frame is the member's. -/
theorem Stacked.lowest {frame : PathFrame} {below : List PathFrame}
    (h : Stacked member limits (frame :: below)) (hnode : frame.node = member) : below = [] := by
  cases hb : below.getLast? with
  | none => exact List.getLast?_eq_none_iff.mp hb
  | some last =>
    have hlast : last.node = member := h.below.bottom last hb
    have hmem : frame.node ∈ below.map (·.node) := by
      rw [hnode, ← hlast]
      exact List.mem_map_of_mem (List.mem_of_getLast? hb)
    exact absurd hmem (List.nodup_cons.mp h.apart).1

theorem Stacked.next {frame : PathFrame} {below : List PathFrame}
    (h : Stacked member limits (frame :: below)) :
    Stacked member limits ({ frame with index := frame.index+1 } :: below) := by
  constructor
  · exact h.apart
  · intro f hf
    cases below with
    | nil =>
      have hbottom : frame.node = member := h.bottom frame rfl
      rw [← Option.mem_some.mp hf]
      exact hbottom
    | cons g rest =>
      apply h.bottom
      rwa [List.getLast?_cons_cons] at hf ⊢
  · intro f hf
    rcases List.mem_cons.mp hf with rfl | hf
    · exact h.shallow frame List.mem_cons_self
    · exact h.shallow f (List.mem_cons_of_mem frame hf)

theorem Stacked.push {stack : List PathFrame} (h : Stacked member limits stack)
    (hne : stack ≠ []) {node : String} {taken : List GraphEdge}
    (hnew : node ∉ stack.map (·.node)) (hdeep : taken.length < limits.maxDepth) :
    Stacked member limits (⟨node,taken,0⟩ :: stack) := by
  constructor
  · exact List.nodup_cons.mpr ⟨hnew,h.apart⟩
  · intro f hf
    cases stack with
    | nil => exact absurd rfl hne
    | cons g rest =>
      apply h.bottom
      rwa [List.getLast?_cons_cons] at hf
  · intro f hf
    rcases List.mem_cons.mp hf with rfl | hf
    · exact hdeep
    · exact h.shallow f hf

/-- A frame with an edge left still has that edge's sights to meet. -/
theorem pending_edge {frame : PathFrame} {below : List PathFrame} {edge : GraphEdge}
    (hedge : (out frame.node)[frame.index]? = some edge) :
    pending out member group limits.maxDepth (frame :: below) =
      sightsPast out member group
        (sightsFrom out member group (limits.maxDepth-frame.taken.length-1))
        (limits.maxDepth-frame.taken.length-1) ((frame :: below).map (·.node)).reverse
        frame.taken edge ++
      pending out member group limits.maxDepth ({ frame with index := frame.index+1 } :: below) := by
  obtain ⟨hlt,rfl⟩ := List.getElem?_eq_some_iff.mp hedge
  simp only [pending, List.drop_eq_getElem_cons hlt, List.flatMap_cons, List.append_assoc,
    List.map_cons]

theorem pending_spent {frame : PathFrame} {below : List PathFrame}
    (hnone : (out frame.node)[frame.index]? = none) :
    pending out member group limits.maxDepth (frame :: below) =
      pending out member group limits.maxDepth below := by
  simp only [pending, List.drop_eq_nil_of_le (List.getElem?_eq_none_iff.mp hnone),
    List.flatMap_nil, List.nil_append]

/-- A fresh frame has every sight from its node to meet. -/
theorem pending_push {stack : List PathFrame} {node : String} {taken : List GraphEdge}
    (hdeep : taken.length < limits.maxDepth) :
    pending out member group limits.maxDepth (⟨node,taken,0⟩ :: stack) =
      sightsFrom out member group (limits.maxDepth-taken.length)
        ((stack.map (·.node)).reverse ++ [node]) taken node ++
      pending out member group limits.maxDepth stack := by
  obtain ⟨left,hleft⟩ : ∃ left, limits.maxDepth-taken.length = left+1 :=
    ⟨limits.maxDepth-taken.length-1,by omega⟩
  simp only [pending, hleft, sightsFrom, List.drop_zero, Nat.add_sub_cancel, List.map_cons,
    List.reverse_cons]

theorem pathStep_underway {s s' : PathSearch} (h : Underway out member group limits s)
    (hs : pathStep out member group limits s = some s') : Underway out member group limits s' := by
  obtain ⟨met,hmet,hsplit⟩ := h.split
  unfold pathStep at hs
  split at hs
  · cases hs
  · split at hs
    · cases hs
    · next frame below hstack =>
      have hstacked := h.stacked
      have honPath := h.onPath (by simp [hstack])
      rw [hstack] at hstacked hsplit honPath
      split at hs
      · next hnone =>
        cases hs
        rw [pending_spent hnone] at hsplit
        refine ⟨hstacked.below,?_,met,hmet.skip _ _,hsplit⟩
        intro hne
        have hnode : frame.node ≠ member := fun heq => hne (hstacked.lowest heq)
        show (if frame.node = member then s.onPath else s.onPath.filter (· ≠ frame.node)) = _
        rw [if_neg hnode, honPath, List.map_cons, List.reverse_cons, List.filter_append]
        have hkeep : (below.map (·.node)).reverse.filter (· ≠ frame.node) =
            (below.map (·.node)).reverse := by
          apply List.filter_eq_self.mpr
          intro x hx
          have hapart := (List.nodup_cons.mp hstacked.apart).1
          simp only [decide_eq_true_eq]
          rintro rfl
          exact hapart (List.mem_reverse.mp hx)
        rw [hkeep]
        simp
      · next edge hedge =>
        cases hs
        rw [pending_edge hedge, ← List.append_assoc] at hsplit
        obtain ⟨seen,hrecorded,hcase⟩ := takeHop_sights out member group limits frame.taken edge
          (hmet.skip s.onPath ({ frame with index := frame.index+1 } :: below))
        rw [← honPath] at hsplit
        rcases hcase with ⟨hsame,hpath,hseen⟩ | ⟨hnil,hnew,hdeep,hpushed,hpath,hlater⟩
        · refine ⟨hsame ▸ hstacked.next,?_,met ++ seen,hrecorded,?_⟩
          · intro _
            rw [hsame, hpath]
            exact honPath
          · rw [hsame, hseen]
            exact hsplit
        · have hstackedNext := hstacked.next
          have hfresh : edge.groupKey ∉
              (({ frame with index := frame.index+1 } : PathFrame) :: below).map (·.node) := by
            intro hmem
            apply hnew
            show edge.groupKey ∈ s.onPath
            rw [honPath]
            exact List.mem_reverse.mpr hmem
          refine ⟨?_,?_,met,?_,?_⟩
          · rw [hpushed]
            exact hstackedNext.push (by simp) hfresh hdeep
          · intro _
            rw [hpushed, hpath, List.map_cons, List.reverse_cons]
            show s.onPath ++ [edge.groupKey] = _
            rw [honPath]
            rfl
          · rw [hnil, List.append_nil] at hrecorded
            exact hrecorded
          · rw [hpushed, pending_push hdeep, ← List.append_assoc]
            have hlast : limits.maxDepth-(frame.taken ++ [edge]).length =
                limits.maxDepth-frame.taken.length-1 := by
              rw [List.length_append, List.length_singleton]
              omega
            rw [hlast]
            have hsights : sightsPast out member group
                (sightsFrom out member group (limits.maxDepth-frame.taken.length-1))
                (limits.maxDepth-frame.taken.length-1) s.onPath frame.taken edge = _ := hlater
            rw [hsights, honPath] at hsplit
            exact hsplit

theorem searchFrom_underway : Underway out member group limits (searchFrom member) := by
  have hdeep : ([] : List GraphEdge).length < limits.maxDepth := limits.depth_bounds.1
  have hstack : Stacked member limits (searchFrom member).stack := by
    constructor
    · exact List.nodup_singleton _
    · intro f hf
      rw [← Option.mem_some.mp hf]
      rfl
    · intro f hf
      rw [List.mem_singleton.mp hf]
      exact hdeep
  refine ⟨hstack,fun _ => rfl,[],⟨rfl,by simp,by simp [searchFrom]⟩,?_⟩
  show pending out member group limits.maxDepth [⟨member,[],0⟩] = _
  rw [pending_push hdeep]
  simp [pending]

/-- A search that ended has met a first part of the sights, and all of them
when nothing was cut short. -/
theorem ended_met {s : PathSearch} (h : Underway out member group limits s)
    (hend : Finished (pathStep out member group limits) s) :
    ∃ met, Recorded met s ∧
      met <+: sightsFrom out member group limits.maxDepth [member] [] member ∧
      (s.truncation = [] →
        met = sightsFrom out member group limits.maxDepth [member] [] member ∧ .cut ∉ met) := by
  obtain ⟨met,hmet,hsplit⟩ := h.split
  refine ⟨met,hmet,⟨_,hsplit⟩,fun hnone => ?_⟩
  have hcut : .cut ∉ met := by
    intro hc
    have hreason := hmet.cuts hc
    rw [hnone] at hreason
    cases hreason
  have hopen : s.full = false := by
    cases hfull : s.full with
    | false => rfl
    | true =>
      have hreason := hmet.capped hfull
      rw [hnone] at hreason
      cases hreason
  have hempty : s.stack = [] := by
    unfold Finished pathStep at hend
    rw [hopen] at hend
    cases hstack : s.stack with
    | nil => rfl
    | cons frame below =>
      simp only [hstack] at hend
      split at hend
      · next hfull => cases hfull
      · split at hend <;> cases hend
  rw [hempty] at hsplit
  simp only [pending, List.append_nil] at hsplit
  exact ⟨hsplit,hcut⟩

end Refinement

section Chains
variable {out : String → List GraphEdge} {member group : String}

/-- Edges that lead from one key up to another, each from where the last ended. -/
def Climbs (out : String → List GraphEdge) : String → List GraphEdge → String → Prop
  | x, [], y => x = y
  | x, e :: rest, y => e ∈ out x ∧ Climbs out e.groupKey rest y

theorem climbs_reaches {x y : String} {taken : List GraphEdge} (h : Climbs out x taken y)
    (hne : taken ≠ []) : y ∈ taken.map (·.groupKey) := by
  induction taken generalizing x with
  | nil => exact absurd rfl hne
  | cons e rest ih =>
    cases rest with
    | nil =>
      have hend : e.groupKey = y := h.2
      simp [hend]
    | cons f rest =>
      exact List.mem_cons_of_mem _ (ih h.2 (by simp))

/-- What every path met past an edge is, when it is so further on. -/
theorem past_sound {further : List String → List GraphEdge → String → List Sight} {left : ℕ}
    (hfurther : ∀ onPath taken node p, .path p ∈ further onPath taken node →
      ∃ rest, p = pathAlong member (taken ++ rest) ∧ Climbs out node rest group ∧
        (rest.map (·.groupKey)).Nodup ∧ ∀ x ∈ rest.map (·.groupKey), x ∉ onPath)
    {onPath : List String} {taken : List GraphEdge} {edge : GraphEdge} {p : MembershipPath}
    (h : .path p ∈ sightsPast out member group further left onPath taken edge) :
    ∃ rest, p = pathAlong member (taken ++ edge :: rest) ∧ Climbs out edge.groupKey rest group ∧
      ((edge :: rest).map (·.groupKey)).Nodup ∧
      ∀ x ∈ (edge :: rest).map (·.groupKey), x ∉ onPath := by
  unfold sightsPast at h
  split at h
  · cases h
  · next hnew =>
    split at h
    · next hend =>
      have hp := Sight.path.inj (List.mem_singleton.mp h)
      refine ⟨[],hp,hend,List.nodup_singleton _,?_⟩
      intro x hx
      rw [List.mem_singleton.mp hx]
      exact hnew
    · split at h
      · split at h
        · exact absurd (List.mem_singleton.mp h) (by simp)
        · cases h
      · obtain ⟨rest,hp,hclimb,hapart,hfresh⟩ := hfurther _ _ _ _ h
        refine ⟨rest,?_,hclimb,?_,?_⟩
        · rw [hp, List.append_assoc]
          rfl
        · refine List.nodup_cons.mpr ⟨?_,hapart⟩
          intro hmem
          exact hfresh _ hmem (by simp)
        · intro x hx
          rcases List.mem_cons.mp hx with rfl | hx
          · exact hnew
          · exact fun hold => hfresh x hx (List.mem_append_left _ hold)

/-- Every path met is a chain up to the group that repeats no key. -/
theorem sights_sound (left : ℕ) : ∀ onPath taken node p,
    .path p ∈ sightsFrom out member group left onPath taken node →
      ∃ rest, p = pathAlong member (taken ++ rest) ∧ Climbs out node rest group ∧
        (rest.map (·.groupKey)).Nodup ∧ ∀ x ∈ rest.map (·.groupKey), x ∉ onPath := by
  induction left with
  | zero =>
    intro onPath taken node p h
    cases h
  | succ left ih =>
    intro onPath taken node p h
    obtain ⟨edge,hedge,h⟩ := List.mem_flatMap.mp h
    obtain ⟨rest,hp,hclimb,hapart,hfresh⟩ := past_sound ih h
    exact ⟨edge :: rest,hp,⟨hedge,hclimb⟩,hapart,hfresh⟩

/-- Without a cut, every chain up to the group that repeats no key is met. -/
theorem sights_complete {left : ℕ} {onPath : List String} {taken : List GraphEdge}
    {node : String} {rest : List GraphEdge} (hleft : 0 < left) (hne : rest ≠ [])
    (hclimb : Climbs out node rest group) (hapart : (rest.map (·.groupKey)).Nodup)
    (hfresh : ∀ x ∈ rest.map (·.groupKey), x ∉ onPath)
    (hcut : .cut ∉ sightsFrom out member group left onPath taken node) :
    .path (pathAlong member (taken ++ rest)) ∈
      sightsFrom out member group left onPath taken node := by
  induction left generalizing onPath taken node rest with
  | zero => omega
  | succ left ih =>
    cases rest with
    | nil => exact absurd rfl hne
    | cons edge rest =>
      obtain ⟨hedge,hrest⟩ := hclimb
      have hcutPast : .cut ∉ sightsPast out member group (sightsFrom out member group left) left
          onPath taken edge := by
        intro hc
        exact hcut (List.mem_flatMap.mpr ⟨edge,hedge,hc⟩)
      have hnew : edge.groupKey ∉ onPath := hfresh _ List.mem_cons_self
      obtain ⟨hnotin,hapartRest⟩ := List.nodup_cons.mp hapart
      refine List.mem_flatMap.mpr ⟨edge,hedge,?_⟩
      unfold sightsPast at hcutPast ⊢
      rw [if_neg hnew] at hcutPast ⊢
      by_cases hend : edge.groupKey = group
      · have hnil : rest = [] := by
          by_contra hmore
          have hagain := climbs_reaches hrest hmore
          rw [← hend] at hagain
          exact hnotin hagain
        rw [if_pos hend, hnil]
        exact List.mem_singleton.mpr rfl
      · rw [if_neg hend] at hcutPast ⊢
        cases rest with
        | nil => exact absurd hrest hend
        | cons next rest =>
          by_cases hzero : left = 0
          · have hout : out edge.groupKey ≠ [] := List.ne_nil_of_mem hrest.1
            rw [if_pos hzero, if_pos hout] at hcutPast
            exact absurd (List.mem_singleton.mpr rfl) hcutPast
          · rw [if_neg hzero] at hcutPast ⊢
            have hlater := ih (Nat.pos_of_ne_zero hzero) (by simp) hrest hapartRest (by
              intro x hx hold
              rcases List.mem_append.mp hold with hold | hsame
              · exact hfresh x (List.mem_cons_of_mem _ hx) hold
              · rw [List.mem_singleton.mp hsame] at hx
                exact hnotin hx) hcutPast
            rwa [List.append_assoc] at hlater

/-- Nothing is met twice when no edge leaves its node twice. -/
theorem sights_once (hout : ∀ x, (out x).Nodup) (left : ℕ) : ∀ onPath taken node,
    (pathsOf (sightsFrom out member group left onPath taken node)).Nodup := by
  induction left with
  | zero =>
    intro onPath taken node
    exact List.nodup_nil
  | succ left ih =>
    intro onPath taken node
    unfold sightsFrom pathsOf
    rw [List.filterMap_flatMap, List.nodup_flatMap]
    constructor
    · intro edge _
      unfold sightsPast
      split
      · exact List.nodup_nil
      · split
        · exact List.nodup_singleton _
        · split
          · split <;> exact List.nodup_nil
          · exact ih _ _ _
    · apply (hout node).imp
      intro e f hne p he hf
      obtain ⟨rest,hp,-⟩ := past_sound (sights_sound left) (mem_pathsOf.mp he)
      obtain ⟨more,hq,-⟩ := past_sound (sights_sound left) (mem_pathsOf.mp hf)
      have hedges := congrArg MembershipPath.edges (hp.symm.trans hq)
      have hsame := List.append_cancel_left hedges
      exact hne (List.cons.inj hsame).1

end Chains

/-- A chain of supplied edges from the member up to the group, no key twice. -/
structure SimpleChain (edges : List GraphEdge) (member group : String) (p : MembershipPath) :
    Prop where
  starts : p.nodes.head? = some member
  ends : p.nodes.getLast? = some group
  supplied : ∀ e ∈ p.edges, e ∈ edges
  leaves : p.edges.map (·.memberKey) = p.nodes.dropLast
  reaches : p.edges.map (·.groupKey) = p.nodes.tail
  simple : p.nodes.Nodup

section Enumeration
variable {edges : List GraphEdge} {member group : String} {limits : TraversalLimits}

theorem mem_outgoing {e : GraphEdge} {node : String} :
    e ∈ outgoing edges node ↔ e ∈ edges ∧ e.memberKey = node := by
  unfold outgoing
  rw [List.mem_insertionSort, List.mem_filter, decide_eq_true_eq]

theorem climbs_iff {x y : String} {taken : List GraphEdge} :
    Climbs (outgoing edges) x taken y ↔
      (∀ e ∈ taken, e ∈ edges) ∧
        taken.map (·.memberKey) = (x :: taken.map (·.groupKey)).dropLast ∧
        (x :: taken.map (·.groupKey)).getLast? = some y := by
  induction taken generalizing x with
  | nil => simp [Climbs]
  | cons e rest ih =>
    simp only [Climbs, ih, mem_outgoing, List.forall_mem_cons, List.map_cons,
      List.dropLast_cons_cons, List.cons.injEq, List.getLast?_cons_cons]
    tauto

/-- A simple chain is a path that climbs to the group and repeats no key. -/
theorem simpleChain_iff {p : MembershipPath} :
    SimpleChain edges member group p ↔
      p = pathAlong member p.edges ∧ Climbs (outgoing edges) member p.edges group ∧
        (p.edges.map (·.groupKey)).Nodup ∧ member ∉ p.edges.map (·.groupKey) := by
  constructor
  · intro h
    have hnodes : p.nodes = member :: p.edges.map (·.groupKey) := by
      cases hn : p.nodes with
      | nil =>
        have hstart := h.starts
        rw [hn] at hstart
        cases hstart
      | cons x rest =>
        have hstart := h.starts
        have hreach := h.reaches
        rw [hn] at hstart hreach
        rw [hreach, Option.some.inj hstart]
        rfl
    have hsimple := h.simple
    rw [hnodes, List.nodup_cons] at hsimple
    refine ⟨?_,climbs_iff.mpr ⟨h.supplied,?_,?_⟩,hsimple.2,hsimple.1⟩
    · unfold pathAlong
      rw [← hnodes]
    · rw [← hnodes]
      exact h.leaves
    · rw [← hnodes]
      exact h.ends
  · rintro ⟨hp,hclimb,hapart,hfresh⟩
    obtain ⟨hsupplied,hleaves,hends⟩ := climbs_iff.mp hclimb
    have hnodes : p.nodes = member :: p.edges.map (·.groupKey) := congrArg MembershipPath.nodes hp
    constructor
    · rw [hnodes]
      rfl
    · rw [hnodes]
      exact hends
    · exact hsupplied
    · rw [hnodes]
      exact hleaves
    · rw [hnodes]
      rfl
    · rw [hnodes]
      exact List.nodup_cons.mpr ⟨hfresh,hapart⟩

theorem outgoing_nodup (h : edges.Nodup) (node : String) : (outgoing edges node).Nodup :=
  (List.perm_insertionSort _ _).nodup_iff.mpr (h.filter _)

instance : Std.Total candidateOrder where
  total a b := by
    unfold candidateOrder
    rcases lt_trichotomy a.groupKey b.groupKey with h | h | h
    · exact .inl (.inl h)
    · rcases le_total a.edgeKey b.edgeKey with hk | hk
      · exact .inl (.inr ⟨h,hk⟩)
      · exact .inr (.inr ⟨h.symm,hk⟩)
    · exact .inr (.inl h)

instance : IsTrans GraphEdge candidateOrder where
  trans a b c := by
    unfold candidateOrder
    rintro (hab | ⟨hab,hk⟩) (hbc | ⟨hbc,hl⟩)
    · exact .inl (hab.trans hbc)
    · exact .inl (hbc ▸ hab)
    · exact .inl (hab ▸ hbc)
    · exact .inr ⟨hab.trans hbc,hk.trans hl⟩

instance : Std.Total pathOrder where
  total a b := by
    unfold pathOrder
    rcases lt_trichotomy a.length b.length with h | h | h
    · exact .inl (.inl h)
    · rcases le_total a.nodes b.nodes with hn | hn
      · exact .inl (.inr ⟨h,hn⟩)
      · exact .inr (.inr ⟨h.symm,hn⟩)
    · exact .inr (.inl h)

instance : IsTrans MembershipPath pathOrder where
  trans a b c := by
    unfold pathOrder
    rintro (hab | ⟨hab,hk⟩) (hbc | ⟨hbc,hl⟩)
    · exact .inl (hab.trans hbc)
    · exact .inl (hbc ▸ hab)
    · exact .inl (hab ▸ hbc)
    · exact .inr ⟨hab.trans hbc,hk.trans hl⟩

/-- Rows with distinct keys leave a node in one order, however they came. -/
theorem outgoing_perm {edges' : List GraphEdge} (h : edges.Perm edges')
    (hkeys : (edges.map (·.edgeKey)).Nodup) (node : String) :
    outgoing edges node = outgoing edges' node := by
  unfold outgoing
  apply List.Perm.eq_of_pairwise _ (List.pairwise_insertionSort _ _)
    (List.pairwise_insertionSort _ _)
  · apply (List.perm_insertionSort _ _).trans
    exact (h.filter _).trans (List.perm_insertionSort _ _).symm
  · intro a b ha hb hab hba
    have hamem : a ∈ edges := (List.mem_filter.mp ((List.mem_insertionSort _).mp ha)).1
    have hbmem : b ∈ edges :=
      h.mem_iff.mpr (List.mem_filter.mp ((List.mem_insertionSort _).mp hb)).1
    have hkey : a.edgeKey = b.edgeKey := by
      rcases hab with hab | ⟨hab,hk⟩
      · rcases hba with hba | ⟨hba,-⟩
        · exact absurd hab hba.not_gt
        · exact absurd hab (hba ▸ lt_irrefl _)
      · rcases hba with hba | ⟨-,hl⟩
        · exact absurd hba (hab ▸ lt_irrefl _)
        · exact le_antisymm hk hl
    exact List.inj_on_of_nodup_map hkeys hamem hbmem hkey

theorem runSearch_underway :
    Underway (outgoing edges) member group limits (runSearch edges member group limits) :=
  iterate_invariant (fun _ _ => pathStep_underway) _ searchFrom_underway

theorem sortReasons_nil {reasons : List TruncationReason} :
    sortReasons reasons = [] ↔ reasons = [] := by
  unfold sortReasons
  rw [← List.length_eq_zero_iff, List.length_insertionSort, List.length_eq_zero_iff]

end Enumeration

/-- `simple_paths` ends on every graph and returns simple chains, each once,
in the order of their length and nodes, whatever order the edges came in; a
search that reports no truncation returns every simple chain. -/
theorem simple_paths_exact (edges : List GraphEdge) (member group : String)
    (limits : TraversalLimits) (hne : member ≠ group) :
    ∃ n s found, s = iterate (pathStep (outgoing edges) member group limits) n (searchFrom member) ∧
      Finished (pathStep (outgoing edges) member group limits) s ∧
      simplePaths edges member group limits = .ok found ∧
      found.paths = s.found.insertionSort pathOrder ∧
      (∀ p ∈ found.paths, SimpleChain edges member group p) ∧
      (edges.Nodup → found.paths.Nodup) ∧
      found.paths.Pairwise pathOrder ∧
      (∀ edges', edges.Perm edges' → (edges.map (·.edgeKey)).Nodup →
        simplePaths edges' member group limits = .ok found) ∧
      (found.truncation = [] → ∀ p, SimpleChain edges member group p → p ∈ found.paths) := by
  have hend := runSearch_finished edges member group limits
  obtain ⟨met,hmet,hinitial,hall⟩ := ended_met runSearch_underway hend
  have hperm := List.perm_insertionSort pathOrder (runSearch edges member group limits).found
  refine ⟨_,_,_,rfl,hend,if_neg hne,rfl,?_,?_,List.pairwise_insertionSort _ _,?_,?_⟩
  · intro p hp
    rw [hperm.mem_iff, hmet.found, mem_pathsOf] at hp
    obtain ⟨rest,rfl,hclimb,hapart,hfresh⟩ := sights_sound _ _ _ _ _ (hinitial.subset hp)
    refine simpleChain_iff.mpr ⟨rfl,hclimb,hapart,?_⟩
    intro hmem
    exact hfresh member hmem List.mem_cons_self
  · intro hnodup
    rw [hperm.nodup_iff, hmet.found]
    exact (sights_once (outgoing_nodup hnodup) _ _ _ _).sublist
      (hinitial.sublist.filterMap Sight.path?)
  · intro edges' hedges hkeys
    have hout : outgoing edges' = outgoing edges :=
      funext fun node => (outgoing_perm hedges hkeys node).symm
    unfold simplePaths runSearch
    rw [if_neg hne, hout, hedges.length_eq]
  · intro htruncation p hp
    obtain ⟨rfl,hcut⟩ := hall (sortReasons_nil.mp htruncation)
    obtain ⟨halong,hclimb,hapart,hfresh⟩ := simpleChain_iff.mp hp
    have hsome : p.edges ≠ [] := by
      intro hnil
      rw [hnil] at hclimb
      exact hne hclimb
    rw [hperm.mem_iff, hmet.found, mem_pathsOf, halong]
    apply sights_complete limits.depth_bounds.1 hsome hclimb hapart _ hcut
    intro x hx hold
    rw [List.mem_singleton.mp hold] at hx
    exact hfresh hx

namespace Sample

def edge (key member group : String) (hg : group ≠ "") (hm : member ≠ "") (hne : group ≠ member) :
    GraphEdge where
  edgeKey := key
  groupKey := group
  memberKey := member
  group_ne := hg
  member_ne := hm
  endpoints_ne := hne

/-- Two ways up from a leaf, one of them through a ring of two groups. -/
def diamond : List GraphEdge :=
  [edge "e5" "left" "top" (by decide) (by decide) (by decide),
    edge "e1" "leaf" "left" (by decide) (by decide) (by decide),
    edge "e4" "right" "left" (by decide) (by decide) (by decide),
    edge "e3" "left" "right" (by decide) (by decide) (by decide),
    edge "e2" "leaf" "right" (by decide) (by decide) (by decide),
    edge "e6" "right" "top" (by decide) (by decide) (by decide)]

end Sample

theorem simple_paths_of_diamond :
    ∃ found, simplePaths Sample.diamond "leaf" "top" {} = .ok found ∧
      (∀ p ∈ found.paths, SimpleChain Sample.diamond "leaf" "top" p) ∧
      (found.truncation = [] → ∀ p, SimpleChain Sample.diamond "leaf" "top" p → p ∈ found.paths) := by
  obtain ⟨-,-,found,-,-,hfound,-,hsound,-,-,-,hcomplete⟩ :=
    simple_paths_exact Sample.diamond "leaf" "top" {} (by decide)
  exact ⟨found,hfound,hsound,hcomplete⟩

example : (simplePaths Sample.diamond "leaf" "top" {}).map (fun f => f.paths.map (·.nodes)) =
    .ok [["leaf","left","top"],["leaf","right","top"],["leaf","left","right","top"],
      ["leaf","right","left","top"]] := by
  decide +kernel

end Adg.SimpleChains
