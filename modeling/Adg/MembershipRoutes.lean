import Adg.FactBundles
import Adg.ShortestRoutes

/-!
# Routes through memberships

The walk meets the simple routes below a group in the order of depth first
search, each with the records along it, and a route it ends at the limit comes
after the same route unmarked. A bundle that holds no more than the records
along some routes that never part leads along those routes and nowhere else.
-/

set_option autoImplicit false

namespace Adg.MembershipRoutes
open Adg.ShortestRoutes Adg.FindingModel Adg.RiskRecords Adg.FactBundles

/-- A simple route with the records along it. -/
def chainAlong (f : RiskFacts) (t : String) (steps : List String) : Chain where
  keys := t :: steps
  edges := f.edgesAlong t steps
  truncated := f.shortAlong t steps

section Order
variable {f : RiskFacts}

/-- The walk meets an end before it marks it, and meets the ends in the order of the routes. -/
theorem find_walk {n : ℕ} {node : String} {visited : List String} {edges : List MembershipFacts}
    {truncated : Bool} {p : List String → Bool} (hp : p [] = false) :
    (f.walk n node visited edges truncated).find? (fun c => p (c.keys.drop visited.length)) =
      ((routes f.directMembers n node visited).find? p).map fun s =>
        ⟨visited ++ s,edges ++ f.edgesAlong node s,truncated || f.shortAlong node s⟩ := by
  induction n generalizing node visited edges truncated p with
  | zero =>
    rw [RiskFacts.walk]
    split_ifs with hmore
    · simp [routes, hp]
    · rfl
  | succ n ih =>
    cases hrecord : f.membership node with
    | none =>
      have hnone : f.directMembers node = [] := by
        unfold RiskFacts.directMembers
        rw [hrecord]
        rfl
      rw [RiskFacts.walk, hrecord, routes, hnone]
      rfl
    | some record =>
      rw [RiskFacts.walk, hrecord, routes, RiskFacts.directMembers_of hrecord]
      simp only [List.find?_flatMap]
      rw [List.map_findSome?]
      congr 1
      funext other
      by_cases hvisited : other ∈ visited
      · simp [hvisited]
      · rw [Function.comp_apply, if_neg hvisited, if_neg hvisited]
        have hedges : ∀ rest, f.edgesAlong node (other :: rest) =
            record.restrictedTo other :: f.edgesAlong other rest := by
          intro rest
          rw [RiskFacts.edgesAlong, hrecord]
          rfl
        have hshort : ∀ rest, f.shortAlong node (other :: rest) =
            (record.truncated || f.shortAlong other rest) := by
          intro rest
          rw [RiskFacts.shortAlong, hrecord]
          rfl
        cases hother : p [other] with
        | true =>
          rw [List.find?_cons_of_pos (by simpa using hother), List.find?_cons_of_pos hother,
            Option.map_some, hedges, hshort]
          simp [RiskFacts.edgesAlong, RiskFacts.shortAlong]
        | false =>
          rw [List.find?_cons_of_neg (by simpa using hother),
            List.find?_cons_of_neg (by simpa using hother), List.find?_map, Option.map_map]
          have hkeys : (f.walk n other (visited ++ [other]) (edges ++ [record.restrictedTo other])
              (truncated || record.truncated)).find? (fun c => p (c.keys.drop visited.length)) =
              (f.walk n other (visited ++ [other]) (edges ++ [record.restrictedTo other])
                (truncated || record.truncated)).find?
                fun c => (p ∘ (other :: ·)) (c.keys.drop (visited ++ [other]).length) := by
            apply List.find?_congr
            intro c hc
            obtain ⟨steps,-,hsteps,-⟩ := RiskFacts.mem_walk.mp hc
            rw [hsteps]
            simp
          rw [hkeys, ih hother]
          congr 1
          funext s
          simp [hedges, hshort, Bool.or_assoc]

theorem chainsDown_find {t : String} {depth : ℤ} {p : List String → Bool} (hp : p [] = false) :
    (f.chainsDown t depth).find? (fun c => p (c.keys.drop 1)) =
      ((routes f.directMembers (RiskFacts.walkLimit depth) t [t]).find? p).map (chainAlong f t) := by
  have hwalk := @find_walk f (RiskFacts.walkLimit depth) t [t] [] false p hp
  exact hwalk

/-- What lies below a group. -/
theorem mem_chainsDown {t : String} {depth : ℤ} {c : Chain} :
    c ∈ f.chainsDown t depth ↔ ∃ steps, f.Descends t [t] steps ∧ c.keys = t :: steps ∧
      c.edges = f.edgesAlong t steps ∧
      ((steps ≠ [] ∧ steps.length ≤ RiskFacts.walkLimit depth ∧
          c.truncated = f.shortAlong t steps) ∨
        (steps.length = RiskFacts.walkLimit depth ∧
          f.directMembers (RiskFacts.endOf t steps) ≠ [] ∧ c.truncated = true)) := by
  unfold RiskFacts.chainsDown
  rw [RiskFacts.mem_walk]
  rfl

/-- A chain that is the first with its keys is the route itself. -/
theorem first_along {t : String} {depth : ℤ} {c : Chain} (hlong : c.keys ≠ [t])
    (h : (f.chainsDown t depth).find? (fun a => a.keys = c.keys) = some c) :
    ∃ steps, steps ≠ [] ∧ f.Descends t [t] steps ∧
      steps.length ≤ RiskFacts.walkLimit depth ∧ c = chainAlong f t steps := by
  obtain ⟨steps,hdescends,hkeys,-,hcases⟩ := mem_chainsDown.mp (List.mem_of_find?_eq_some h)
  have hne : steps ≠ [] := by
    rintro rfl
    exact hlong hkeys
  have hlength : steps.length ≤ RiskFacts.walkLimit depth := by
    rcases hcases with hcases | hcases
    · exact hcases.2.1
    · exact hcases.1.le
  refine ⟨steps,hne,hdescends,hlength,?_⟩
  have hsame : (f.chainsDown t depth).find? (fun a => a.keys = c.keys) =
      (f.chainsDown t depth).find? fun a => (fun s => decide (s = steps)) (a.keys.drop 1) := by
    apply List.find?_congr
    intro a ha
    obtain ⟨other,-,hother,-⟩ := mem_chainsDown.mp ha
    rw [hother, hkeys]
    simp
  have hfirst := @chainsDown_find f t depth (fun s => decide (s = steps)) (by simpa using hne.symm)
  rw [hsame, hfirst] at h
  obtain ⟨s,hs,rfl⟩ := Option.map_eq_some_iff.mp h
  have hfound := List.find?_some hs
  rw [of_decide_eq_true hfound]

end Order

/-! ### Ends -/

section Ends
variable {f : RiskFacts}

theorem endOf_getLast {node : String} {steps : List String} (h : steps ≠ []) :
    steps.getLast? = some (RiskFacts.endOf node steps) := by
  induction steps generalizing node with
  | nil => exact absurd rfl h
  | cons other rest ih =>
    cases rest with
    | nil => rfl
    | cons next rest =>
      rw [List.getLast?_cons_cons]
      exact @ih other (List.cons_ne_nil next rest)

theorem endOf_mem {node : String} {steps : List String} (h : steps ≠ []) :
    RiskFacts.endOf node steps ∈ steps :=
  List.mem_of_getLast? (endOf_getLast h)

/-- Descending steps pass no key twice. -/
theorem descends_nodup {node : String} {visited steps : List String} (hvisited : visited.Nodup)
    (h : f.Descends node visited steps) : (visited ++ steps).Nodup := by
  induction steps generalizing node visited with
  | nil => simpa using hvisited
  | cons other rest ih =>
    have hnext : (visited ++ [other]).Nodup :=
      List.nodup_append.mpr ⟨hvisited,List.nodup_singleton _,fun a ha b hb => by
        rw [List.mem_singleton.mp hb]
        rintro rfl
        exact h.2.1 ha⟩
    simpa using ih hnext h.2.2

theorem descends_tail {node : String} {visited steps : List String} (hvisited : visited.Nodup)
    (h : f.Descends node visited steps) : steps.Nodup ∧ ∀ k ∈ steps, k ∉ visited := by
  have hnodup := List.nodup_append.mp (descends_nodup hvisited h)
  exact ⟨hnodup.2.1,fun k hk hv => hnodup.2.2 k hv k hk rfl⟩

/-- The records along descending steps are those of the keys the steps leave. -/
theorem edgesAlong_keys {node : String} {visited steps : List String}
    (hkeys : ∀ k m, f.membership k = some m → m.groupKey = k) (h : f.Descends node visited steps) :
    (f.edgesAlong node steps).map (·.groupKey) = (node :: steps).dropLast := by
  induction steps generalizing node visited with
  | nil => rfl
  | cons other rest ih =>
    obtain ⟨record,hrecord,-⟩ := RiskFacts.membership_of_member h.1
    rw [RiskFacts.edgesAlong, hrecord, List.map_append, ih h.2.2, List.dropLast_cons_cons]
    simp [MembershipFacts.restrictedTo, hkeys node record hrecord]

theorem not_mem_dropLast {l : List String} (h : l.Nodup) {x : String} (hx : l.getLast? = some x) :
    x ∉ l.dropLast := by
  obtain ⟨front,rfl⟩ := List.getLast?_eq_some_iff.mp hx
  rw [List.dropLast_concat]
  intro hmem
  exact (List.nodup_append.mp h).2.2 x hmem x (List.mem_singleton_self x) rfl

end Ends

/-! ### Bundles of the records along some steps -/

/-- A bundle holds, of the records of another along some steps, what the steps take. -/
def Follows (f g : RiskFacts) : String → List String → Prop
  | _, [] => True
  | node, other :: rest =>
    (∃ record, f.membership node = some record ∧
      g.membership node = some (record.restrictedTo other)) ∧ Follows f g other rest

section Following
variable {f g : RiskFacts}

theorem follows_of_edges {held : List MembershipFacts}
    (hg : ∀ k m, m ∈ held ∧ m.groupKey = k → g.membership k = some m)
    (hkeys : ∀ k m, f.membership k = some m → m.groupKey = k) {node : String}
    {visited steps : List String} (h : f.Descends node visited steps)
    (hheld : ∀ e ∈ f.edgesAlong node steps, e ∈ held) : Follows f g node steps := by
  induction steps generalizing node visited with
  | nil => trivial
  | cons other rest ih =>
    obtain ⟨record,hrecord,-⟩ := RiskFacts.membership_of_member h.1
    rw [RiskFacts.edgesAlong, hrecord] at hheld
    constructor
    · refine ⟨record,hrecord,hg node _ ⟨hheld _ (by simp),?_⟩⟩
      exact hkeys node record hrecord
    · exact ih h.2.2 fun e he => hheld e (List.mem_append_right _ he)

theorem follows_along {node : String} {steps : List String} (h : Follows f g node steps) :
    g.edgesAlong node steps = f.edgesAlong node steps ∧
      g.shortAlong node steps = f.shortAlong node steps := by
  induction steps generalizing node with
  | nil => exact ⟨rfl,rfl⟩
  | cons other rest ih =>
    obtain ⟨⟨record,hf,hg⟩,hrest⟩ := h
    obtain ⟨hedges,hshort⟩ := ih hrest
    rw [RiskFacts.edgesAlong, RiskFacts.edgesAlong, RiskFacts.shortAlong, RiskFacts.shortAlong, hf,
      hg, hedges, hshort]
    exact ⟨rfl,rfl⟩

theorem follows_members {node other : String} {rest : List String}
    (h : Follows f g node (other :: rest)) : g.directMembers node = [other] := by
  obtain ⟨⟨record,-,hg⟩,-⟩ := h
  rw [RiskFacts.directMembers_of hg]
  rfl

theorem follows_descends {node : String} {visited steps : List String}
    (h : Follows f g node steps) (hd : f.Descends node visited steps) :
    g.Descends node visited steps := by
  induction steps generalizing node visited with
  | nil => trivial
  | cons other rest ih =>
    refine ⟨?_,hd.2.1,ih h.2 hd.2.2⟩
    rw [follows_members h]
    exact List.mem_singleton_self other

/-- Nothing leads off the steps. -/
theorem follows_only {node : String} {visited steps other : List String}
    (h : Follows f g node steps) (hend : g.directMembers (RiskFacts.endOf node steps) = [])
    (hd : g.Descends node visited other) : other <+: steps := by
  induction steps generalizing node visited other with
  | nil =>
    cases other with
    | nil => exact List.prefix_rfl
    | cons k rest =>
      have hk : k ∈ g.directMembers node := hd.1
      rw [show g.directMembers node = [] from hend] at hk
      cases hk
  | cons k steps ih =>
    cases other with
    | nil => exact List.nil_prefix
    | cons k' rest =>
      have hk : k' ∈ g.directMembers node := hd.1
      rw [follows_members h, List.mem_singleton] at hk
      subst hk
      exact (List.prefix_cons_inj k').mpr (ih h.2 hend hd.2.2)

/-- What lies below a group in such a bundle: the route and the routes on its way. -/
theorem below_follows {t : String} {steps : List String} {depth : ℤ} (h : Follows f g t steps)
    (hend : g.directMembers (RiskFacts.endOf t steps) = []) (hd : f.Descends t [t] steps)
    (hne : steps ≠ []) (hlength : steps.length ≤ RiskFacts.walkLimit depth) :
    chainAlong f t steps ∈ g.chainsDown t depth ∧
      ∀ c ∈ g.chainsDown t depth, ∃ s, s ≠ [] ∧ s <+: steps ∧ c.keys = t :: s ∧
        (s = steps → c = chainAlong f t steps) := by
  obtain ⟨hedges,hshort⟩ := follows_along h
  constructor
  · apply mem_chainsDown.mpr
    exact ⟨steps,follows_descends h hd,rfl,hedges.symm,.inl ⟨hne,hlength,hshort.symm⟩⟩
  · intro c hc
    obtain ⟨s,hs,hkeys,hcedges,hcases⟩ := mem_chainsDown.mp hc
    have hstart := follows_only h hend hs
    have hnormal : s ≠ [] ∧ c.truncated = g.shortAlong t s := by
      rcases hcases with ⟨hsne,-,htruncated⟩ | ⟨hlimit,hmore,-⟩
      · exact ⟨hsne,htruncated⟩
      · exfalso
        have hsame : s = steps := hstart.eq_of_length_le (by omega)
        rw [hsame] at hmore
        exact hmore hend
    refine ⟨s,hnormal.1,hstart,hkeys,?_⟩
    rintro rfl
    obtain ⟨keys,edges,truncated⟩ := c
    simp only at hkeys hcedges hnormal
    rw [hkeys, hcedges, hnormal.2, hedges, hshort]
    rfl

end Following

/-! ### Routes that take the nearest member -/

section Nearest
variable {f : RiskFacts} {goal : String}

/-- A record along the nearest route is that of a group and its first member one step nearer. -/
theorem greedy_edges {d : ℕ} {v : String} (h : Nearest f.directMembers goal d v)
    {e : MembershipFacts} (he : e ∈ f.edgesAlong v (greedy f.directMembers goal d v)) :
    ∃ r node record other, Nearest f.directMembers goal (r+1) node ∧
      f.membership node = some record ∧
      (f.directMembers node).find? (reaches f.directMembers goal r) = some other ∧
      e = record.restrictedTo other := by
  induction d generalizing v with
  | zero => cases he
  | succ d ih =>
    obtain ⟨o,ho,hnearest,hcons⟩ := h.greedy_cons
    rw [hcons, RiskFacts.edgesAlong, List.mem_append] at he
    rcases he with he | he
    · obtain ⟨record,hrecord,-⟩ :=
        RiskFacts.membership_of_member (List.mem_of_find?_eq_some ho)
      rw [hrecord] at he
      exact ⟨d,v,record,o,h,hrecord,ho,by simpa using he⟩
    · exact ih hnearest he

/-- Two nearest routes to one end never part at a group they share. -/
theorem greedy_edges_agree (hkeys : ∀ k m, f.membership k = some m → m.groupKey = k) {d d' : ℕ}
    {v v' : String} (h : Nearest f.directMembers goal d v)
    (h' : Nearest f.directMembers goal d' v') {e e' : MembershipFacts}
    (he : e ∈ f.edgesAlong v (greedy f.directMembers goal d v))
    (he' : e' ∈ f.edgesAlong v' (greedy f.directMembers goal d' v'))
    (hkey : e.groupKey = e'.groupKey) : e = e' := by
  obtain ⟨r,node,record,other,hnear,hrecord,hother,rfl⟩ := greedy_edges h he
  obtain ⟨r',node',record',other',hnear',hrecord',hother',rfl⟩ := greedy_edges h' he'
  have hnode : node = node' := by
    rw [← hkeys node record hrecord, ← hkeys node' record' hrecord']
    exact hkey
  subst hnode
  rw [hrecord] at hrecord'
  cases hrecord'
  have hr := Nearest.unique hnear hnear'
  rw [show r = r' by omega, hother'] at hother
  cases hother
  rfl

end Nearest

end Adg.MembershipRoutes
