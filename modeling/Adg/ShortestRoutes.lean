import Mathlib

/-!
# Routes that are met first

Over a graph that is given by ordered lists of neighbours, depth first search
meets every simple route in one order. Of the shortest routes to a goal the
one that is met first takes at every node the first neighbour that is one step
nearer, so two such routes never part at a node they share.
-/

set_option autoImplicit false

namespace Adg.ShortestRoutes

/-! ### The first of the best -/

section Best
variable {α κ : Type} [LinearOrder κ] (key : α → κ) (better : α → α → Prop) [DecidableRel better]

/-- A fold that keeps an element until a better one comes. -/
def firstBest (l : List α) : Option α :=
  l.foldl (fun best a =>
    match best with
    | none => some a
    | some b => if better a b then some a else some b) none

variable {key better} (hbetter : ∀ a b, better a b ↔ key b < key a)
include hbetter

theorem firstBest_snoc (l : List α) (a : α) :
    firstBest better (l ++ [a]) =
      (firstBest better l).elim (some a) fun b => if key b < key a then some a else some b := by
  unfold firstBest
  rw [List.foldl_append]
  simp only [List.foldl_cons, List.foldl_nil, hbetter]
  generalize l.foldl _ none = best
  cases best <;> rfl

theorem firstBest_none {l : List α} : firstBest better l = none ↔ l = [] := by
  induction l using List.reverseRecOn with
  | nil => exact iff_of_true rfl rfl
  | append_singleton l a ih =>
    rw [firstBest_snoc hbetter]
    cases firstBest better l with
    | none => simp
    | some b =>
      show (if key b < key a then some a else some b) = none ↔ _
      split_ifs <;> simp

/-- What is kept is the first element none is better than. -/
theorem firstBest_spec {l : List α} {c : α} (h : firstBest better l = some c) :
    ∃ before after, l = before ++ c :: after ∧ (∀ a ∈ before, key a < key c) ∧
      ∀ a ∈ after, key a ≤ key c := by
  induction l using List.reverseRecOn generalizing c with
  | nil => cases h
  | append_singleton l a ih =>
    rw [firstBest_snoc hbetter] at h
    cases hl : firstBest better l with
    | none =>
      rw [hl] at h
      cases h
      rw [(firstBest_none hbetter).mp hl]
      exact ⟨[],[],rfl,by simp,by simp⟩
    | some b =>
      obtain ⟨before,after,hsplit,hbefore,hafter⟩ := ih hl
      rw [hl] at h
      have hchoice : (if key b < key a then some a else some b) = some c := h
      split_ifs at hchoice with hlt
      · cases hchoice
        refine ⟨l,[],rfl,fun d hd => ?_,by simp⟩
        rw [hsplit] at hd
        rcases List.mem_append.mp hd with hd | hd
        · exact (hbefore d hd).trans hlt
        · rcases List.mem_cons.mp hd with rfl | hd
          · exact hlt
          · exact (hafter d hd).trans_lt hlt
      · cases hchoice
        refine ⟨before,after ++ [a],by rw [hsplit]; simp,hbefore,fun d hd => ?_⟩
        rcases List.mem_append.mp hd with hd | hd
        · exact hafter d hd
        · rw [List.mem_singleton.mp hd]
          exact not_lt.mp hlt

/-- It is the first with its key, and no key is greater. -/
theorem firstBest_find {l : List α} {c : α} (h : firstBest better l = some c) :
    l.find? (fun a => key a = key c) = some c ∧ ∀ a ∈ l, key a ≤ key c := by
  obtain ⟨before,after,rfl,hbefore,hafter⟩ := firstBest_spec hbetter h
  constructor
  · rw [List.find?_append, List.find?_eq_none.mpr, Option.none_or]
    · simp
    · intro a ha
      simpa using (hbefore a ha).ne
  · intro a ha
    rcases List.mem_append.mp ha with ha | ha
    · exact (hbefore a ha).le
    · rcases List.mem_cons.mp ha with rfl | ha
      · exact le_rfl
      · exact hafter a ha

end Best

/-- The first of some items that yields anything, where yielding is decided by a test. -/
theorem findSome_test {α β : Type} {l : List α} {f : α → Option β} {p : α → Bool} {g : α → β}
    (h : ∀ a ∈ l, f a = if p a then some (g a) else none) :
    l.findSome? f = (l.find? p).map g := by
  induction l with
  | nil => rfl
  | cons a l ih =>
    rw [List.findSome?_cons, h a List.mem_cons_self, List.find?_cons,
      ih fun b hb => h b (List.mem_cons_of_mem a hb)]
    cases p a <;> rfl

/-! ### Routes -/

section Graph
variable {α : Type} [DecidableEq α] (next : α → List α) (goal : α)

/-- Whether some walk of so many steps leads to the goal. -/
def reaches : ℕ → α → Bool
  | 0, v => v = goal
  | n+1, v => (next v).any (reaches n)

/-- The goal is so many steps away and no fewer. -/
def Nearest (d : ℕ) (v : α) : Prop :=
  reaches next goal d v = true ∧ ∀ k < d, reaches next goal k v = false

/-- At each node the first neighbour one step nearer to the goal. -/
def greedy : ℕ → α → List α
  | 0, _ => []
  | n+1, v =>
    match (next v).find? (reaches next goal n) with
    | none => []
    | some o => o :: greedy n o

/-- The steps of the simple routes of at most so many steps, in the order they are met. -/
def routes : ℕ → α → List α → List (List α)
  | 0, _, _ => []
  | n+1, v, visited =>
    (next v).flatMap fun o =>
      if o ∈ visited then [] else [o] :: (routes n o (visited ++ [o])).map (o :: ·)

variable {next goal}

theorem Nearest.unique {d e : ℕ} {v : α} (hd : Nearest next goal d v)
    (he : Nearest next goal e v) : d = e := by
  rcases lt_trichotomy d e with h | h | h
  · exact absurd hd.1 (by simp [he.2 d h])
  · exact h
  · exact absurd he.1 (by simp [hd.2 e h])

theorem reaches_step {n : ℕ} {v o : α} (ho : o ∈ next v) (h : reaches next goal n o = true) :
    reaches next goal (n+1) v = true :=
  List.any_eq_true.mpr ⟨o,ho,h⟩

/-- A neighbour from which the rest of a shortest walk leads on is one step nearer. -/
theorem Nearest.step {d : ℕ} {v o : α} (h : Nearest next goal (d+1) v) (ho : o ∈ next v)
    (hreach : reaches next goal d o = true) : Nearest next goal d o := by
  refine ⟨hreach,fun k hk => ?_⟩
  by_contra hshort
  have hv := reaches_step ho (by simpa using hshort : reaches next goal k o = true)
  rw [h.2 (k+1) (by omega)] at hv
  cases hv

/-- Where the goal is reached it is at some distance. -/
theorem nearest_of_reaches {n : ℕ} {v : α} (h : reaches next goal n v = true) :
    ∃ d ≤ n, Nearest next goal d v := by
  induction n using Nat.strong_induction_on with
  | _ n ih =>
    by_cases hshort : ∃ k < n, reaches next goal k v = true
    · obtain ⟨k,hk,hreach⟩ := hshort
      obtain ⟨d,hd,hnearest⟩ := ih k hk hreach
      exact ⟨d,by omega,hnearest⟩
    · exact ⟨n,le_rfl,h,fun k hk => by
        by_contra hk'
        exact hshort ⟨k,hk,by simpa using hk'⟩⟩

theorem Nearest.greedy_cons {d : ℕ} {v : α} (h : Nearest next goal (d+1) v) :
    ∃ o, (next v).find? (reaches next goal d) = some o ∧ Nearest next goal d o ∧
      greedy next goal (d+1) v = o :: greedy next goal d o := by
  have hsome : ((next v).find? (reaches next goal d)).isSome = true := by
    rw [List.find?_isSome]
    exact List.any_eq_true.mp h.1
  obtain ⟨o,ho⟩ := Option.isSome_iff_exists.mp hsome
  refine ⟨o,ho,h.step (List.mem_of_find?_eq_some ho) (List.find?_some ho),?_⟩
  rw [greedy, ho]

theorem greedy_length {d : ℕ} {v : α} (h : Nearest next goal d v) :
    (greedy next goal d v).length = d := by
  induction d generalizing v with
  | zero => rfl
  | succ d ih =>
    obtain ⟨o,-,hnearest,hcons⟩ := h.greedy_cons
    rw [hcons, List.length_cons, ih hnearest]

theorem routes_ne {n : ℕ} {v : α} {visited s : List α} (hs : s ∈ routes next n v visited) :
    s ≠ [] := by
  cases n with
  | zero => cases hs
  | succ n =>
    rw [routes, List.mem_flatMap] at hs
    obtain ⟨o,-,ho⟩ := hs
    rintro rfl
    split_ifs at ho
    · cases ho
    · simp at ho

/-- A route that ends at the goal is a walk to it. -/
theorem reaches_of_routes {n : ℕ} {v : α} {visited s : List α} (hs : s ∈ routes next n v visited)
    (hlast : s.getLast? = some goal) : reaches next goal s.length v = true := by
  induction n generalizing v visited s with
  | zero => cases hs
  | succ n ih =>
    rw [routes, List.mem_flatMap] at hs
    obtain ⟨o,ho,hs⟩ := hs
    split_ifs at hs with hvisited
    · cases hs
    · rcases List.mem_cons.mp hs with rfl | hs
      · have hgoal : o = goal := by simpa using hlast
        exact reaches_step ho (by simp [reaches, hgoal])
      · obtain ⟨rest,hrest,rfl⟩ := List.mem_map.mp hs
        obtain ⟨p,rest,rfl⟩ := List.exists_cons_of_ne_nil (routes_ne hrest)
        exact reaches_step ho (ih hrest (by simpa using hlast))

/-- Of the shortest routes to the goal the greedy one is met first. The nodes passed so far lie
farther from the goal than the node the search stands at. -/
theorem find_routes {d n : ℕ} {v : α} {visited : List α} (h : Nearest next goal (d+1) v)
    (hn : d+1 ≤ n) (hvisited : ∀ u ∈ visited, ∀ k ≤ d, reaches next goal k u = false) :
    (routes next n v visited).find? (fun s => s.length = d+1 && s.getLast? = some goal) =
      some (greedy next goal (d+1) v) := by
  induction d generalizing n v visited with
  | zero =>
    obtain ⟨n,rfl⟩ : ∃ m, n = m+1 := ⟨n-1,by omega⟩
    obtain ⟨o,ho,-,hgreedy⟩ := h.greedy_cons
    rw [routes, List.find?_flatMap, hgreedy]
    have hblock : ∀ p ∈ next v, ((if p ∈ visited then [] else
        [p] :: (routes next n p (visited ++ [p])).map (p :: ·)).find?
          fun s => s.length = 0+1 && s.getLast? = some goal) =
        if reaches next goal 0 p then some [p] else none := by
      intro p hp
      by_cases hgoal : p = goal
      · subst hgoal
        have hreach : reaches next p 0 p = true := by simp [reaches]
        have hout : p ∉ visited := by
          intro hin
          rw [hvisited p hin 0 le_rfl] at hreach
          cases hreach
        rw [if_neg hout, List.find?_cons_of_pos (by simp), if_pos hreach]
      · have hfar : reaches next goal 0 p = false := by simp [reaches, hgoal]
        rw [hfar]
        apply List.find?_eq_none.mpr
        intro s hs
        split_ifs at hs
        · cases hs
        · rcases List.mem_cons.mp hs with rfl | hs
          · simpa using hgoal
          · obtain ⟨rest,hrest,rfl⟩ := List.mem_map.mp hs
            have hne := routes_ne hrest
            simp [hne]
    rw [findSome_test hblock, ho]
    rfl
  | succ d ih =>
    obtain ⟨n,rfl⟩ : ∃ m, n = m+1 := ⟨n-1,by omega⟩
    obtain ⟨o,ho,-,hgreedy⟩ := h.greedy_cons
    rw [routes, List.find?_flatMap, hgreedy]
    have hblock : ∀ p ∈ next v, ((if p ∈ visited then [] else
        [p] :: (routes next n p (visited ++ [p])).map (p :: ·)).find?
          fun s => s.length = d+1+1 && s.getLast? = some goal) =
        if reaches next goal (d+1) p then some (p :: greedy next goal (d+1) p) else none := by
      intro p hp
      by_cases hreach : reaches next goal (d+1) p = true
      · have hnearest := h.step hp hreach
        have hout : p ∉ visited := by
          intro hin
          rw [hvisited p hin (d+1) le_rfl] at hreach
          cases hreach
        have hpassed : ∀ u ∈ visited ++ [p], ∀ k ≤ d, reaches next goal k u = false := by
          intro u hu k hk
          rcases List.mem_append.mp hu with hu | hu
          · exact hvisited u hu k (by omega)
          · rw [List.mem_singleton.mp hu]
            exact hnearest.2 k (by omega)
        have hfound := ih hnearest (by omega : d+1 ≤ n) hpassed
        have hsame : (fun s : List α =>
            decide (s.length = d+1+1) && decide (s.getLast? = some goal)) ∘ (p :: ·) =
            fun s => decide (s.length = d+1) && decide (s.getLast? = some goal) := by
          funext s
          cases s with
          | nil => simp
          | cons q s => simp
        rw [if_neg hout, if_pos hreach, List.find?_cons_of_neg (by simp), List.find?_map, hsame,
          hfound]
        rfl
      · rw [if_neg hreach]
        apply List.find?_eq_none.mpr
        intro s hs
        split_ifs at hs
        · cases hs
        · rcases List.mem_cons.mp hs with rfl | hs
          · simp
          · obtain ⟨rest,hrest,rfl⟩ := List.mem_map.mp hs
            intro htest
            simp only [List.length_cons, Bool.and_eq_true, decide_eq_true_eq] at htest
            obtain ⟨q,rest',rfl⟩ := List.exists_cons_of_ne_nil (routes_ne hrest)
            have hlast : (q :: rest').getLast? = some goal := by simpa using htest.2
            have hwalk := reaches_of_routes hrest hlast
            rw [show (q :: rest').length = d+1 by simp at htest ⊢; omega] at hwalk
            exact hreach hwalk
    rw [findSome_test hblock, ho]
    rfl

end Graph

end Adg.ShortestRoutes
