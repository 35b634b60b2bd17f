import Mathlib
import Adg.Loop

/-!
# Reachability by counted hops

Reaching a point in a given number of hops, least numbers of hops, and the
two ways a breadth-first search uses them: the layers it has completed, and
a set that is closed once no layer is left. At the end, the plain worklist
that computes everything reachable in at least one hop.
-/

set_option autoImplicit false

namespace Adg.Reachability
open Relation Adg.Loop

section Hops
variable {α : Type*} (r : α → α → Prop)

/-- `y` is reached from `x` in exactly `n` hops. -/
def Hops : ℕ → α → α → Prop
  | 0, x, y => x = y
  | n+1, x, y => ∃ z, Hops n x z ∧ r z y

/-- The least number of hops. -/
def Shortest (n : ℕ) (x y : α) : Prop := Hops r n x y ∧ ∀ m, Hops r m x y → n ≤ m

variable {r}

theorem Hops.reaches {n : ℕ} {x y : α} (h : Hops r n x y) : ReflTransGen r x y := by
  induction n generalizing y with
  | zero => exact h ▸ .refl
  | succ n ih =>
    obtain ⟨z,hz,hr⟩ := h
    exact (ih hz).tail hr

theorem hops_of_reaches {x y : α} (h : ReflTransGen r x y) : ∃ n, Hops r n x y := by
  induction h with
  | refl => exact ⟨0,rfl⟩
  | tail _ hr ih =>
    obtain ⟨n,hn⟩ := ih
    exact ⟨n+1,_,hn,hr⟩

/-- A set that holds the root and is closed under the relation holds
everything reachable. -/
theorem closed_reaches {P : α → Prop} {x : α} (hx : P x) (hclosed : ∀ u, P u → ∀ v, r u v → P v)
    {y : α} (h : ReflTransGen r x y) : P y := by
  induction h with
  | refl => exact hx
  | tail _ hr ih => exact hclosed _ ih _ hr

/-- Everything within `n` hops is known. -/
def Covered (r : α → α → Prop) (x : α) (P : α → Prop) (n : ℕ) : Prop :=
  ∀ m, m ≤ n → ∀ y, Hops r m x y → P y

theorem covered_zero {P : α → Prop} {x : α} (hx : P x) : Covered r x P 0 := by
  intro m hm y hy
  rw [Nat.le_zero.mp hm] at hy
  exact hy ▸ hx

theorem Covered.mono {P Q : α → Prop} {x : α} {n : ℕ} (h : Covered r x P n)
    (hpq : ∀ y, P y → Q y) : Covered r x Q n :=
  fun m hm y hy => hpq y (h m hm y hy)

/-- One more layer: what the covered points lead to has become known. -/
theorem Covered.succ {P : α → Prop} {x : α} {n : ℕ} (h : Covered r x P n)
    (hnext : ∀ u, Hops r n x u → ∀ v, r u v → P v) : Covered r x P (n+1) := by
  intro m hm y hy
  rcases Nat.lt_or_ge m (n+1) with hlt | hge
  · exact h m (by omega) y hy
  · have he : m = n+1 := by omega
    subst he
    obtain ⟨z,hz,hr⟩ := hy
    exact hnext z hz y hr

/-- Found one layer after everything nearer was known: a shortest distance. -/
theorem shortest_of_fresh {P : α → Prop} {x y : α} {n : ℕ} (h : Covered r x P n) (hy : ¬ P y)
    (hn : Hops r (n+1) x y) : Shortest r (n+1) x y := by
  refine ⟨hn,fun m hm => ?_⟩
  by_contra hlt
  exact hy (h m (by omega) y hm)

theorem Hops.head {n : ℕ} {x y z : α} (hr : r x z) (h : Hops r n z y) : Hops r (n+1) x y := by
  induction n generalizing y with
  | zero => exact ⟨x,rfl,h ▸ hr⟩
  | succ n ih =>
    obtain ⟨u,hu,hlast⟩ := h
    exact ⟨u,ih hu,hlast⟩

/-- A chain of `n` hops, written as the list of the points it passes. -/
theorem hops_of_chain {x y : α} {l : List α} (h : (x :: l).IsChain r)
    (hlast : (x :: l).getLast? = some y) : Hops r l.length x y := by
  induction l generalizing x with
  | nil => exact Option.some.inj hlast
  | cons z l ih =>
    rw [List.isChain_cons_cons] at h
    rw [List.getLast?_cons_cons] at hlast
    exact Hops.head h.1 (ih h.2 hlast)

/-- The least number of hops, where there is any way. -/
noncomputable def distance (r : α → α → Prop) (x y : α) : ℕ := sInf {n | Hops r n x y}

theorem hops_distance {x y : α} (h : ReflTransGen r x y) : Hops r (distance r x y) x y :=
  Nat.sInf_mem (hops_of_reaches h)

theorem distance_le {n : ℕ} {x y : α} (h : Hops r n x y) : distance r x y ≤ n := Nat.sInf_le h

theorem distance_self (x : α) : distance r x x = 0 := Nat.le_zero.mp (distance_le rfl)

theorem eq_of_distance {x y : α} (h : ReflTransGen r x y) (hzero : distance r x y = 0) : x = y := by
  have hhops := hops_distance h
  rwa [hzero] at hhops

theorem distance_step {x y z : α} (h : ReflTransGen r x y) (hr : r y z) :
    distance r x z ≤ distance r x y+1 :=
  distance_le ⟨y,hops_distance h,hr⟩

/-- A shortest way passes a point one hop nearer. -/
theorem distance_prior {n : ℕ} {x z : α} (h : ReflTransGen r x z) (hn : distance r x z = n+1) :
    ∃ y, ReflTransGen r x y ∧ r y z ∧ distance r x y = n := by
  have hhops := hops_distance h
  rw [hn] at hhops
  obtain ⟨y,hy,hr⟩ := hhops
  have hreach := hy.reaches
  have hle := distance_le hy
  have hstep := distance_step hreach hr
  exact ⟨y,hreach,hr,by omega⟩

end Hops

section Worklist
variable {α : Type*} [DecidableEq α]

/-- What has been seen, and what is still to be expanded. -/
structure Worklist (α : Type*) where
  seen : List α := []
  frontier : List α

namespace Worklist

def push (s : Worklist α) (y : α) : Worklist α :=
  if y ∈ s.seen then s else { seen := s.seen ++ [y], frontier := y :: s.frontier }

theorem mem_push {s : Worklist α} {y z : α} : z ∈ (s.push y).seen ↔ z ∈ s.seen ∨ z = y := by
  unfold push
  split
  · next h =>
    constructor
    · exact .inl
    · rintro (hz | rfl)
      · exact hz
      · exact h
  · rw [List.mem_append, List.mem_singleton]

theorem mem_pushAll {ys : List α} {s : Worklist α} {z : α} :
    z ∈ (ys.foldl push s).seen ↔ z ∈ s.seen ∨ z ∈ ys := by
  induction ys generalizing s with
  | nil => simp
  | cons y ys ih => rw [List.foldl_cons, ih, mem_push, List.mem_cons, or_assoc]

theorem pushAll_keeps {ys : List α} {s : Worklist α} {z : α} (h : z ∈ s.frontier) :
    z ∈ (ys.foldl push s).frontier := by
  induction ys generalizing s with
  | nil => exact h
  | cons y ys ih =>
    refine ih ?_
    unfold push
    split
    · exact h
    · exact List.mem_cons_of_mem _ h

/-- What a push newly sees joins the frontier. -/
theorem frontier_pushAll {ys : List α} {s : Worklist α} {z : α}
    (h : z ∈ (ys.foldl push s).seen) : z ∈ s.seen ∨ z ∈ (ys.foldl push s).frontier := by
  induction ys generalizing s with
  | nil => exact .inl h
  | cons y ys ih =>
    rcases ih h with hin | hin
    · by_cases hs : z ∈ s.seen
      · exact .inl hs
      · have hzy : z = y := (mem_push.mp hin).resolve_left hs
        right
        rw [List.foldl_cons]
        refine pushAll_keeps ?_
        rw [hzy] at hs ⊢
        unfold push
        rw [if_neg hs]
        exact List.mem_cons_self
    · exact .inr hin

theorem pushAll_frontier {ys : List α} {s : Worklist α} {z : α}
    (h : z ∈ (ys.foldl push s).frontier) : z ∈ s.frontier ∨ z ∈ (ys.foldl push s).seen := by
  induction ys generalizing s with
  | nil => exact .inl h
  | cons y ys ih =>
    rcases ih h with hin | hin
    · unfold push at hin
      split at hin
      · exact .inl hin
      · rcases List.mem_cons.mp hin with rfl | hin
        · rw [mem_pushAll]
          exact .inr (.inr List.mem_cons_self)
        · exact .inl hin
    · exact .inr hin

/-- What is left to do: the points not seen yet, and the frontier. -/
def pending (V : List α) (s : Worklist α) : ℕ :=
  (V.filter (· ∉ s.seen)).length + s.frontier.length

theorem push_pending {V : List α} {s : Worklist α} {y : α} (hy : y ∈ V) :
    (s.push y).pending V ≤ s.pending V := by
  unfold push
  split
  · exact le_rfl
  · next h =>
    have hsub : ((V.filter (· ∉ s.seen)).filter (· ≠ y)).length < (V.filter (· ∉ s.seen)).length :=
      List.length_filter_lt_length_iff_exists.mpr ⟨y,by simp [hy, h],by simp⟩
    rw [List.filter_filter] at hsub
    have heq : V.filter (· ∉ s.seen ++ [y]) = V.filter (fun z => z ≠ y && z ∉ s.seen) := by
      apply List.filter_congr
      intro z _
      simp [not_or, and_comm]
    simp only [pending, heq, List.length_cons]
    omega

theorem pushAll_pending {V ys : List α} {s : Worklist α} (hy : ∀ y ∈ ys, y ∈ V) :
    (ys.foldl push s).pending V ≤ s.pending V := by
  induction ys generalizing s with
  | nil => exact le_rfl
  | cons y ys ih =>
    exact (ih fun z hz => hy z (List.mem_cons_of_mem _ hz)).trans
      (push_pending (hy y List.mem_cons_self))

end Worklist

variable (next : α → List α)

def worklistStep (s : Worklist α) : Option (Worklist α) :=
  match s.frontier with
  | [] => none
  | x :: rest => some ((next x).foldl Worklist.push { s with frontier := rest })

/-- Everything the worklist sees from a start, within the fuel. -/
def reachedFrom (fuel : ℕ) (x : α) : List α :=
  (iterate (worklistStep next) fuel { frontier := [x] }).seen

/-- Seen points are reached, and are expanded or waiting to be. -/
structure Explores (x : α) (s : Worklist α) : Prop where
  reached : ∀ y ∈ s.seen, TransGen (fun u v => v ∈ next u) x y
  waiting : ∀ y ∈ s.frontier, y = x ∨ y ∈ s.seen
  expanded : ∀ y, y = x ∨ y ∈ s.seen → y ∈ s.frontier ∨ ∀ z ∈ next y, z ∈ s.seen

variable {next}

theorem worklistStep_explores {x : α} {s s' : Worklist α} (h : Explores next x s)
    (hs : worklistStep next s = some s') : Explores next x s' := by
  unfold worklistStep at hs
  split at hs
  · cases hs
  · next y rest hf =>
    cases hs
    have hy := h.waiting y (by simp [hf])
    have hseen {z : α} : z ∈ ((next y).foldl Worklist.push { s with frontier := rest }).seen ↔
        z ∈ s.seen ∨ z ∈ next y := Worklist.mem_pushAll
    refine ⟨fun z hz => ?_,fun z hz => ?_,fun z hz => ?_⟩
    · rcases hseen.mp hz with hz | hz
      · exact h.reached z hz
      · rcases hy with rfl | hy
        · exact .single hz
        · exact (h.reached y hy).tail hz
    · rcases Worklist.pushAll_frontier hz with hz | hz
      · rcases h.waiting z (by rw [hf]; exact List.mem_cons_of_mem _ hz) with rfl | hz
        · exact .inl rfl
        · exact .inr (hseen.mpr (.inl hz))
      · exact .inr hz
    · have hold : z = x ∨ z ∈ s.seen →
          z ∈ ((next y).foldl Worklist.push { s with frontier := rest }).frontier ∨
            ∀ v ∈ next z, v ∈ ((next y).foldl Worklist.push { s with frontier := rest }).seen := by
        intro hzold
        rcases h.expanded z hzold with hin | hin
        · rw [hf] at hin
          rcases List.mem_cons.mp hin with rfl | hin
          · exact .inr fun v hv => hseen.mpr (.inr hv)
          · exact .inl (Worklist.pushAll_keeps hin)
        · exact .inr fun v hv => hseen.mpr (.inl (hin v hv))
      rcases hz with rfl | hz
      · exact hold (.inl rfl)
      · rcases Worklist.frontier_pushAll hz with hin | hin
        · exact hold (.inr hin)
        · exact .inl hin

theorem worklistStep_pending {V : List α} (hV : ∀ x, ∀ y ∈ next x, y ∈ V) {s s' : Worklist α}
    (hs : worklistStep next s = some s') : s'.pending V < s.pending V := by
  unfold worklistStep at hs
  split at hs
  · cases hs
  · next y rest hf =>
    cases hs
    refine (Worklist.pushAll_pending (hV y)).trans_lt ?_
    simp [Worklist.pending, hf]

theorem worklist_finished {s : Worklist α} (h : Finished (worklistStep next) s) :
    s.frontier = [] := by
  unfold Finished worklistStep at h
  split at h
  · next hempty => exact hempty
  · cases h

/-- With enough fuel the worklist computes reachability in at least one hop. -/
theorem mem_reachedFrom {V : List α} (hV : ∀ x, ∀ y ∈ next x, y ∈ V) {fuel : ℕ}
    (hfuel : V.length < fuel) (x y : α) :
    y ∈ reachedFrom next fuel x ↔ TransGen (fun u v => v ∈ next u) x y := by
  have hstart : Explores next x { frontier := [x] } := by
    refine ⟨by simp,fun z hz => .inl (List.mem_singleton.mp hz),fun z hz => .inl ?_⟩
    simpa using hz
  have hpending : Worklist.pending V { frontier := [x] } ≤ fuel := by
    have := List.length_filter_le (fun z => decide (z ∉ ([] : List α))) V
    simp only [Worklist.pending, List.length_singleton]
    omega
  have hdone : Finished (worklistStep next) (iterate (worklistStep next) fuel { frontier := [x] }) :=
    iterate_ends (I := fun _ => True) (Worklist.pending V) (fun _ _ _ _ => trivial)
      (fun _ _ _ hs => worklistStep_pending hV hs) trivial hpending
  have hinv : Explores next x (iterate (worklistStep next) fuel { frontier := [x] }) :=
    iterate_invariant (fun _ _ h hs => worklistStep_explores h hs) fuel hstart
  have hclosed (z : α) (hz : z = x ∨ z ∈ reachedFrom next fuel x) :
      ∀ v ∈ next z, v ∈ reachedFrom next fuel x := by
    refine (hinv.expanded z hz).resolve_left fun hin => ?_
    rw [(worklist_finished hdone)] at hin
    cases hin
  constructor
  · exact hinv.reached y
  · intro h
    induction h with
    | single hr => exact hclosed x (.inl rfl) _ hr
    | tail _ hr ih => exact hclosed _ (.inr ih) _ hr

end Worklist

end Adg.Reachability
