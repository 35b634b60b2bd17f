import Mathlib

/-!
# Rows that follow one another

Rows of a table that each name the row they follow make a list with one root.
The order of the list is read back from the rows in whatever order they come, by
walking from the root to the row that follows, until none does.
-/

set_option autoImplicit false

namespace Adg.LinkedRows

variable {α κ : Type} [DecidableEq κ] (key : α → κ) (prior : α → Option κ)

/-- Every row follows the one before it, and the first follows `p`. -/
def Linked : Option κ → List α → Prop
  | _, [] => True
  | p, a :: rest => prior a = p ∧ Linked (some (key a)) rest

/-- The row that a dictionary by the row followed holds: the last one given. -/
def successor (rows : List α) (k : κ) : Option α := rows.reverse.find? fun a => prior a = some k

/-- The walk from a row along the rows that follow, past none it has seen. -/
def follow (rows : List α) : ℕ → List κ → Option α → List α
  | 0, _, _ => []
  | _+1, _, none => []
  | n+1, seen, some a =>
    if key a ∈ seen then []
    else a :: follow rows n (key a :: seen) (successor prior rows (key a))

/-- The walks from all roots, one after the other. -/
def followAll (rows : List α) (roots : List α) : List α :=
  roots.foldl (fun ordered root =>
    ordered ++ follow key prior rows rows.length (ordered.map key) (some root)) []

/-- The rows in the order of the walks. Those that no walk reached come last. -/
def inLinkOrder (rows : List α) : List α :=
  if rows.length < 2 then rows
  else
    let ordered := followAll key prior rows (rows.filter fun a => prior a = none)
    ordered ++ rows.filter fun a => key a ∉ ordered.map key

section Linking
variable {key prior} {p : Option κ} {l rows : List α} {a : α}

omit [DecidableEq κ] in
theorem linked_append_iff (l m : List α) : Linked key prior p (l ++ m) ↔
    Linked key prior p l ∧ Linked key prior ((l.getLast?.map key).or p) m := by
  induction l generalizing p with
  | nil => simp [Linked]
  | cons a rest ih =>
    rw [List.cons_append, Linked, Linked, ih, List.getLast?_cons, and_assoc]
    cases rest.getLast? <;> simp

omit [DecidableEq κ] in
/-- A row is the first of a list, or it follows one before the last. -/
theorem prior_of_mem (h : Linked key prior p l) {x : α} (hx : x ∈ l) :
    l.head? = some x ∧ prior x = p ∨ ∃ y ∈ l.dropLast, prior x = some (key y) := by
  induction l generalizing p with
  | nil => exact nomatch hx
  | cons a rest ih =>
    rcases List.mem_cons.mp hx with rfl | hrest
    · exact .inl ⟨rfl,h.1⟩
    · cases rest with
      | nil => exact nomatch hrest
      | cons b rest =>
        rcases ih h.2 hrest with ⟨-,hp⟩ | ⟨y,hy,hp⟩
        · exact .inr ⟨a,List.mem_cons_self,hp⟩
        · exact .inr ⟨y,List.mem_cons_of_mem _ hy,hp⟩

omit [DecidableEq κ] in
/-- In a list with one root the row after a row is the only one that follows it. -/
theorem follows_iff {before after : List α} (h : Linked key prior none (before ++ a :: after))
    (hkeys : ((before ++ a :: after).map key).Nodup) {x : α} (hx : x ∈ before ++ a :: after) :
    prior x = some (key a) ↔ after.head? = some x := by
  have hinj : ∀ y ∈ before ++ a :: after, ∀ z ∈ before ++ a :: after, key y = key z → y = z :=
    fun y hy z hz => List.inj_on_of_nodup_map hkeys hy hz
  have hself : a ∈ before ++ a :: after := by simp
  rw [List.map_append] at hkeys
  rw [linked_append_iff] at h
  constructor
  · intro hfollows
    rcases List.mem_append.mp hx with hbefore | hrest
    · rcases prior_of_mem h.1 hbefore with ⟨-,hp⟩ | ⟨y,hy,hp⟩
      · exact nomatch hp.symm.trans hfollows
      · have hsame := hinj y (by simp [List.mem_of_mem_dropLast hy]) a hself
          (Option.some.inj (hp.symm.trans hfollows))
        have hapart := (List.nodup_append.mp hkeys).2.2 (key y)
          (List.mem_map_of_mem (List.mem_of_mem_dropLast hy)) (key a) (by simp)
        exact absurd (congrArg key hsame) hapart
    · have hnodup := (List.nodup_append.mp hkeys).2.1
      rcases List.mem_cons.mp hrest with rfl | hafter
      · exfalso
        rcases hlast : before.getLast? with - | y
        · have := h.2.1
          rw [hlast] at this
          exact nomatch this.symm.trans hfollows
        · have hprior := h.2.1
          rw [hlast] at hprior
          have hy : y ∈ before := List.mem_of_getLast? hlast
          exact (List.nodup_append.mp hkeys).2.2 (key y) (List.mem_map_of_mem hy) (key x) (by simp)
            (Option.some.inj (hprior.symm.trans hfollows))
      · rcases prior_of_mem h.2.2 hafter with ⟨hhead,-⟩ | ⟨y,hy,hp⟩
        · exact hhead
        · exfalso
          have hy := List.mem_map_of_mem (f := key) (List.mem_of_mem_dropLast hy)
          rw [Option.some.inj (hp.symm.trans hfollows)] at hy
          exact (List.nodup_cons.mp hnodup).1 hy
  · intro hhead
    obtain ⟨rest,rfl⟩ : ∃ rest, after = x :: rest := by
      cases after with
      | nil => exact nomatch hhead
      | cons b rest => exact ⟨rest,by rw [Option.some.inj hhead]⟩
    exact h.2.2.1

theorem successor_eq {before after : List α} (h : Linked key prior none (before ++ a :: after))
    (hkeys : ((before ++ a :: after).map key).Nodup) (hrows : rows.Perm (before ++ a :: after)) :
    successor prior rows (key a) = after.head? := by
  have hmem : ∀ x, x ∈ rows.reverse ↔ x ∈ before ++ a :: after := fun x => by
    rw [List.mem_reverse, hrows.mem_iff]
  unfold successor
  cases hfind : rows.reverse.find? fun x => prior x = some (key a) with
  | some x =>
    have hp : prior x = some (key a) := by simpa using List.find?_some hfind
    exact ((follows_iff h hkeys ((hmem x).mp (List.mem_of_find?_eq_some hfind))).mp hp).symm
  | none =>
    cases after with
    | nil => rfl
    | cons b rest =>
      have hb := List.find?_eq_none.mp hfind b ((hmem b).mpr (by simp))
      have hp : prior b = some (key a) := (follows_iff h hkeys (by simp)).mpr rfl
      exact absurd (decide_eq_true hp) hb

/-- The walk from a row of the list goes to its end. -/
theorem follow_eq {before after : List α} {seen : List κ} {n : ℕ}
    (h : Linked key prior none (before ++ after)) (hkeys : ((before ++ after).map key).Nodup)
    (hrows : rows.Perm (before ++ after)) (hseen : ∀ k, k ∈ seen ↔ k ∈ before.map key)
    (hn : after.length ≤ n) : follow key prior rows n seen after.head? = after := by
  induction after generalizing before seen n with
  | nil => cases n <;> rfl
  | cons a rest ih =>
    cases n with
    | zero => simp at hn
    | succ n =>
      have hnew : key a ∉ seen := by
        intro hin
        exact (List.nodup_append.mp (List.map_append ▸ hkeys)).2.2 _ ((hseen _).mp hin) _
          (List.mem_map_of_mem List.mem_cons_self) rfl
      have hsplit : before ++ a :: rest = (before ++ [a]) ++ rest := by simp
      rw [List.head?_cons, follow, if_neg hnew, successor_eq h hkeys hrows]
      rw [hsplit] at h hkeys hrows
      congr 1
      apply ih h hkeys hrows
      · intro k
        rw [List.mem_cons, hseen, List.map_append, List.mem_append, or_comm]
        simp
      · simpa using hn

/-- The rows of a list with one root are read back in its order. -/
theorem inLinkOrder_eq (h : Linked key prior none l) (hkeys : (l.map key).Nodup)
    (hrows : rows.Perm l) : inLinkOrder key prior rows = l := by
  unfold inLinkOrder
  cases l with
  | nil =>
    rw [List.Perm.eq_nil hrows]
    rfl
  | cons a rest =>
    by_cases hfew : rows.length < 2
    · rw [if_pos hfew]
      cases rest with
      | nil => exact List.perm_singleton.mp hrows
      | cons b rest =>
        rw [hrows.length_eq] at hfew
        simp at hfew
    · rw [if_neg hfew]
      have hroots : (rows.filter fun x => prior x = none) = [a] := by
        have hroot : ((a :: rest).filter fun x => decide (prior x = none)) = [a] := by
          rw [List.filter_cons_of_pos (by simpa using h.1), List.filter_eq_nil_iff.mpr]
          intro x hx
          rcases prior_of_mem h.2 hx with ⟨-,hp⟩ | ⟨y,-,hp⟩ <;> simp [hp]
        exact List.perm_singleton.mp (hroot ▸ hrows.filter _)
      have hlinked : Linked key prior none ([] ++ (a :: rest)) := h
      have hwalk : follow key prior rows rows.length [] (some a) = a :: rest :=
        follow_eq hlinked hkeys hrows (by simp) hrows.length_eq.ge
      have hall : followAll key prior rows [a] = a :: rest := by
        simp only [followAll, List.foldl_cons, List.foldl_nil, List.map_nil, List.nil_append]
        exact hwalk
      have hreached : (rows.filter fun x => key x ∉ (a :: rest).map key) = [] := by
        rw [List.filter_eq_nil_iff]
        intro x hx
        simp only [decide_not, Bool.not_eq_true', decide_eq_false_iff_not, not_not]
        exact List.mem_map_of_mem (hrows.mem_iff.mp hx)
      simp only [hroots, hall, hreached, List.append_nil]

/-- A walk that may go on for as many steps as there are rows is not cut short. -/
theorem follow_enough {rows : List α} {n : ℕ} {seen : List κ} {start : Option α}
    (hstart : ∀ a ∈ start, a ∈ rows)
    (hn : (rows.filter fun a => key a ∉ seen).length ≤ n) :
    follow key prior rows (n+1) seen start = follow key prior rows n seen start := by
  induction n generalizing seen start with
  | zero =>
    cases start with
    | none => rfl
    | some a =>
      have hseen : key a ∈ seen := by
        by_contra hnew
        have hunseen : a ∈ rows.filter fun a => key a ∉ seen :=
          List.mem_filter.mpr ⟨hstart a rfl,by simpa using hnew⟩
        rw [List.length_eq_zero_iff.mp (Nat.le_zero.mp hn)] at hunseen
        exact nomatch hunseen
      show (if key a ∈ seen then [] else _) = []
      rw [if_pos hseen]
  | succ n ih =>
    cases start with
    | none => rfl
    | some a =>
      by_cases hseen : key a ∈ seen
      · rw [follow, if_pos hseen, follow, if_pos hseen]
      · rw [follow, if_neg hseen, follow, if_neg hseen, ih]
        · intro b hb
          exact List.mem_reverse.mp (List.mem_of_find?_eq_some hb)
        · have hfewer : (rows.filter fun b => key b ∉ key a :: seen).length <
              (rows.filter fun b => key b ∉ seen).length := by
            have hsplit : (rows.filter fun b => key b ∉ key a :: seen) =
                (rows.filter fun b => key b ∉ seen).filter fun b => key b ≠ key a := by
              rw [List.filter_filter]
              refine List.filter_congr fun b _ => ?_
              simp [not_or]
            rw [hsplit]
            apply List.length_filter_lt_length_iff_exists.mpr
            exact ⟨a,List.mem_filter.mpr ⟨hstart a rfl,by simpa using hseen⟩,by simp⟩
          omega

end Linking

end Adg.LinkedRows
