import Mathlib

/-!
# Sorting by a key

Sorting is stable, so it commutes with dropping elements; and when no key
repeats, a list in order is what sorting any arrangement of it gives.
-/

set_option autoImplicit false

namespace Adg.SortedLists

section ByKey
variable {α κ : Type*} [LinearOrder κ] (key : α → κ)

/-- The elements by their keys, those with one key in the order they came. -/
def sortedBy (l : List α) : List α := l.insertionSort fun a b => key a ≤ key b

theorem sortedBy_perm (l : List α) : (sortedBy key l).Perm l := List.perm_insertionSort _ l

@[simp] theorem mem_sortedBy {l : List α} {a : α} : a ∈ sortedBy key l ↔ a ∈ l :=
  List.mem_insertionSort _

@[simp] theorem sortedBy_length (l : List α) : (sortedBy key l).length = l.length :=
  List.length_insertionSort _ l

theorem sortedBy_ordered (l : List α) : (sortedBy key l).Pairwise fun a b => key a ≤ key b := by
  have htotal : Std.Total fun a b : α => key a ≤ key b := ⟨fun a b => le_total (key a) (key b)⟩
  have htrans : IsTrans α fun a b => key a ≤ key b := ⟨fun _ _ _ hab hbc => hab.trans hbc⟩
  exact List.pairwise_insertionSort _ l

/-- Different keys stand in strict order. -/
theorem sortedBy_strict {α κ : Type*} [LinearOrder κ] {key : α → κ} {l : List α}
    (h : (l.map key).Nodup) : (sortedBy key l).Pairwise fun a b => key a < key b := by
  have hnodup := ((sortedBy_perm key l).map key).nodup_iff.mpr h
  apply ((sortedBy_ordered key l).and (List.pairwise_map.mp hnodup)).imp
  intro a b hab
  exact lt_of_le_of_ne hab.1 hab.2

/-- A list in strict order is found again from any arrangement of it. -/
theorem sortedBy_eq_of_perm {l m : List α} (hp : m.Perm l)
    (hl : l.Pairwise fun a b => key a < key b) : sortedBy key m = l := by
  have hinj : ∀ a b, a ∈ l → b ∈ l → key a = key b → a = b := by
    have hne : l.Pairwise fun a b => key a ≠ key b := hl.imp fun h => h.ne
    have hsymm : Std.Symm fun a b : α => key a ≠ key b := ⟨fun _ _ h => h.symm⟩
    intro a b ha hb h
    by_contra hab
    exact hne.forall ha hb hab h
  refine List.Perm.eq_of_pairwise ?_ (sortedBy_ordered key m) (hl.imp fun h => h.le)
    ((sortedBy_perm key m).trans hp)
  intro a b ha hb hab hba
  have ha : a ∈ l := hp.mem_iff.mp ((mem_sortedBy key).mp ha)
  exact hinj a b ha hb (le_antisymm hab hba)

theorem orderedInsert_front {a : α} {l : List α} (h : ∀ b ∈ l, key a ≤ key b) :
    l.orderedInsert (fun a b => key a ≤ key b) a = a :: l := by
  cases l with
  | nil => rfl
  | cons b l => exact List.orderedInsert_cons_of_le _ _ (h b List.mem_cons_self)

theorem orderedInsert_filter (p : α → Bool) (a : α) {l : List α}
    (hl : l.Pairwise fun a b => key a ≤ key b) :
    (l.orderedInsert (fun a b => key a ≤ key b) a).filter p =
      if p a then (l.filter p).orderedInsert (fun a b => key a ≤ key b) a else l.filter p := by
  induction l with
  | nil => by_cases ha : p a = true <;> simp [ha]
  | cons b l ih =>
    obtain ⟨hb,hl⟩ := List.pairwise_cons.mp hl
    rw [List.orderedInsert_cons]
    by_cases hab : key a ≤ key b
    · rw [if_pos hab, List.filter_cons]
      split_ifs with ha
      · refine (orderedInsert_front key fun c hc => ?_).symm
        rcases List.mem_cons.mp (List.mem_filter.mp hc).1 with rfl | hc
        · exact hab
        · exact hab.trans (hb c hc)
      · rfl
    · rw [if_neg hab, List.filter_cons, List.filter_cons, ih hl]
      by_cases hpb : p b = true
      · by_cases ha : p a = true <;> simp [hpb, ha, hab]
      · by_cases ha : p a = true <;> simp [hpb, ha]

/-- Sorting is stable: what is dropped first leaves the rest as it would stand. -/
theorem sortedBy_filter (p : α → Bool) (l : List α) :
    (sortedBy key l).filter p = sortedBy key (l.filter p) := by
  induction l with
  | nil => rfl
  | cons a l ih =>
    have hcons : sortedBy key (a :: l) =
        (sortedBy key l).orderedInsert (fun a b => key a ≤ key b) a := rfl
    rw [hcons, orderedInsert_filter key p a (sortedBy_ordered key l), ih]
    by_cases ha : p a = true
    · rw [if_pos ha, List.filter_cons_of_pos ha]
      rfl
    · rw [if_neg ha, List.filter_cons_of_neg ha]

/-- Sorting commutes with what keeps the keys. -/
theorem sortedBy_map {β : Type*} {f : α → β} {k : β → κ} (h : ∀ a, k (f a) = key a)
    (l : List α) : (sortedBy key l).map f = sortedBy k (l.map f) := by
  induction l with
  | nil => rfl
  | cons a l ih =>
    have hinsert : ∀ m : List α, (m.orderedInsert (fun a b => key a ≤ key b) a).map f =
        (m.map f).orderedInsert (fun a b => k a ≤ k b) (f a) := by
      intro m
      induction m with
      | nil => rfl
      | cons b m ihm =>
        rw [List.orderedInsert_cons, List.map_cons, List.orderedInsert_cons, h, h]
        split_ifs
        · rfl
        · rw [List.map_cons, ihm]
    have hcons : sortedBy key (a :: l) =
        (sortedBy key l).orderedInsert (fun a b => key a ≤ key b) a := rfl
    rw [hcons, hinsert, ih]
    rfl

section Prefixes
variable {key} {l : List α} (hl : l.Pairwise fun a b => key a < key b)
include hl

/-- What lies up to a bound stands before the last element of a prefix that reaches it. -/
theorem take_filter_le {n : ℕ} {x : α} (hx : (l.take n).getLast? = some x) {b : κ}
    (hb : b ≤ key x) : (l.take n).filter (key · ≤ b) = l.filter (key · ≤ b) := by
  have hmem := List.mem_of_getLast? hx
  have hdrop : (l.drop n).filter (key · ≤ b) = [] := by
    refine List.filter_eq_nil_iff.mpr fun a ha => ?_
    have hsplit : (l.take n ++ l.drop n).Pairwise fun a b => key a < key b := by
      rwa [List.take_append_drop]
    have := (List.pairwise_append.mp hsplit).2.2 x hmem a ha
    simpa using hb.trans_lt this
  rw [← List.take_append_drop n l, List.filter_append, List.take_append_drop, hdrop,
    List.append_nil]

/-- A bound is reached by the first `n` elements exactly when fewer than `n` lie before it. -/
theorem le_last_iff {n : ℕ} {x : α} (hx : (l.take n).getLast? = some x) (hn : n ≤ l.length)
    {b : κ} : b ≤ key x ↔ (l.filter (key · < b)).length < n := by
  obtain ⟨before,hbefore⟩ := List.getLast?_eq_some_iff.mp hx
  have hlength : before.length+1 = n := by
    have := congrArg List.length hbefore
    rw [List.length_take, Nat.min_eq_left hn, List.length_append, List.length_singleton] at this
    exact this.symm
  have hsplit : l = before ++ x :: l.drop n := by
    conv_lhs => rw [← List.take_append_drop n l, hbefore]
    simp
  rw [hsplit] at hl
  obtain ⟨-,htail,hcross⟩ := List.pairwise_append.mp hl
  rw [hsplit, List.filter_append, List.length_append]
  constructor
  · intro hb
    have hrest : (x :: l.drop n).filter (key · < b) = [] := by
      refine List.filter_eq_nil_iff.mpr fun a ha => ?_
      rcases List.mem_cons.mp ha with rfl | ha
      · simpa using hb
      · simpa using hb.trans ((List.pairwise_cons.mp htail).1 a ha).le
    rw [hrest, List.length_nil]
    have := List.length_filter_le (key · < b) before
    omega
  · intro h
    by_contra hb
    have hb : key x < b := not_le.mp hb
    have hall : before.filter (key · < b) = before := by
      refine List.filter_eq_self.mpr fun a ha => ?_
      simpa using (hcross a ha x (by simp)).trans hb
    rw [hall, List.filter_cons_of_pos (by simpa using hb), List.length_cons] at h
    omega

end Prefixes

/-- Looking every name up in a keyed list gives the list back, in the order of the names. -/
theorem filterMap_find {ι : Type*} [LinearOrder ι] {name : α → ι} {names : List ι}
    {l : List α} (hnames : names.Pairwise (· < ·)) (hl : l.Pairwise fun a b => name a < name b)
    (hall : ∀ a ∈ l, name a ∈ names) :
    names.filterMap (fun i => l.find? fun a => name a = i) = l := by
  have hfound : ∀ {i a}, l.find? (fun a => name a = i) = some a → name a = i := by
    intro i a h
    simpa using List.find?_some h
  have hordered : (names.filterMap fun i => l.find? fun a => name a = i).Pairwise
      fun a b => name a < name b := by
    refine List.Pairwise.filterMap _ (fun i j hij a ha b hb => ?_) hnames
    rwa [hfound ha, hfound hb]
  have hirrefl : Std.Irrefl fun a b : α => name a < name b := ⟨fun a => lt_irrefl (name a)⟩
  have hasymm : Std.Antisymm fun a b : α => name a < name b := ⟨fun _ _ h k => (h.not_gt k).elim⟩
  refine List.Pairwise.eq_of_mem_iff hordered hl fun a => ?_
  rw [List.mem_filterMap]
  constructor
  · rintro ⟨i,-,hi⟩
    exact List.mem_of_find?_eq_some hi
  · intro ha
    refine ⟨name a,hall a ha,?_⟩
    have hsome : (l.find? fun b => name b = name a).isSome :=
      List.find?_isSome.mpr ⟨a,ha,by simp⟩
    obtain ⟨b,hb⟩ := Option.isSome_iff_exists.mp hsome
    have hname : name b = name a := hfound hb
    have hmem := List.mem_of_find?_eq_some hb
    rw [hb]
    by_contra hne
    have hinj : l.Pairwise fun a b => name a ≠ name b := hl.imp fun h => h.ne
    have hsymm : Std.Symm fun a b : α => name a ≠ name b := ⟨fun _ _ h => h.symm⟩
    exact hinj.forall hmem ha (fun h => hne (congrArg some h)) hname

end ByKey

section Answers
variable {α κ β : Type*} [BEq κ] [LawfulBEq κ] (key : α → κ) (p : α → Bool) (f : α → β)

theorem lookup_answers_none {l : List α} {k : κ} (h : k ∉ l.map key) :
    ((l.filter p).map fun c => (key c,f c)).lookup k = none := by
  refine List.lookup_eq_none_iff.mpr fun e he => ?_
  obtain ⟨c,hc,rfl⟩ := List.mem_map.mp he
  have hne : k ≠ key c := by
    rintro rfl
    exact h (List.mem_map_of_mem (List.mem_filter.mp hc).1)
  simpa using hne

/-- Where no key is repeated, a value is found under its key. -/
theorem lookup_keyed {l : List (κ × β)} (h : (l.map (·.1)).Nodup) {k : κ} {v : β} :
    l.lookup k = some v ↔ (k,v) ∈ l := by
  have hfound : ∀ w, l.lookup k = some w → (k,w) ∈ l := by
    intro w hw
    obtain ⟨before,after,rfl,-⟩ := List.lookup_eq_some_iff.mp hw
    exact List.mem_append_right _ List.mem_cons_self
  constructor
  · exact hfound v
  · intro hv
    cases hl : l.lookup k with
    | none =>
      have hne := List.lookup_eq_none_iff.mp hl _ hv
      simp at hne
    | some w => rw [(Prod.mk.inj (List.inj_on_of_nodup_map h hv (hfound w hl) rfl)).2]

/-- Answers that are stored under the keys of the asked, read back one by one. -/
theorem lookup_answers {l : List α} (hn : (l.map key).Nodup) {a : α} (ha : a ∈ l) :
    ((l.filter p).map fun c => (key c,f c)).lookup (key a) = if p a then some (f a) else none := by
  induction l with
  | nil => cases ha
  | cons c l ih =>
    obtain ⟨hc,hn⟩ := List.nodup_cons.mp hn
    rcases List.mem_cons.mp ha with rfl | ha
    · by_cases hp : p a = true
      · simp [hp]
      · rw [List.filter_cons_of_neg hp, lookup_answers_none key p f hc, if_neg hp]
    · have hne : key a ≠ key c := fun h => hc (h ▸ List.mem_map_of_mem ha)
      by_cases hp : p c = true
      · have hskip : (key a == key c) = false := beq_false_of_ne hne
        rw [List.filter_cons_of_pos hp, List.map_cons, List.lookup_cons, hskip]
        exact ih hn ha
      · rw [List.filter_cons_of_neg hp]
        exact ih hn ha

end Answers

/-! ### Order by two numberings -/

section Orders
variable {α κ : Type*} {key : α → κ} {p q : α → ℤ} {l m : List α}

/-- What the keys determine agrees along lists of the same keys. -/
theorem map_eq_of_keys {β : Type*} {f : α → β} (hkeys : l.map key = m.map key)
    (hsame : ∀ a ∈ l, ∀ b ∈ m, key a = key b → f a = f b) : l.map f = m.map f := by
  induction l generalizing m with
  | nil => rw [List.map_eq_nil_iff.mp hkeys.symm]
  | cons a l ih =>
    cases m with
    | nil => cases hkeys
    | cons b m =>
      rw [List.map_cons, List.map_cons, List.cons.injEq] at hkeys
      rw [List.map_cons, List.map_cons, hsame a List.mem_cons_self b List.mem_cons_self hkeys.1,
        ih hkeys.2 fun a' ha' b' hb' =>
          hsame a' (List.mem_cons_of_mem a ha') b' (List.mem_cons_of_mem b hb')]

end Orders

end Adg.SortedLists
