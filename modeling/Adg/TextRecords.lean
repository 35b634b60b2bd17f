import Mathlib

/-!
# Numerals and lines

Numerals of one width stand as text where their numbers stand. Lines that end
with a mark none of them holds can be read back from their concatenation.
-/

set_option autoImplicit false

namespace Adg.TextRecords

/-! ### Numerals of one width -/

section Numerals
variable {base : ℕ}

/-- A number in a base behind as many zeros as its width asks for. -/
def numeral (base width n : ℕ) : List Char :=
  List.replicate (width-(Nat.toDigits base n).length) '0' ++ Nat.toDigits base n

theorem numeral_length {width n : ℕ} (hb : 1 < base) (hw : 0 < width) (h : n < base^width) :
    (numeral base width n).length = width := by
  have := (Nat.length_toDigits_le_iff hb hw).mpr h
  simp only [numeral, List.length_append, List.length_replicate]
  omega

theorem numeral_one {n : ℕ} (h : n < base) : numeral base 1 n = [n.digitChar] := by
  rw [numeral, Nat.toDigits_of_lt_base h]
  rfl

/-- The last digit stands alone behind the numeral of the rest. -/
theorem numeral_succ {width : ℕ} (hb : 1 < base) (hw : 0 < width) (n : ℕ) :
    numeral base (width+1) n = numeral base width (n/base) ++ [(n%base).digitChar] := by
  by_cases h : base ≤ n
  · rw [numeral, numeral, Nat.toDigits_of_base_le hb h, List.length_append, List.length_singleton,
      Nat.add_sub_add_right, List.append_assoc]
  · have hlt : n < base := Nat.lt_of_not_le h
    rw [numeral, numeral, Nat.toDigits_of_lt_base hlt, Nat.div_eq_of_lt hlt, Nat.mod_eq_of_lt hlt,
      Nat.toDigits_zero, List.length_singleton, List.length_singleton, Nat.add_sub_cancel,
      ← List.replicate_succ', Nat.sub_add_cancel hw]

/-- Of two texts of one length the lesser stays so, whatever follows. -/
theorem append_lt_append {l m : List Char} (hlength : l.length = m.length) (h : l < m)
    (s t : List Char) : l ++ s < m ++ t := by
  induction l generalizing m with
  | nil =>
    have hm : m = [] := List.length_eq_zero_iff.mp hlength.symm
    rw [hm] at h
    exact absurd h (lt_irrefl _)
  | cons a l ih =>
    cases m with
    | nil => cases hlength
    | cons b m =>
      rw [List.cons_append, List.cons_append]
      rcases List.cons_lt_cons_iff.mp h with hab | ⟨rfl,hlm⟩
      · exact List.cons_lt_cons_iff.mpr (Or.inl hab)
      · exact List.cons_lt_cons_iff.mpr (Or.inr ⟨rfl,ih (Nat.succ.inj hlength) hlm⟩)

theorem digitChar_lt {m n : ℕ} (hmn : m < n) (hn : n < 16) : m.digitChar < n.digitChar := by
  have hall : ∀ n : Fin 16, ∀ m : Fin n, (m : ℕ).digitChar < (n : ℕ).digitChar := by decide
  exact hall ⟨n,hn⟩ ⟨m,hmn⟩

/-- Numerals of one width are ordered as their numbers are. -/
theorem numeral_lt {width m n : ℕ} (hb : 1 < base) (hbase : base ≤ 16) (hw : 0 < width)
    (hmn : m < n) (hn : n < base^width) : numeral base width m < numeral base width n := by
  induction width, hw using Nat.le_induction generalizing m n with
  | base =>
    rw [Nat.pow_one] at hn
    rw [numeral_one (hmn.trans hn), numeral_one hn]
    exact List.cons_lt_cons_iff.mpr (Or.inl (digitChar_lt hmn (hn.trans_le hbase)))
  | succ width hw ih =>
    rw [numeral_succ hb hw, numeral_succ hb hw]
    have hquotient : n/base < base^width := by
      apply Nat.div_lt_of_lt_mul
      rwa [Nat.pow_succ, Nat.mul_comm] at hn
    rcases Nat.lt_or_eq_of_le (Nat.div_le_div_right hmn.le : m/base ≤ n/base) with hlt | heq
    · apply append_lt_append _ (ih hlt hquotient)
      rw [numeral_length hb hw (hlt.trans hquotient), numeral_length hb hw hquotient]
    · rw [heq]
      apply List.append_left_lt
      apply List.cons_lt_cons_iff.mpr
      left
      apply digitChar_lt _ ((Nat.mod_lt n (by omega)).trans_le hbase)
      have hm := Nat.div_add_mod m base
      have hn := Nat.div_add_mod n base
      rw [heq] at hm
      omega

theorem numeral_injective {width m n : ℕ} (hb : 1 < base) (hbase : base ≤ 16) (hw : 0 < width)
    (hm : m < base^width) (hn : n < base^width) (h : numeral base width m = numeral base width n) :
    m = n := by
  rcases Nat.lt_trichotomy m n with hlt | heq | hlt
  · exact absurd h (numeral_lt hb hbase hw hlt hn).ne
  · exact heq
  · exact absurd h (numeral_lt hb hbase hw hlt hm).ne'

/-- The digits of a base up to sixteen. -/
theorem mem_numeral {width n : ℕ} (hb : 1 < base) (hbase : base ≤ 16) {c : Char}
    (hc : c ∈ numeral base width n) : ∃ d < 16, c = d.digitChar := by
  have hdigits : ∀ n, ∀ c ∈ Nat.toDigits base n, ∃ d < 16, c = d.digitChar := by
    intro n
    induction n using Nat.strongRecOn with
    | ind n ih =>
      intro c hc
      by_cases h : base ≤ n
      · rw [Nat.toDigits_of_base_le hb h, List.mem_append, List.mem_singleton] at hc
        rcases hc with hc | rfl
        · exact ih _ (Nat.div_lt_self (by omega) hb) c hc
        · exact ⟨_,(Nat.mod_lt n (by omega)).trans_le hbase,rfl⟩
      · rw [Nat.toDigits_of_lt_base (Nat.lt_of_not_le h), List.mem_singleton] at hc
        exact ⟨n,by omega,hc⟩
  rcases List.mem_append.mp hc with hc | hc
  · exact ⟨0,by decide,List.eq_of_mem_replicate hc⟩
  · exact hdigits n c hc

end Numerals

/-! ### Lines -/

section Lines
variable {α : Type*} {mark : α}

/-- Lines, each ended by the mark. -/
def terminated (mark : α) (lines : List (List α)) : List α := lines.flatMap (· ++ [mark])

/-- What stands before the first mark, and what after it. -/
theorem first_mark {a b r s : List α} (ha : mark ∉ a) (hb : mark ∉ b)
    (h : a ++ mark :: r = b ++ mark :: s) : a = b ∧ r = s := by
  induction a generalizing b with
  | nil =>
    cases b with
    | nil => exact ⟨rfl,(List.cons.inj h).2⟩
    | cons x b => exact absurd ((List.cons.inj h).1 ▸ List.mem_cons_self) hb
  | cons x a ih =>
    rw [List.mem_cons, not_or] at ha
    cases b with
    | nil => exact absurd (List.cons.inj h).1.symm ha.1
    | cons y b =>
      rw [List.mem_cons, not_or] at hb
      obtain ⟨rfl,hrest⟩ := List.cons.inj h
      obtain ⟨rfl,hrs⟩ := ih ha.2 hb.2 hrest
      exact ⟨rfl,hrs⟩

/-- Lines without the mark are read back from the text they make. -/
theorem terminated_injective {l m : List (List α)} (hl : ∀ line ∈ l, mark ∉ line)
    (hm : ∀ line ∈ m, mark ∉ line) (h : terminated mark l = terminated mark m) : l = m := by
  induction l generalizing m with
  | nil =>
    cases m with
    | nil => rfl
    | cons b m => simp [terminated] at h
  | cons a l ih =>
    cases m with
    | nil => simp [terminated] at h
    | cons b m =>
      simp only [terminated, List.flatMap_cons, List.append_assoc, List.singleton_append] at h
      obtain ⟨rfl,hrest⟩ := first_mark (hl a List.mem_cons_self) (hm b List.mem_cons_self) h
      have htail := ih (fun line hline => hl line (List.mem_cons_of_mem _ hline))
        (fun line hline => hm line (List.mem_cons_of_mem _ hline)) hrest
      rw [htail]

/-- No piece of a text holds the mark that the text was split at. -/
theorem not_mem_splitOn [DecidableEq α] {text piece : List α} (h : piece ∈ text.splitOn mark) :
    mark ∉ piece := by
  induction text generalizing piece with
  | nil =>
    rw [List.splitOn_nil, List.mem_singleton] at h
    rw [h]
    exact List.not_mem_nil
  | cons c text ih =>
    rw [List.splitOn_cons_eq_if_modifyHead] at h
    by_cases hc : c = mark
    · rw [if_pos (beq_iff_eq.mpr hc)] at h
      rcases List.mem_cons.mp h with rfl | h
      · exact List.not_mem_nil
      · exact ih h
    · rw [if_neg (by simpa using hc)] at h
      obtain ⟨first,rest,hsplit⟩ := List.exists_cons_of_ne_nil (List.splitOn_ne_nil mark text)
      rw [hsplit, List.modifyHead_cons] at h
      rcases List.mem_cons.mp h with rfl | h
      · rw [List.mem_cons, not_or]
        exact ⟨fun heq => hc heq.symm,ih (by rw [hsplit]; exact List.mem_cons_self)⟩
      · exact ih (by rw [hsplit]; exact List.mem_cons_of_mem _ h)

/-- What stands in lines put together stands in one of them, or between them. -/
theorem mem_intercalate {s : List α} {l : List (List α)} {c : α}
    (h : c ∈ s.intercalate l) : c ∈ s ∨ ∃ x ∈ l, c ∈ x := by
  induction l with
  | nil => simp at h
  | cons a l ih =>
    cases l with
    | nil =>
      rw [List.intercalate_singleton] at h
      exact Or.inr ⟨a,List.mem_cons_self,h⟩
    | cons b l =>
      rw [List.intercalate_cons_cons, List.mem_append, List.mem_append] at h
      rcases h with (h | h) | h
      · exact Or.inr ⟨a,List.mem_cons_self,h⟩
      · exact Or.inl h
      · rcases ih h with h | ⟨x,hx,hc⟩
        · exact Or.inl h
        · exact Or.inr ⟨x,List.mem_cons_of_mem _ hx,hc⟩

end Lines

end Adg.TextRecords
