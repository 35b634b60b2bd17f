import Adg.TextRecords

/-!
# Quoted texts

A text between quotes, in which a quote, a backslash and everything that is not
printable is written behind a backslash. One quoted text stands for one text,
and no control character stands in it.
-/

set_option autoImplicit false

namespace Adg.QuotedTexts
open Adg.TextRecords

def backslash : Char := '\x5c'
def singleQuote : Char := '\x27'
def doubleQuote : Char := '\x22'

section Escapes
variable (printable : Char → Bool) (q : Char)

/-- A character that stands for itself between quotes. Which characters beyond
ASCII are printable is for a table to say. -/
def plain (c : Char) : Bool :=
  c ≠ q ∧ c ≠ backslash ∧ 0x20 ≤ c.toNat ∧ c.toNat ≠ 0x7F ∧ (c.toNat < 0x7F ∨ printable c = true)

/-- What stands behind the backslash. -/
def letter (c : Char) : Char :=
  if c = q ∨ c = backslash then c
  else if c = '\t' then 't'
  else if c = '\n' then 'n'
  else if c = '\r' then 'r'
  else if c.toNat ≤ 0xFF then 'x'
  else if c.toNat ≤ 0xFFFF then 'u'
  else 'U'

/-- The code of a character that has no letter of its own. -/
def digits (c : Char) : List Char :=
  if letter q c = 'x' then numeral 16 2 c.toNat
  else if letter q c = 'u' then numeral 16 4 c.toNat
  else if letter q c = 'U' then numeral 16 8 c.toNat
  else []

def escape (c : Char) : List Char :=
  if plain printable q c then [c] else backslash :: letter q c :: digits q c

/-- `repr` of a text: between double quotes when it holds a single quote and no double one. -/
def quoteOf (s : List Char) : Char :=
  if singleQuote ∈ s ∧ doubleQuote ∉ s then doubleQuote else singleQuote

def reprText (s : List Char) : List Char :=
  quoteOf s :: (s.flatMap (escape printable (quoteOf s)) ++ [quoteOf s])

end Escapes

section Cancel
variable {printable : Char → Bool} {q : Char}

theorem char_bound (c : Char) : c.toNat < 16^8 := by
  have h := c.val.toBitVec.isLt
  have hsize : c.toNat < 2^32 := h
  omega

/-- The character that a letter stands for. -/
def unletter (c : Char) : Char :=
  if c = 't' then '\t' else if c = 'n' then '\n' else if c = 'r' then '\r' else c

/-- A letter says which character it stands for, or how long its code is. -/
theorem letter_back (hq : q = singleQuote ∨ q = doubleQuote) (c : Char) :
    (letter q c = 'x' ∧ c.toNat < 16^2) ∨ (letter q c = 'u' ∧ c.toNat < 16^4) ∨
      letter q c = 'U' ∨
      (letter q c ≠ 'x' ∧ letter q c ≠ 'u' ∧ letter q c ≠ 'U' ∧ c = unletter (letter q c)) := by
  unfold letter
  split_ifs with hself ht hn hr hx hu
  · right; right; right
    rcases hself with rfl | rfl
    · rcases hq with rfl | rfl <;> decide
    · decide
  · right; right; right
    rw [ht]
    decide
  · right; right; right
    rw [hn]
    decide
  · right; right; right
    rw [hr]
    decide
  · exact Or.inl ⟨rfl,by omega⟩
  · exact Or.inr (Or.inl ⟨rfl,by omega⟩)
  · exact Or.inr (Or.inr (Or.inl rfl))

theorem char_ext {c d : Char} (h : c.toNat = d.toNat) : c = d := Char.ext (UInt32.toNat_inj.mp h)

theorem numeral_cancel {width : ℕ} (hw : 0 < width) {c d : Char} {s t : List Char}
    (hc : c.toNat < 16^width) (hd : d.toNat < 16^width)
    (h : numeral 16 width c.toNat ++ s = numeral 16 width d.toNat ++ t) : c = d ∧ s = t := by
  have hlength : (numeral 16 width c.toNat).length = (numeral 16 width d.toNat).length := by
    rw [numeral_length (by decide) hw hc, numeral_length (by decide) hw hd]
  obtain ⟨hcode,hst⟩ := List.append_inj h hlength
  exact ⟨char_ext (numeral_injective (by decide) (by decide) hw hc hd hcode),hst⟩

theorem digits_cancel (hq : q = singleQuote ∨ q = doubleQuote) {c d : Char} {s t : List Char}
    (hletter : letter q c = letter q d) (h : digits q c ++ s = digits q d ++ t) :
    c = d ∧ s = t := by
  have hd := letter_back hq d
  unfold digits at h
  rw [← hletter] at h hd
  rcases letter_back hq c with ⟨hx,hc⟩ | ⟨hu,hc⟩ | hU | ⟨hx,hu,hU,hc⟩
  · rw [if_pos hx, if_pos hx] at h
    rw [hx] at hd
    simp only [Char.reduceEq, false_and, or_false, true_and, ne_eq, not_true_eq_false] at hd
    exact numeral_cancel (by decide) hc hd h
  · have hx : letter q c ≠ 'x' := by rw [hu]; decide
    rw [if_neg hx, if_neg hx, if_pos hu, if_pos hu] at h
    rw [hu] at hd
    simp only [Char.reduceEq, false_and, or_false, false_or, true_and, ne_eq, not_true_eq_false,
      and_false] at hd
    exact numeral_cancel (by decide) hc hd h
  · have hx : letter q c ≠ 'x' := by rw [hU]; decide
    have hu : letter q c ≠ 'u' := by rw [hU]; decide
    rw [if_neg hx, if_neg hx, if_neg hu, if_neg hu, if_pos hU, if_pos hU] at h
    exact numeral_cancel (by decide) (char_bound c) (char_bound d) h
  · rw [if_neg hx, if_neg hx, if_neg hu, if_neg hu, if_neg hU, if_neg hU] at h
    simp only [hx, hu, hU, false_and, false_or] at hd
    exact ⟨hc.trans hd.2.2.2.symm,h⟩

theorem escape_cancel (hq : q = singleQuote ∨ q = doubleQuote) {c d : Char} {s t : List Char}
    (h : escape printable q c ++ s = escape printable q d ++ t) : c = d ∧ s = t := by
  have hplain : ∀ c, plain printable q c = true → c ≠ backslash := by
    intro c hc
    unfold plain at hc
    simp only [decide_eq_true_eq] at hc
    exact hc.2.1
  unfold escape at h
  split_ifs at h with hc hd hd
  · exact List.cons.inj h
  · exact absurd (List.cons.inj h).1 (hplain c hc)
  · exact absurd (List.cons.inj h).1.symm (hplain d hd)
  · obtain ⟨hletter,hdigits⟩ := List.cons.inj (List.cons.inj h).2
    exact digits_cancel hq hletter hdigits

theorem escape_not_quote (hq : q = singleQuote ∨ q = doubleQuote) (c : Char) {s t : List Char} :
    escape printable q c ++ s ≠ q :: t := by
  intro h
  unfold escape at h
  split_ifs at h with hc
  · unfold plain at hc
    simp only [decide_eq_true_eq] at hc
    exact hc.1 (List.cons.inj h).1
  · have hback := (List.cons.inj h).1
    rcases hq with rfl | rfl <;> cases hback

theorem escaped_cancel (hq : q = singleQuote ∨ q = doubleQuote) {cs ds s t : List Char}
    (h : cs.flatMap (escape printable q) ++ q :: s = ds.flatMap (escape printable q) ++ q :: t) :
    cs = ds := by
  induction cs generalizing ds with
  | nil =>
    cases ds with
    | nil => rfl
    | cons d ds =>
      rw [List.flatMap_cons, List.append_assoc] at h
      exact absurd h.symm (escape_not_quote hq d)
  | cons c cs ih =>
    cases ds with
    | nil =>
      rw [List.flatMap_cons, List.append_assoc] at h
      exact absurd h (escape_not_quote hq c)
    | cons d ds =>
      rw [List.flatMap_cons, List.flatMap_cons, List.append_assoc, List.append_assoc] at h
      obtain ⟨rfl,hrest⟩ := escape_cancel hq h
      rw [ih hrest]

theorem quoteOf_cases (s : List Char) : quoteOf s = singleQuote ∨ quoteOf s = doubleQuote := by
  unfold quoteOf
  split_ifs
  · exact Or.inr rfl
  · exact Or.inl rfl

/-- One quoted text, one text. -/
theorem reprText_injective : Function.Injective (reprText printable) := by
  intro s t h
  obtain ⟨hquote,hbody⟩ := List.cons.inj h
  rw [hquote] at hbody
  exact escaped_cancel (quoteOf_cases t) hbody

/-- A control character is written as its code. -/
theorem printed_escape (hq : q = singleQuote ∨ q = doubleQuote) {c d : Char}
    (hd : d ∈ escape printable q c) : 0x20 ≤ d.toNat := by
  have hdigit : ∀ width, d ∈ numeral 16 width c.toNat → 0x20 ≤ d.toNat := by
    intro width hmem
    obtain ⟨n,hn,rfl⟩ := mem_numeral (by decide) (by decide) hmem
    have hall : ∀ n : Fin 16, 0x20 ≤ (n : ℕ).digitChar.toNat := by decide
    exact hall ⟨n,hn⟩
  unfold escape at hd
  split_ifs at hd with hc
  · unfold plain at hc
    simp only [decide_eq_true_eq] at hc
    rw [List.mem_singleton.mp hd]
    exact hc.2.2.1
  · rcases List.mem_cons.mp hd with rfl | hd
    · decide
    rcases List.mem_cons.mp hd with rfl | hd
    · unfold letter
      split_ifs with hself
      · rcases hself with rfl | rfl
        · rcases hq with rfl | rfl <;> decide
        · decide
      all_goals decide
    · unfold digits at hd
      split_ifs at hd
      · exact hdigit 2 hd
      · exact hdigit 4 hd
      · exact hdigit 8 hd
      · cases hd

theorem printed {s : List Char} {d : Char} (hd : d ∈ reprText printable s) : 0x20 ≤ d.toNat := by
  have hquote : 0x20 ≤ (quoteOf s).toNat := by
    rcases quoteOf_cases s with h | h <;> rw [h] <;> decide
  rcases List.mem_cons.mp hd with rfl | hd
  · exact hquote
  rcases List.mem_append.mp hd with hd | hd
  · obtain ⟨c,-,hc⟩ := List.mem_flatMap.mp hd
    exact printed_escape (quoteOf_cases s) hc
  · rw [List.mem_singleton.mp hd]
    exact hquote

end Cancel

end Adg.QuotedTexts
