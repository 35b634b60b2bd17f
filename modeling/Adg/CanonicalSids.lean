import Adg.SecurityIdentifier
import Adg.TextRecords

/-!
# One key for one security identifier

A string denotes the numbers that its groups are read as. The canonical string
of these numbers is read as the same numbers again, so it is its own canonical
form, and two strings have one canonical form when they denote one SID.
-/

set_option autoImplicit false

namespace Adg.CanonicalSids
open Adg.Observation Adg.SecurityIdentifier Adg.TextRecords

/-! ### The numbers of a string -/

/-- `text if text[:1] != "s" else "S" + text[1:]`, of the text without blanks around it. -/
def cased (raw : String) : List Char :=
  match strip raw.toList with
  | 's' :: rest => 'S' :: rest
  | text => text

/-- The groups of a string that matches the pattern. -/
def groupsOf (raw : String) : Option SidParts := matchSid (cased raw)

/-- Numbers that a SID can have. -/
structure Fits (parts : SidParts) : Prop where
  revision : parts.revision = sidRevision
  authority : parts.authority ≤ maxAuthority
  length : parts.subAuthorities.length ≤ maxSubAuthorities
  subs : ∀ sub ∈ parts.subAuthorities, sub ≤ maxUint32

theorem cased_lower {raw : String} {rest : List Char} (h : strip raw.toList = 's' :: rest) :
    cased raw = 'S' :: rest := by
  unfold cased
  rw [h]
  rfl

theorem cased_other {raw : String} (h : ∀ rest, strip raw.toList = 's' :: rest → False) :
    cased raw = strip raw.toList := by
  unfold cased
  split
  · rename_i rest hrest
    exact (h rest hrest).elim
  · rfl

/-- The canonicalizer reads the groups, checks their numbers and renders them. -/
theorem canonicalizeSid_cases (raw : String) :
    (∃ parts, groupsOf raw = some parts ∧ Fits parts ∧
      canonicalizeSid raw = .ok (renderSid parts)) ∨
    (∃ e, canonicalizeSid raw = .error e) ∧ ∀ parts, groupsOf raw = some parts → ¬ Fits parts := by
  generalize hresult : canonicalizeSid raw = result
  simp only [canonicalizeSid] at hresult
  split at hresult
  · rename_i hempty
    right
    refine ⟨⟨_,hresult.symm⟩,fun parts hparts => ?_⟩
    unfold groupsOf cased at hparts
    rw [hempty] at hparts
    cases hparts
  split at hresult
  · rename_i parts hparts
    have hgroups : groupsOf raw = some parts := by
      unfold groupsOf
      split at hparts
      · rename_i hlower
        rw [cased_lower hlower]
        exact hparts
      · rename_i hother
        rw [cased_other hother]
        exact hparts
    have hrefused : ¬ Fits parts → ∀ parts', groupsOf raw = some parts' → ¬ Fits parts' := by
      intro hbad parts' hparts'
      obtain rfl := Option.some.inj (hgroups.symm.trans hparts')
      exact hbad
    split at hresult
    · rename_i hrevision
      exact .inr ⟨⟨_,hresult.symm⟩,hrefused fun h => hrevision h.revision⟩
    split at hresult
    · rename_i hauthority
      exact .inr ⟨⟨_,hresult.symm⟩,hrefused fun h => not_lt.mpr h.authority hauthority⟩
    split at hresult
    · rename_i hlength
      exact .inr ⟨⟨_,hresult.symm⟩,hrefused fun h => not_lt.mpr h.length hlength⟩
    split at hresult
    · rename_i sub hsub
      refine .inr ⟨⟨_,hresult.symm⟩,hrefused fun h => ?_⟩
      have hwide : maxUint32 < sub := by simpa using List.find?_some hsub
      exact not_lt.mpr (h.subs sub (List.mem_of_find?_eq_some hsub)) hwide
    · rename_i hrevision hauthority hlength _ hsubs
      refine .inl ⟨parts,hgroups,⟨not_not.mp hrevision,not_lt.mp hauthority,not_lt.mp hlength,?_⟩,
        hresult.symm⟩
      intro sub hsub
      simpa using List.find?_eq_none.mp hsubs sub hsub
  · rename_i hnone
    right
    refine ⟨⟨_,hresult.symm⟩,fun parts hparts => ?_⟩
    exfalso
    unfold groupsOf at hparts
    apply hnone parts
    split
    · rename_i hlower
      rw [← cased_lower hlower]
      exact hparts
    · rename_i hother
      rw [← cased_other hother]
      exact hparts

theorem canonicalizeSid_ok {raw value : String} : canonicalizeSid raw = .ok value ↔
    ∃ parts, groupsOf raw = some parts ∧ Fits parts ∧ value = renderSid parts := by
  rcases canonicalizeSid_cases raw with ⟨parts,hgroups,hfits,hvalue⟩ | ⟨⟨e,herror⟩,hbad⟩
  · rw [hvalue, Except.ok.injEq]
    constructor
    · rintro rfl
      exact ⟨parts,hgroups,hfits,rfl⟩
    · rintro ⟨parts',hparts',-,rfl⟩
      rw [Option.some.inj (hgroups.symm.trans hparts')]
  · rw [herror]
    constructor
    · intro h
      cases h
    · rintro ⟨parts,hparts,hfits,-⟩
      exact absurd hfits (hbad parts hparts)

/-! ### Numerals are read back -/

/-- What a fold over digits reads, from what was read before them. -/
def readOn (digit : Char → Option ℕ) (base : ℕ) (before : Option ℕ) (text : List Char) : Option ℕ :=
  text.foldl (fun acc c => do return (← acc)*base+(← digit c)) before

theorem readOn_append (digit : Char → Option ℕ) (base : ℕ) (before : Option ℕ)
    (front back : List Char) : readOn digit base before (front ++ back) =
      readOn digit base (readOn digit base before front) back := List.foldl_append

theorem readOn_single (digit : Char → Option ℕ) (base value : ℕ) (c : Char) :
    readOn digit base (some value) [c] = (digit c).map (value*base + ·) := by
  show (do return value*base+(← digit c)) = _
  cases digit c <;> rfl

/-- The digits of a number, each written in its own way, are read as the number. -/
theorem readOn_digits {digit : Char → Option ℕ} {base : ℕ} {written : Char → Char} (hb : 1 < base)
    (hdigit : ∀ d < base, digit (written d.digitChar) = some d) (n : ℕ) :
    readOn digit base (some 0) ((Nat.toDigits base n).map written) = some n := by
  induction n using Nat.strongRecOn with
  | ind n ih =>
    by_cases h : base ≤ n
    · rw [Nat.toDigits_of_base_le hb h, List.map_append, readOn_append,
        ih _ (Nat.div_lt_self (by omega) hb)]
      have hlast := Nat.mod_lt n (by omega : 0 < base)
      rw [List.map_singleton, readOn_single, hdigit _ hlast, Option.map_some, Nat.div_add_mod']
    · have hlt := Nat.lt_of_not_le h
      rw [Nat.toDigits_of_lt_base hlt, List.map_singleton, readOn_single, hdigit n hlt]
      simp

theorem readOn_zeros {digit : Char → Option ℕ} {base : ℕ} (hzero : digit '0' = some 0) (k : ℕ) :
    readOn digit base (some 0) (List.replicate k '0') = some 0 := by
  induction k with
  | zero => rfl
  | succ k ih =>
    rw [List.replicate_succ', readOn_append, ih, readOn_single, hzero]
    simp

theorem number_eq {digit : Char → Option ℕ} {base most : ℕ} {text : List Char} (hne : text ≠ [])
    (hlength : text.length ≤ most) : number digit base most text =
      readOn digit base (some 0) text := by
  unfold number
  rw [if_neg]
  · rfl
  · rintro (h | h)
    · exact hne h
    · omega

theorem decimal_digit : ∀ d < 10, decimalDigit d.digitChar = some d := by decide

theorem hex_digit : ∀ d < 16, hexDigit d.digitChar.toUpper = some d := by decide

theorem number_decimal {n most : ℕ} (hmost : 0 < most) (h : n < 10^most) :
    number decimalDigit 10 most (Nat.toDigits 10 n) = some n := by
  rw [number_eq Nat.toDigits_ne_nil ((Nat.length_toDigits_le_iff (by decide) hmost).mpr h)]
  have hread := @readOn_digits decimalDigit 10 id (by decide) decimal_digit n
  rwa [List.map_id] at hread

theorem hexUpper12_toList (n : ℕ) : (hexUpper12 n).toList =
    List.replicate (12-((Nat.toDigits 16 n).map Char.toUpper).length) '0' ++
      (Nat.toDigits 16 n).map Char.toUpper := by
  rw [hexUpper12, String.toList_ofList]

theorem number_hexUpper {n : ℕ} (h : n < 16^12) :
    number hexDigit 16 12 (hexUpper12 n).toList = some n := by
  have hlength := (Nat.length_toDigits_le_iff (by decide : 1 < 16) (by decide : 0 < 12)).mpr h
  rw [hexUpper12_toList, number_eq, readOn_append, readOn_zeros (by decide),
    readOn_digits (by decide) hex_digit]
  · simp [Nat.toDigits_ne_nil]
  · rw [List.length_append, List.length_replicate, List.length_map]
    omega

/-! ### The canonical string is read back -/

def authorityText (authority : ℕ) : List Char :=
  if maxUint32 < authority then '0' :: 'x' :: (hexUpper12 authority).toList
  else Nat.toDigits 10 authority

/-- What stands between the dashes of a canonical string. -/
def pieces (parts : SidParts) : List (List Char) :=
  ['S'] :: Nat.toDigits 10 parts.revision :: authorityText parts.authority ::
    parts.subAuthorities.map (Nat.toDigits 10)

theorem renderSid_pieces (parts : SidParts) :
    (renderSid parts).toList = ['-'].intercalate (pieces parts) := by
  have hdecimal : ∀ n : ℕ, (toString n).toList = Nat.toDigits 10 n := by
    intro n
    rw [Nat.toString_eq_ofList_toDigits, String.toList_ofList]
  rw [renderSid, String.toList_intercalate]
  unfold pieces authorityText
  have hsubs : (parts.subAuthorities.map toString).map String.toList =
      parts.subAuthorities.map (Nat.toDigits 10) := by
    rw [List.map_map]
    apply List.map_congr_left
    intro sub _
    exact hdecimal sub
  split_ifs
  · simp only [List.cons_append, List.nil_append, List.map_cons, hsubs, hdecimal,
      String.toList_append]
    rfl
  · simp only [List.cons_append, List.nil_append, List.map_cons, hsubs, hdecimal]
    rfl

/-- Digits of any base up to sixteen, in either case. -/
def Plain (c : Char) : Prop := c ≠ '-' ∧ isSpace c = false ∧ c ≠ 'x' ∧ c ≠ 'X'

theorem plain_digits {base n : ℕ} (hb : 1 < base) (hbase : base ≤ 16) {c : Char}
    (hc : c ∈ Nat.toDigits base n) : Plain c ∧ Plain c.toUpper := by
  have hnumeral : c ∈ numeral base 0 n := List.mem_append_right _ hc
  obtain ⟨d,hd,rfl⟩ := mem_numeral hb hbase hnumeral
  have hall : ∀ d < 16, (d.digitChar ≠ '-' ∧ isSpace d.digitChar = false ∧ d.digitChar ≠ 'x' ∧
      d.digitChar ≠ 'X') ∧ d.digitChar.toUpper ≠ '-' ∧ isSpace d.digitChar.toUpper = false ∧
      d.digitChar.toUpper ≠ 'x' ∧ d.digitChar.toUpper ≠ 'X' := by decide
  exact hall d hd

theorem plain_hexUpper {n : ℕ} {c : Char} (hc : c ∈ (hexUpper12 n).toList) : Plain c := by
  rw [hexUpper12_toList, List.mem_append] at hc
  rcases hc with hc | hc
  · rw [List.eq_of_mem_replicate hc]
    exact ⟨by decide,by decide,by decide,by decide⟩
  · obtain ⟨d,hd,rfl⟩ := List.mem_map.mp hc
    exact (plain_digits (by decide) (by decide) hd).2

/-- No piece holds a dash or a blank. -/
theorem pieces_plain {parts : SidParts} {piece : List Char} (hpiece : piece ∈ pieces parts)
    {c : Char} (hc : c ∈ piece) : c ≠ '-' ∧ isSpace c = false := by
  have hdecimal : ∀ {n : ℕ}, c ∈ Nat.toDigits 10 n → c ≠ '-' ∧ isSpace c = false := by
    intro n hn
    have hplain := (plain_digits (by decide) (by decide) hn).1
    exact ⟨hplain.1,hplain.2.1⟩
  unfold pieces authorityText at hpiece
  simp only [List.mem_cons, List.mem_map] at hpiece
  rcases hpiece with rfl | rfl | rfl | ⟨sub,-,rfl⟩
  · rw [List.mem_singleton.mp hc]
    decide
  · exact hdecimal hc
  · split_ifs at hc
    · rcases List.mem_cons.mp hc with rfl | hc
      · decide
      · rcases List.mem_cons.mp hc with rfl | hc
        · decide
        · have hplain := plain_hexUpper hc
          exact ⟨hplain.1,hplain.2.1⟩
    · exact hdecimal hc
  · exact hdecimal hc

theorem splitOn_renderSid (parts : SidParts) :
    (renderSid parts).toList.splitOn '-' = pieces parts := by
  rw [renderSid_pieces]
  apply List.splitOn_intercalate
  · intro piece hpiece hdash
    exact (pieces_plain hpiece hdash).1 rfl
  · exact List.cons_ne_nil _ _

theorem authorityOf_text {authority : ℕ} (h : authority ≤ maxAuthority) :
    authorityOf (authorityText authority) = some authority := by
  unfold authorityText maxAuthority at *
  split_ifs with hwide
  · show number hexDigit 16 12 (hexUpper12 authority).toList = some authority
    exact number_hexUpper (by omega)
  · have hplain : ∀ c ∈ Nat.toDigits 10 authority, c ≠ 'x' ∧ c ≠ 'X' :=
      fun c hc => (plain_digits (by decide) (by decide) hc).1.2.2
    unfold authorityOf
    split
    · rename_i hx
      exact absurd rfl (hplain 'x' (by rw [hx]; simp)).1
    · rename_i hx
      exact absurd rfl (hplain 'X' (by rw [hx]; simp)).2
    · exact number_decimal (by decide) (by omega)

theorem mapM_decimal {subs : List ℕ} (h : ∀ sub ∈ subs, sub ≤ maxUint32) :
    (subs.map (Nat.toDigits 10)).mapM (number decimalDigit 10 10) = some subs := by
  induction subs with
  | nil => rfl
  | cons sub subs ih =>
    have hsub := h sub List.mem_cons_self
    unfold maxUint32 at hsub
    rw [List.map_cons, List.mapM_cons, number_decimal (by decide) (by omega),
      ih fun s hs => h s (List.mem_cons_of_mem _ hs)]
    rfl

/-- The groups of a canonical string are the numbers it was rendered from. -/
theorem matchSid_renderSid {parts : SidParts} (h : Fits parts) :
    matchSid (renderSid parts).toList = some parts := by
  have hrevision : number decimalDigit 10 10 (Nat.toDigits 10 parts.revision) =
      some parts.revision := by
    rw [h.revision]
    decide
  unfold matchSid
  rw [splitOn_renderSid]
  show (do return (⟨← number decimalDigit 10 10 _,← authorityOf _,← List.mapM _ _⟩ : SidParts)) = _
  rw [hrevision, authorityOf_text h.authority, mapM_decimal h.subs]
  rfl

theorem strip_plain {text : List Char} (h : ∀ c ∈ text, isSpace c = false) : strip text = text := by
  have hkeep : ∀ text : List Char, (∀ c ∈ text, isSpace c = false) →
      text.dropWhile isSpace = text := by
    intro text hall
    cases text with
    | nil => rfl
    | cons c rest => exact List.dropWhile_cons_of_neg (by simp [hall c List.mem_cons_self])
  unfold strip
  rw [hkeep text h, hkeep text.reverse fun c hc => h c (List.mem_reverse.mp hc), List.reverse_reverse]

theorem groupsOf_renderSid {parts : SidParts} (h : Fits parts) :
    groupsOf (renderSid parts) = some parts := by
  have hstrip : strip (renderSid parts).toList = (renderSid parts).toList := by
    apply strip_plain
    rw [renderSid_pieces]
    intro c hc
    rcases mem_intercalate hc with hdash | ⟨piece,hpiece,hc⟩
    · rw [List.mem_singleton.mp hdash]
      decide
    · exact (pieces_plain hpiece hc).2
  unfold groupsOf
  rw [cased_other, hstrip]
  · exact matchSid_renderSid h
  · intro rest hrest
    rw [hstrip, renderSid_pieces] at hrest
    unfold pieces at hrest
    rw [List.intercalate_cons_cons] at hrest
    have hhead := (List.cons.inj hrest).1
    exact absurd hhead (by decide)

/-! ### What a string denotes -/

/-- The text is a positional numeral of `n`, leading zeros or not. -/
def Numeral (digit : Char → Option ℕ) (base : ℕ) (text : List Char) (n : ℕ) : Prop :=
  text ≠ [] ∧ ∃ digits, text.mapM digit = some digits ∧ Nat.ofDigits base digits.reverse = n

/-- An authority is written in decimal, or in hexadecimal after `0x` or `0X`. -/
def Authority (text : List Char) (authority : ℕ) : Prop :=
  (∃ mark rest, (mark = 'x' ∨ mark = 'X') ∧ text = '0' :: mark :: rest ∧
    Numeral hexDigit 16 rest authority) ∨ Numeral decimalDigit 10 text authority

/-- `raw` is `S-1-IA[-SA...]` between blanks, with these numbers. -/
def Denotes (raw : String) (authority : ℕ) (subs : List ℕ) : Prop :=
  ∃ left right first revision authorityText subTexts,
    raw.toList = left ++ (['-'].intercalate ([first] :: revision :: authorityText :: subTexts) ++
      right) ∧
    (∀ c ∈ left, isSpace c = true) ∧ (∀ c ∈ right, isSpace c = true) ∧
    (first = 's' ∨ first = 'S') ∧ Numeral decimalDigit 10 revision sidRevision ∧
    Authority authorityText authority ∧ List.Forall₂ (Numeral decimalDigit 10) subTexts subs

theorem mapM_each {α β : Type} {f : α → Option β} {l : List α} {m : List β} :
    l.mapM f = some m ↔ List.Forall₂ (fun a b => f a = some b) l m := by
  induction l generalizing m with
  | nil =>
    rw [List.mapM_nil, List.forall₂_nil_left_iff]
    exact ⟨fun h => (Option.some.inj h).symm,fun h => congrArg some h.symm⟩
  | cons a l ih =>
    rw [List.mapM_cons, List.forall₂_cons_left_iff]
    cases ha : f a with
    | none => simp
    | some b =>
      cases hl : l.mapM f with
      | none =>
        simp only [Option.bind_eq_bind, Option.bind_some, Option.bind_none]
        constructor
        · intro h
          cases h
        · rintro ⟨b',m',-,hm',-⟩
          cases hl.symm.trans (ih.mpr hm')
      | some bs =>
        constructor
        · intro h
          exact ⟨b,bs,rfl,ih.mp hl,(Option.some.inj h).symm⟩
        · rintro ⟨b',m',hb,hm',rfl⟩
          rw [← Option.some.inj hb, ← Option.some.inj (hl.symm.trans (ih.mpr hm'))]
          rfl

theorem numeral_unique {digit : Char → Option ℕ} {base : ℕ} {text : List Char} {n n' : ℕ}
    (h : Numeral digit base text n) (h' : Numeral digit base text n') : n = n' := by
  obtain ⟨-,digits,hdigits,rfl⟩ := h
  obtain ⟨-,digits',hdigits',rfl⟩ := h'
  rw [Option.some.inj (hdigits.symm.trans hdigits')]

theorem readOn_none (digit : Char → Option ℕ) (base : ℕ) (text : List Char) :
    readOn digit base none text = none := by
  induction text with
  | nil => rfl
  | cons c text ih => exact ih

theorem readOn_positional {digit : Char → Option ℕ} {base : ℕ} {text : List Char} {before n : ℕ}
    (h : readOn digit base (some before) text = some n) : ∃ digits,
      text.mapM digit = some digits ∧ n = before*base^text.length +
        Nat.ofDigits base digits.reverse := by
  induction text generalizing before with
  | nil =>
    refine ⟨[],rfl,?_⟩
    have hn : before = n := Option.some.inj h
    simp [hn]
  | cons c text ih =>
    have hcons : readOn digit base (some before) (c :: text) =
        readOn digit base ((digit c).map (before*base + ·)) text := by
      rw [← readOn_single]
      rfl
    rw [hcons] at h
    cases hc : digit c with
    | none =>
      rw [hc, Option.map_none, readOn_none] at h
      cases h
    | some d =>
      rw [hc, Option.map_some] at h
      obtain ⟨digits,hdigits,hn⟩ := ih h
      refine ⟨d :: digits,?_,?_⟩
      · rw [List.mapM_cons, hc, hdigits]
        rfl
      · have hlength : digits.length = text.length := by
          exact (mapM_each.mp hdigits).length_eq.symm
        rw [hn, List.reverse_cons, Nat.ofDigits_append, List.length_reverse, hlength,
          Nat.ofDigits_singleton, List.length_cons]
        ring

theorem number_numeral {digit : Char → Option ℕ} {base most : ℕ} {text : List Char} {n : ℕ}
    (h : number digit base most text = some n) : Numeral digit base text n := by
  unfold number at h
  split_ifs at h with hbad
  obtain ⟨digits,hdigits,hn⟩ := readOn_positional h
  refine ⟨fun hnil => hbad (.inl hnil),digits,hdigits,?_⟩
  rw [hn, Nat.zero_mul, Nat.zero_add]

/-! ### A matched string denotes the numbers of its groups -/

/-- The code points that `str.isspace` accepts. -/
def blanks : List ℕ :=
  [0x9, 0xa, 0xb, 0xc, 0xd, 0x1c, 0x1d, 0x1e, 0x1f, 0x20, 0x85, 0xa0, 0x1680, 0x2000, 0x2001, 0x2002,
    0x2003, 0x2004, 0x2005, 0x2006, 0x2007, 0x2008, 0x2009, 0x200a, 0x2028, 0x2029, 0x202f, 0x205f,
    0x3000]

theorem isSpace_blanks {c : Char} (h : isSpace c = true) : ∃ k ∈ blanks, c = Char.ofNat k :=
  ⟨c.toNat,of_decide_eq_true h,(Char.ofNat_toNat c).symm⟩

theorem digit_plain {digit : Char → Option ℕ} {c : Char} {d : ℕ}
    (hblanks : ∀ k ∈ blanks, digit (Char.ofNat k) = none) (hdash : digit '-' = none)
    (h : digit c = some d) : c ≠ '-' ∧ isSpace c = false := by
  constructor
  · rintro rfl
    cases hdash.symm.trans h
  · rw [← Bool.not_eq_true]
    intro hspace
    obtain ⟨k,hk,rfl⟩ := isSpace_blanks hspace
    cases (hblanks k hk).symm.trans h

theorem numeral_plain {digit : Char → Option ℕ} {base : ℕ} {text : List Char} {n : ℕ}
    (hblanks : ∀ k ∈ blanks, digit (Char.ofNat k) = none) (hdash : digit '-' = none)
    (h : Numeral digit base text n) : ∀ c ∈ text, c ≠ '-' ∧ isSpace c = false := by
  obtain ⟨-,digits,hdigits,-⟩ := h
  have heach := mapM_each.mp hdigits
  clear hdigits
  induction heach with
  | nil =>
    intro c hc
    cases hc
  | cons hd _ ih =>
    intro c hc
    rcases List.mem_cons.mp hc with rfl | hc
    · exact digit_plain hblanks hdash hd
    · exact ih c hc

theorem decimal_plain {text : List Char} {n : ℕ} (h : Numeral decimalDigit 10 text n) :
    ∀ c ∈ text, c ≠ '-' ∧ isSpace c = false := numeral_plain (by decide) (by decide) h

theorem hex_plain {text : List Char} {n : ℕ} (h : Numeral hexDigit 16 text n) :
    ∀ c ∈ text, c ≠ '-' ∧ isSpace c = false := numeral_plain (by decide) (by decide) h

theorem authority_plain {text : List Char} {authority : ℕ} (h : Authority text authority) :
    ∀ c ∈ text, c ≠ '-' ∧ isSpace c = false := by
  rcases h with ⟨mark,rest,hmark,rfl,hrest⟩ | h
  · intro c hc
    rcases List.mem_cons.mp hc with rfl | hc
    · decide
    · rcases List.mem_cons.mp hc with rfl | hc
      · rcases hmark with rfl | rfl <;> decide
      · exact hex_plain hrest c hc
  · exact decimal_plain h

theorem subs_plain {texts : List (List Char)} {subs : List ℕ}
    (h : List.Forall₂ (Numeral decimalDigit 10) texts subs) :
    ∀ piece ∈ texts, ∀ c ∈ piece, c ≠ '-' ∧ isSpace c = false := by
  induction h with
  | nil =>
    intro piece hpiece
    cases hpiece
  | cons hhead _ ih =>
    intro piece hpiece
    rcases List.mem_cons.mp hpiece with rfl | hpiece
    · exact decimal_plain hhead
    · exact ih piece hpiece

theorem authority_unique {text : List Char} {a a' : ℕ} (h : Authority text a)
    (h' : Authority text a') : a = a' := by
  have hmixed : ∀ {mark : Char} {rest : List Char} {n : ℕ}, mark = 'x' ∨ mark = 'X' →
      ¬ Numeral decimalDigit 10 ('0' :: mark :: rest) n := by
    rintro mark rest n hmark ⟨-,digits,hdigits,-⟩
    have heach := mapM_each.mp hdigits
    cases heach with
    | cons _ htail =>
      cases htail with
      | cons hd _ =>
        have hnone : decimalDigit 'x' = none ∧ decimalDigit 'X' = none := by decide
        rcases hmark with rfl | rfl
        · cases hnone.1.symm.trans hd
        · cases hnone.2.symm.trans hd
  rcases h with ⟨mark,rest,hmark,rfl,hrest⟩ | h
  · rcases h' with ⟨mark',rest',-,htext,hrest'⟩ | h'
    · obtain ⟨rfl,rfl⟩ := List.cons.inj (List.cons.inj htext).2
      exact numeral_unique hrest hrest'
    · exact absurd h' (hmixed hmark)
  · rcases h' with ⟨mark',rest',hmark',rfl,-⟩ | h'
    · exact absurd h (hmixed hmark')
    · exact numeral_unique h h'

theorem subs_unique {texts : List (List Char)} {subs subs' : List ℕ}
    (h : List.Forall₂ (Numeral decimalDigit 10) texts subs)
    (h' : List.Forall₂ (Numeral decimalDigit 10) texts subs') : subs = subs' := by
  induction h generalizing subs' with
  | nil =>
    cases h'
    rfl
  | cons hhead _ ih =>
    cases h' with
    | cons hhead' htail' => rw [numeral_unique hhead hhead', ih htail']

theorem authorityOf_authority {text : List Char} {authority : ℕ}
    (h : authorityOf text = some authority) : Authority text authority := by
  unfold authorityOf at h
  split at h
  · exact .inl ⟨'x',_,.inl rfl,rfl,number_numeral h⟩
  · exact .inl ⟨'X',_,.inr rfl,rfl,number_numeral h⟩
  · exact .inr (number_numeral h)

/-- The text between the blanks around it. -/
theorem strip_around (text : List Char) : ∃ left right, text = left ++ (strip text ++ right) ∧
    (∀ c ∈ left, isSpace c = true) ∧ ∀ c ∈ right, isSpace c = true := by
  have htake : ∀ (l : List Char), ∀ c ∈ l.takeWhile isSpace, isSpace c = true :=
    fun l c hc => List.mem_takeWhile_imp hc
  refine ⟨text.takeWhile isSpace,((text.dropWhile isSpace).reverse.takeWhile isSpace).reverse,?_,
    htake text,fun c hc => htake _ c (List.mem_reverse.mp hc)⟩
  unfold strip
  rw [← List.reverse_append, List.takeWhile_append_dropWhile, List.reverse_reverse,
    List.takeWhile_append_dropWhile]

theorem strip_core {left core right : List Char} (hleft : ∀ c ∈ left, isSpace c = true)
    (hcore : ∀ c ∈ core, isSpace c = false) (hright : ∀ c ∈ right, isSpace c = true)
    (hne : core ≠ []) : strip (left ++ (core ++ right)) = core := by
  have hkeep : ∀ {l : List Char}, l ≠ [] → (∀ c ∈ l, isSpace c = false) → ∀ rest,
      (l ++ rest).dropWhile isSpace = l ++ rest := by
    intro l hl hall rest
    cases l with
    | nil => exact absurd rfl hl
    | cons c l => exact List.dropWhile_cons_of_neg (by simp [hall c List.mem_cons_self])
  have hreverse : ∀ c ∈ right.reverse, isSpace c = true := fun c hc =>
    hright c (List.mem_reverse.mp hc)
  unfold strip
  rw [List.dropWhile_append_of_pos hleft, hkeep hne hcore, List.reverse_append,
    List.dropWhile_append_of_pos hreverse]
  have hlast := hkeep (by simpa using hne) (fun c hc => hcore c (List.mem_reverse.mp hc)) []
  rw [List.append_nil] at hlast
  rw [hlast, List.reverse_reverse]

theorem matchSid_texts {text : List Char} {parts : SidParts} (h : matchSid text = some parts) :
    ∃ revision authorityText subTexts,
      text = ['-'].intercalate (['S'] :: revision :: authorityText :: subTexts) ∧
      Numeral decimalDigit 10 revision parts.revision ∧
      Authority authorityText parts.authority ∧
      List.Forall₂ (Numeral decimalDigit 10) subTexts parts.subAuthorities := by
  unfold matchSid at h
  split at h
  · rename_i revision authorityText subTexts hsplit
    simp only [Option.bind_eq_bind, Option.bind_eq_some_iff, Option.pure_def,
      Option.some.injEq] at h
    obtain ⟨r,hr,a,ha,subs,hsubs,rfl⟩ := h
    refine ⟨revision,authorityText,subTexts,?_,number_numeral hr,authorityOf_authority ha,?_⟩
    · rw [← hsplit, List.intercalate_splitOn]
    · exact (mapM_each.mp hsubs).imp fun _ _ => number_numeral
  · cases h

theorem intercalate_first (first : Char) (second : List Char) (rest : List (List Char)) :
    ['-'].intercalate ([first] :: second :: rest) =
      first :: '-' :: ['-'].intercalate (second :: rest) := by
  rw [List.intercalate_cons_cons]
  rfl

theorem denotes_of_groups {raw : String} {parts : SidParts} (h : groupsOf raw = some parts)
    (hrevision : parts.revision = sidRevision) :
    Denotes raw parts.authority parts.subAuthorities := by
  obtain ⟨revision,authorityText,subTexts,htext,hr,ha,hsubs⟩ := matchSid_texts h
  obtain ⟨left,right,haround,hleft,hright⟩ := strip_around raw.toList
  rw [hrevision] at hr
  by_cases hlower : ∃ rest, strip raw.toList = 's' :: rest
  · obtain ⟨rest,hrest⟩ := hlower
    refine ⟨left,right,'s',revision,authorityText,subTexts,?_,hleft,hright,.inl rfl,hr,ha,hsubs⟩
    rw [cased_lower hrest, intercalate_first] at htext
    rw [intercalate_first, ← (List.cons.inj htext).2, ← hrest]
    exact haround
  · refine ⟨left,right,'S',revision,authorityText,subTexts,?_,hleft,hright,.inr rfl,hr,ha,hsubs⟩
    rw [← htext, cased_other fun rest hrest => hlower ⟨rest,hrest⟩]
    exact haround

/-- The pieces of a string that denotes something are those between its dashes. -/
theorem denotes_pieces {raw : String} {authority : ℕ} {subs : List ℕ}
    (h : Denotes raw authority subs) : ∃ first revision authorityText subTexts,
      (strip raw.toList).splitOn '-' = [first] :: revision :: authorityText :: subTexts ∧
      Authority authorityText authority ∧
      List.Forall₂ (Numeral decimalDigit 10) subTexts subs := by
  obtain ⟨left,right,first,revision,authorityText,subTexts,htext,hleft,hright,hfirst,hr,ha,hsubs⟩ := h
  have hplain : ∀ piece ∈ [first] :: revision :: authorityText :: subTexts, ∀ c ∈ piece,
      c ≠ '-' ∧ isSpace c = false := by
    intro piece hpiece c hc
    rcases List.mem_cons.mp hpiece with rfl | hpiece
    · rw [List.mem_singleton.mp hc]
      rcases hfirst with rfl | rfl <;> decide
    rcases List.mem_cons.mp hpiece with rfl | hpiece
    · exact decimal_plain hr c hc
    rcases List.mem_cons.mp hpiece with rfl | hpiece
    · exact authority_plain ha c hc
    · exact subs_plain hsubs piece hpiece c hc
  refine ⟨first,revision,authorityText,subTexts,?_,ha,hsubs⟩
  rw [htext, strip_core hleft _ hright]
  · apply List.splitOn_intercalate
    · intro piece hpiece hdash
      exact (hplain piece hpiece '-' hdash).1 rfl
    · exact List.cons_ne_nil _ _
  · rw [intercalate_first]
    exact List.cons_ne_nil _ _
  · intro c hc
    rcases mem_intercalate hc with hdash | ⟨piece,hpiece,hc⟩
    · rw [List.mem_singleton.mp hdash]
      decide
    · exact (hplain piece hpiece c hc).2

theorem denotes_unique {raw : String} {a a' : ℕ} {subs subs' : List ℕ} (h : Denotes raw a subs)
    (h' : Denotes raw a' subs') : a = a' ∧ subs = subs' := by
  obtain ⟨first,revision,authorityText,subTexts,hsplit,ha,hsubs⟩ := denotes_pieces h
  obtain ⟨first',revision',authorityText',subTexts',hsplit',ha',hsubs'⟩ := denotes_pieces h'
  rw [hsplit] at hsplit'
  obtain ⟨-,hrest⟩ := List.cons.inj hsplit'
  obtain ⟨-,hrest⟩ := List.cons.inj hrest
  obtain ⟨rfl,rfl⟩ := List.cons.inj hrest
  exact ⟨authority_unique ha ha',subs_unique hsubs hsubs'⟩

/-! ### The properties of a canonical string -/

/-- `int(text)` of a run of decimal digits. -/
def intText (text : List Char) : Option ℕ := number decimalDigit 10 text.length text

/-- `Sid.revision`. -/
def revision (value : String) : Option ℕ :=
  match value.toList.splitOn '-' with
  | _ :: revision :: _ => intText revision
  | _ => none

/-- `Sid.identifier_authority`. -/
def identifierAuthority (value : String) : Option ℕ :=
  match value.toList.splitOn '-' with
  | _ :: _ :: ('0' :: 'x' :: digits) :: _ => number hexDigit 16 digits.length digits
  | _ :: _ :: ('0' :: 'X' :: digits) :: _ => number hexDigit 16 digits.length digits
  | _ :: _ :: authority :: _ => intText authority
  | _ => none

/-- `Sid.sub_authorities`. -/
def subAuthorities (value : String) : Option (List ℕ) :=
  ((value.toList.splitOn '-').drop 3).mapM intText

theorem intText_decimal (n : ℕ) : intText (Nat.toDigits 10 n) = some n := by
  have hlength : 0 < (Nat.toDigits 10 n).length := List.length_pos_of_ne_nil Nat.toDigits_ne_nil
  apply number_decimal hlength
  exact (Nat.length_toDigits_le_iff (by decide) hlength).mp le_rfl

theorem number_whole {digit : Char → Option ℕ} {base most n : ℕ} {text : List Char}
    (h : number digit base most text = some n) : number digit base text.length text = some n := by
  unfold number at *
  split_ifs at h with hbad
  rw [if_neg]
  · exact h
  · rintro (hnil | hlong)
    · exact hbad (.inl hnil)
    · exact lt_irrefl _ hlong

theorem revision_renderSid (parts : SidParts) : revision (renderSid parts) = some parts.revision := by
  unfold revision
  rw [splitOn_renderSid]
  exact intText_decimal parts.revision

theorem identifierAuthority_renderSid {parts : SidParts} (h : parts.authority ≤ maxAuthority) :
    identifierAuthority (renderSid parts) = some parts.authority := by
  unfold identifierAuthority
  rw [splitOn_renderSid]
  unfold pieces authorityText
  split_ifs with hwide
  · exact number_whole (number_hexUpper (by unfold maxAuthority at h; omega))
  · have hplain : ∀ c ∈ Nat.toDigits 10 parts.authority, c ≠ 'x' ∧ c ≠ 'X' :=
      fun c hc => (plain_digits (by decide) (by decide) hc).1.2.2
    split
    · rename_i hx
      have htext := (List.cons.inj (List.cons.inj (List.cons.inj hx).2).2).1
      exact absurd rfl (hplain 'x' (by rw [htext]; simp)).1
    · rename_i hx
      have htext := (List.cons.inj (List.cons.inj (List.cons.inj hx).2).2).1
      exact absurd rfl (hplain 'X' (by rw [htext]; simp)).2
    · rename_i hrest
      rw [← (List.cons.inj (List.cons.inj (List.cons.inj hrest).2).2).1]
      exact intText_decimal parts.authority
    · rename_i hnone
      exact (hnone _ _ _ _ rfl).elim

theorem subAuthorities_renderSid (parts : SidParts) :
    subAuthorities (renderSid parts) = some parts.subAuthorities := by
  unfold subAuthorities
  rw [splitOn_renderSid]
  show (parts.subAuthorities.map (Nat.toDigits 10)).mapM intText = some parts.subAuthorities
  rw [mapM_each, List.forall₂_map_left_iff]
  exact List.forall₂_same.mpr fun sub _ => intText_decimal sub

/-! ### The key -/

/-- What makes the canonical string a key of the SID. -/
structure CanonicalKeys : Prop where
  /-- The canonicalizer maps its results to themselves. -/
  stable : ∀ raw value, canonicalizeSid raw = .ok value → canonicalizeSid value = .ok value
  /-- An accepted string denotes numbers in range, and the properties of the result return them. -/
  numbers : ∀ raw value, canonicalizeSid raw = .ok value → ∃ authority subs,
    Denotes raw authority subs ∧ authority < 2^48 ∧ subs.length ≤ 15 ∧ (∀ sub ∈ subs, sub < 2^32) ∧
    revision value = some 1 ∧ identifierAuthority value = some authority ∧
    subAuthorities value = some subs
  /-- Two accepted strings share their result when they denote the same numbers, and only then. -/
  decides : ∀ raw raw' value value' authority authority' subs subs',
    canonicalizeSid raw = .ok value → canonicalizeSid raw' = .ok value' →
    Denotes raw authority subs → Denotes raw' authority' subs' →
    (value = value' ↔ authority = authority' ∧ subs = subs')
  /-- Every choice of numbers in range is that of an accepted string. -/
  covers : ∀ authority subs, authority < 2^48 → subs.length ≤ 15 → (∀ sub ∈ subs, sub < 2^32) →
    ∃ raw value, canonicalizeSid raw = .ok value ∧ Denotes raw authority subs

theorem sid_keys_canonical : CanonicalKeys where
  stable := by
    intro raw value h
    obtain ⟨parts,-,hfits,rfl⟩ := canonicalizeSid_ok.mp h
    exact canonicalizeSid_ok.mpr ⟨parts,groupsOf_renderSid hfits,hfits,rfl⟩
  numbers := by
    intro raw value h
    obtain ⟨parts,hgroups,hfits,rfl⟩ := canonicalizeSid_ok.mp h
    refine ⟨parts.authority,parts.subAuthorities,denotes_of_groups hgroups hfits.revision,?_,
      hfits.length,?_,?_,identifierAuthority_renderSid hfits.authority,
      subAuthorities_renderSid parts⟩
    · exact Nat.lt_succ_of_le hfits.authority
    · exact fun sub hsub => Nat.lt_succ_of_le (hfits.subs sub hsub)
    · rw [revision_renderSid, hfits.revision]
      rfl
  decides := by
    intro raw raw' value value' authority authority' subs subs' h h' hdenotes hdenotes'
    obtain ⟨parts,hgroups,hfits,rfl⟩ := canonicalizeSid_ok.mp h
    obtain ⟨parts',hgroups',hfits',rfl⟩ := canonicalizeSid_ok.mp h'
    obtain ⟨rfl,rfl⟩ := denotes_unique hdenotes (denotes_of_groups hgroups hfits.revision)
    obtain ⟨rfl,rfl⟩ := denotes_unique hdenotes' (denotes_of_groups hgroups' hfits'.revision)
    constructor
    · intro hsame
      have hparts := groupsOf_renderSid hfits
      rw [hsame, groupsOf_renderSid hfits'] at hparts
      rw [Option.some.inj hparts]
      exact ⟨rfl,rfl⟩
    · rintro ⟨hauthority,hsubs⟩
      unfold renderSid
      rw [hauthority, hsubs, hfits.revision, hfits'.revision]
  covers := by
    intro authority subs hauthority hlength hsubs
    have hfits : Fits ⟨1,authority,subs⟩ := by
      refine ⟨rfl,?_,hlength,?_⟩
      · exact Nat.le_of_lt_succ hauthority
      · exact fun sub hsub => Nat.le_of_lt_succ (hsubs sub hsub)
    have hgroups := groupsOf_renderSid hfits
    refine ⟨_,_,canonicalizeSid_ok.mpr ⟨_,hgroups,hfits,rfl⟩,?_⟩
    exact denotes_of_groups hgroups rfl

end Adg.CanonicalSids
