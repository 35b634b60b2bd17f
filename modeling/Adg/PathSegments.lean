import Adg.ResourcePath
import Adg.TextRecords

/-!
# Segments of a path

Normalizing the separators and removing a prefix never change the segments
that are kept, other than those of the prefix. A path of whole segments is
found again from its text, but for the blanks at its end.
-/

set_option autoImplicit false

namespace Adg.PathSegments
open Adg.Observation Adg.SecurityIdentifier Adg.ResourcePath

/-- What is neither empty nor the place itself. -/
def isKept (segment : List Char) : Bool := segment ≠ [] ∧ segment ≠ ['.']

/-- The segments that `_clean_segments` keeps of a text. -/
def kept (text : List Char) : List (List Char) := (text.splitOn separator).filter isKept

/-- Slashes read as separators. -/
def slashed (text : List Char) : List Char := text.map fun c => if c = '/' then separator else c

/-- The segments that stand in a raw text. -/
def rawSegments (raw : String) : List (List Char) := kept (slashed (strip raw.toList))

/-! ### Splitting -/

theorem kept_append (a b : List Char) : kept (a ++ separator :: b) = kept a ++ kept b := by
  rw [kept, List.splitOn_append_cons_self, List.filter_append]
  rfl

theorem kept_separator (b : List Char) : kept (separator :: b) = kept b :=
  kept_append [] b

theorem kept_unc (b : List Char) : kept (uncMark ++ b) = kept b := by
  rw [uncMark, List.cons_append, List.cons_append, List.nil_append, kept_separator, kept_separator]

theorem mem_kept {text segment : List Char} (h : segment ∈ kept text) :
    separator ∉ segment ∧ segment ≠ [] ∧ segment ≠ ['.'] := by
  obtain ⟨hpiece,hkept⟩ := List.mem_filter.mp h
  rw [isKept, decide_eq_true_eq] at hkept
  exact ⟨TextRecords.not_mem_splitOn hpiece,hkept⟩

/-- Segments between separators are what is kept of the text they make. -/
theorem kept_join {segments : List (List Char)} (hfree : ∀ s ∈ segments, separator ∉ s) :
    kept ([separator].intercalate segments) = segments.filter isKept := by
  cases segments with
  | nil => rfl
  | cons s segments =>
    rw [kept, List.splitOn_intercalate separator hfree (List.cons_ne_nil _ _)]

/-! ### Normalizing -/

theorem mem_collapse {l : List Char} {c : Char} (h : c ∈ collapse l) : c ∈ l := by
  induction l with
  | nil => exact h
  | cons d l ih =>
    unfold collapse at h
    split_ifs at h
    · exact List.mem_cons_of_mem _ (ih h)
    · rcases List.mem_cons.mp h with rfl | h
      · exact List.mem_cons_self
      · exact List.mem_cons_of_mem _ (ih h)

/-- Collapsing leaves the first piece as it is, and of the others those that are kept. -/
theorem collapse_pieces (l : List Char) : ∃ first rest rest',
    (collapse l).splitOn separator = first :: rest ∧ l.splitOn separator = first :: rest' ∧
      rest.filter isKept = rest'.filter isKept := by
  induction l with
  | nil => exact ⟨[],[],[],rfl,rfl,rfl⟩
  | cons c l ih =>
    obtain ⟨first,rest,rest',hcollapsed,hsplit,hrest⟩ := ih
    have hcons : ∀ m : List Char, (separator :: m).splitOn separator = [] :: m.splitOn separator :=
      fun m => List.splitOn_append_cons_self_of_not_mem List.not_mem_nil m
    unfold collapse
    by_cases hrun : c = separator ∧ l.head? = some separator
    · rw [if_pos hrun]
      obtain ⟨rfl,hhead⟩ := hrun
      obtain ⟨m,rfl⟩ : ∃ m, l = separator :: m := by
        cases l with
        | nil => cases hhead
        | cons d m => exact ⟨m,by rw [Option.some.inj hhead]⟩
      have hfirst : first = [] := by
        rw [hcons m] at hsplit
        exact (List.cons.inj hsplit).1.symm
      refine ⟨[],rest,first :: rest',by rw [hcollapsed, hfirst],by rw [hcons, hsplit],?_⟩
      rw [hrest, hfirst]
      rfl
    · rw [if_neg hrun]
      by_cases hc : c = separator
      · rw [hc]
        refine ⟨[],first :: rest,first :: rest',by rw [hcons, hcollapsed],by rw [hcons, hsplit],?_⟩
        rw [List.filter_cons, List.filter_cons, hrest]
      · have hpush : ∀ m : List Char, (c :: m).splitOn separator =
            (m.splitOn separator).modifyHead (List.cons c) := by
          intro m
          rw [List.splitOn_cons_eq_if_modifyHead, if_neg (by simpa using hc)]
        exact ⟨c :: first,rest,rest',by rw [hpush, hcollapsed]; rfl,by rw [hpush, hsplit]; rfl,hrest⟩

theorem kept_collapse (l : List Char) : kept (collapse l) = kept l := by
  obtain ⟨first,rest,rest',hcollapsed,hsplit,hrest⟩ := collapse_pieces l
  rw [kept, kept, hcollapsed, hsplit, List.filter_cons, List.filter_cons, hrest]

theorem normalizeSeparators_eq (text : List Char) : normalizeSeparators text =
    if uncMark.isPrefixOf (slashed text) then uncMark ++ collapse ((slashed text).drop 2)
    else collapse (slashed text) := rfl

theorem isPrefix_unc {text : List Char} (h : uncMark.isPrefixOf text = true) :
    text = uncMark ++ text.drop 2 := by
  obtain ⟨rest,rfl⟩ := List.isPrefixOf_iff_prefix.mp h
  rfl

theorem kept_normalize (text : List Char) : kept (normalizeSeparators text) = kept (slashed text) := by
  rw [normalizeSeparators_eq]
  split_ifs with hunc
  · rw [kept_unc, kept_collapse]
    conv_rhs => rw [isPrefix_unc hunc, kept_unc]
  · exact kept_collapse _

theorem slash_not_slashed (text : List Char) : '/' ∉ slashed text := by
  intro h
  obtain ⟨c,-,hc⟩ := List.mem_map.mp h
  split_ifs at hc with hslash
  · exact absurd hc (by decide)
  · exact hslash hc

theorem slashed_of_free {text : List Char} (h : '/' ∉ text) : slashed text = text := by
  apply (List.map_congr_left ?_).trans (List.map_id text)
  intro c hc
  have hne : c ≠ '/' := by
    rintro rfl
    exact h hc
  exact if_neg hne

theorem mem_normalize {text : List Char} {c : Char} (h : c ∈ normalizeSeparators text) :
    c ∈ slashed text := by
  rw [normalizeSeparators_eq] at h
  split_ifs at h with hunc
  · rw [isPrefix_unc hunc]
    rcases List.mem_append.mp h with h | h
    · exact List.mem_append_left _ h
    · exact List.mem_append_right _ (mem_collapse h)
  · exact mem_collapse h

/-! ### Prefixes -/

/-- A character is its own upper case unless that is one of the capital letters. -/
theorem toUpper_cases (c : Char) : c.toUpper = c ∨ 65 ≤ c.toUpper.toNat ∧ c.toUpper.toNat ≤ 90 := by
  by_cases hlower : 'a'.val ≤ c.val ∧ c.val ≤ 'z'.val
  · right
    have hlow : 97 ≤ c.val.toNat := UInt32.le_iff_toNat_le.mp hlower.1
    have hhigh : c.val.toNat ≤ 122 := UInt32.le_iff_toNat_le.mp hlower.2
    have hshift : ('A'.val - 'a'.val).toNat = 4294967264 := by decide
    have hvalue : c.toUpper.toNat = (c.val.toNat + 4294967264) % 2^32 := by
      unfold Char.toUpper
      rw [dif_pos hlower, ← hshift]
      exact UInt32.toNat_add _ _
    omega
  · left
    unfold Char.toUpper
    exact dif_neg hlower

theorem toUpper_mark {c d : Char} (hd : d ∈ [separator, '?', '.']) (h : c.toUpper = d) : c = d := by
  have hmarks : ∀ d ∈ [separator, '?', '.'], ¬ (65 ≤ d.toNat ∧ d.toNat ≤ 90) := by
    simp [separator]
  rcases toUpper_cases c with hc | hcapital
  · rw [← hc, h]
  · rw [h] at hcapital
    exact absurd hcapital (hmarks d hd)

/-- A removed prefix ends with a separator, so it takes whole segments away. -/
theorem stripExtendedPrefix_kept (text : List Char) :
    kept (stripExtendedPrefix text).1 <:+ kept text := by
  have hends : ∀ p ∈ extendedPrefixes, p.1.getLast? = some separator := by decide
  unfold stripExtendedPrefix
  cases hfind : extendedPrefixes.find? fun p => p.1.isPrefixOf (text.map Char.toUpper) with
  | none => exact List.suffix_rfl
  | some found =>
    obtain ⟨mark,isUnc⟩ := found
    obtain ⟨front,hfront⟩ := List.getLast?_eq_some_iff.mp (hends _ (List.mem_of_find?_eq_some hfind))
    have hprefix := List.find?_some hfind
    obtain ⟨rest,hrest⟩ := List.isPrefixOf_iff_prefix.mp hprefix
    simp only at hfront hrest
    have hsplit : ∃ a, text = a ++ separator :: text.drop mark.length := by
      rw [hfront, List.append_assoc] at hrest
      obtain ⟨a,b,htext,ha,hb⟩ := List.append_eq_map_iff.mp hrest
      obtain ⟨c,d,hbc,hc,-⟩ := List.map_eq_cons_iff.mp hb
      have hlength : mark.length = a.length+1 := by
        rw [hfront, ← ha, List.length_append, List.length_singleton, List.length_map]
      refine ⟨a,?_⟩
      rw [hlength, htext, hbc, toUpper_mark (by decide) hc]
      simp
    obtain ⟨a,ha⟩ := hsplit
    have hsuffix : kept (text.drop mark.length) <:+ kept text := by
      conv_rhs => rw [ha, kept_append]
      exact List.suffix_append _ _
    show kept (if isUnc then uncMark ++ text.drop mark.length else text.drop mark.length) <:+ _
    cases isUnc with
    | true => rw [if_pos rfl, kept_unc]; exact hsuffix
    | false => exact hsuffix

theorem stripExtendedPrefix_mem {text : List Char} {c : Char}
    (h : c ∈ (stripExtendedPrefix text).1) : c = separator ∨ c ∈ text := by
  unfold stripExtendedPrefix at h
  cases hfind : extendedPrefixes.find? fun p => p.1.isPrefixOf (text.map Char.toUpper) with
  | none =>
    rw [hfind] at h
    exact Or.inr h
  | some found =>
    obtain ⟨mark,isUnc⟩ := found
    rw [hfind] at h
    cases isUnc with
    | true =>
      rcases List.mem_append.mp h with hmark | hrest
      · left
        simpa [uncMark] using hmark
      · exact Or.inr (List.mem_of_mem_drop hrest)
    | false => exact Or.inr (List.mem_of_mem_drop h)

/-- The text that both parsers split. -/
def normalText (raw : String) : List Char :=
  normalizeSeparators (stripExtendedPrefix (normalizeSeparators (strip raw.toList))).1

/-- What is split there stands in the raw text, behind a prefix at most. -/
theorem normalText_kept (raw : String) : kept (normalText raw) <:+ rawSegments raw := by
  have hfree : '/' ∉ (stripExtendedPrefix (normalizeSeparators (strip raw.toList))).1 := by
    intro hslash
    rcases stripExtendedPrefix_mem hslash with hsep | hmem
    · exact absurd hsep (by decide)
    · exact slash_not_slashed _ (mem_normalize hmem)
  rw [normalText, kept_normalize, slashed_of_free hfree, rawSegments, ← kept_normalize]
  exact stripExtendedPrefix_kept _

theorem normalText_mem {raw : String} {c : Char} (h : c ∈ normalText raw) :
    c = separator ∨ c ∈ raw.toList := by
  have hslashed : ∀ text : List Char, ∀ c ∈ slashed text, c = separator ∨ c ∈ text := by
    intro text c hc
    obtain ⟨d,hd,rfl⟩ := List.mem_map.mp hc
    split_ifs
    · exact Or.inl rfl
    · exact Or.inr hd
  have hstrip : ∀ c ∈ strip raw.toList, c ∈ raw.toList := by
    intro c hc
    rw [strip, List.mem_reverse] at hc
    have hrear := List.mem_reverse.mp ((List.dropWhile_sublist isSpace).mem hc)
    exact (List.dropWhile_sublist isSpace).mem hrear
  rcases hslashed _ c (mem_normalize h) with hsep | hmem
  · exact Or.inl hsep
  rcases stripExtendedPrefix_mem hmem with hsep | hmem
  · exact Or.inl hsep
  rcases hslashed _ c (mem_normalize hmem) with hsep | hmem
  · exact Or.inl hsep
  · exact Or.inr (hstrip c hmem)

/-! ### Text made of segments -/

/-- The text of whole segments keeps its separators, the last segment being possibly cut to
nothing. -/
theorem collapse_join {segments : List (List Char)} {last : List Char}
    (hfree : ∀ s ∈ segments, separator ∉ s ∧ s ≠ []) (hlast : separator ∉ last) :
    collapse ([separator].intercalate (segments ++ [last])) =
      [separator].intercalate (segments ++ [last]) := by
  have hplain : ∀ s : List Char, separator ∉ s → ∀ m, collapse (s ++ m) = s ++ collapse m := by
    intro s hs m
    induction s with
    | nil => rfl
    | cons c s ih =>
      rw [List.mem_cons, not_or] at hs
      rw [List.cons_append, collapse, if_neg (fun h => hs.1 h.1.symm), ih hs.2]
      rfl
  induction segments with
  | nil =>
    rw [List.nil_append, List.intercalate_singleton]
    have := hplain last hlast []
    rwa [List.append_nil, show collapse [] = [] from rfl, List.append_nil] at this
  | cons s segments ih =>
    have ih := ih fun t ht => hfree t (List.mem_cons_of_mem _ ht)
    have hs := hfree s List.mem_cons_self
    have hhead : ([separator].intercalate (segments ++ [last])).head? ≠ some separator := by
      cases segments with
      | nil =>
        rw [List.nil_append, List.intercalate_singleton]
        cases last with
        | nil => simp
        | cons c last =>
          rw [List.mem_cons, not_or] at hlast
          simpa using fun h => hlast.1 h.symm
      | cons t segments =>
        have ht := hfree t (List.mem_cons_of_mem _ List.mem_cons_self)
        rw [List.cons_append, List.intercalate_cons_of_ne_nil (by simp)]
        cases t with
        | nil => exact absurd rfl ht.2
        | cons c t =>
          have hc := (not_or.mp (List.mem_cons.not.mp ht.1)).1
          simpa using fun h => hc h.symm
    rw [List.cons_append, List.intercalate_cons_of_ne_nil (by simp), List.append_assoc, hplain s hs.1,
      List.singleton_append, collapse, if_neg (fun h => hhead h.2), ih]

end Adg.PathSegments
