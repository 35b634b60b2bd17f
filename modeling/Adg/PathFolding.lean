import Adg.PathSpelling

/-!
# Reading a comparison key again

Case folding works character by character, is idempotent, and leaves alone what
carries no case: separators, blanks, dots and the characters that no component
may hold. So the key of a path is the text of the folded components.
-/

set_option autoImplicit false

namespace Adg.PathFolding
open Adg.Observation Adg.SecurityIdentifier Adg.ResourcePath Adg.PathSegments Adg.PathSpelling
open Adg.Fallible (mapped_ok)

/-- What a path is parsed by: blanks, forbidden characters and dots. -/
def isMark (c : Char) : Bool := isSpace c || invalidComponentChar c || c = '.'

theorem separator_mark : isMark separator = true := by decide

theorem dot_mark : isMark '.' = true := by decide

/-- `str.casefold`: the folding of each character. -/
structure Casefold where
  fold : Char → List Char
  again : ∀ c, (fold c).flatMap fold = fold c
  nonempty : ∀ c, fold c ≠ []
  keeps : ∀ c, isMark c = true → fold c = [c]
  makes_none : ∀ c, ∀ d ∈ fold c, isMark d = true → d = c
  letters : ∀ c, c.isAlpha = true → fold c = [c.toLower]

namespace Casefold
variable (f : Casefold)

def chars (s : List Char) : List Char := s.flatMap f.fold

/-- `casefold` on a text. -/
def text (s : String) : String := String.ofList (f.chars s.toList)

theorem chars_append (s t : List Char) : f.chars (s ++ t) = f.chars s ++ f.chars t :=
  List.flatMap_append

theorem chars_again (s : List Char) : f.chars (f.chars s) = f.chars s := by
  rw [chars, chars, List.flatMap_assoc]
  congr 1
  funext c
  exact f.again c

theorem chars_cons_mark {c : Char} (hc : isMark c = true) (s : List Char) :
    f.chars (c :: s) = c :: f.chars s := by
  rw [chars, List.flatMap_cons, f.keeps c hc]
  rfl

theorem chars_join (pieces : List (List Char)) :
    f.chars ([separator].intercalate pieces) = [separator].intercalate (pieces.map f.chars) := by
  induction pieces with
  | nil => rfl
  | cons s pieces ih =>
    cases pieces with
    | nil => simp
    | cons t pieces =>
      rw [List.intercalate_cons_of_ne_nil (List.cons_ne_nil t pieces), chars_append, chars_append,
        ih, List.map_cons, List.map_cons, List.map_cons,
        List.intercalate_cons_of_ne_nil (List.cons_ne_nil (f.chars t) _)]
      congr 2
      exact f.chars_cons_mark separator_mark []

theorem chars_ne_nil {s : List Char} (h : s ≠ []) : f.chars s ≠ [] := by
  cases s with
  | nil => exact absurd rfl h
  | cons c s =>
    intro hnil
    exact f.nonempty c (List.append_eq_nil_iff.mp hnil).1

theorem mem_chars_mark {s : List Char} {d : Char} (hd : d ∈ f.chars s) (hmark : isMark d = true) :
    d ∈ s := by
  obtain ⟨c,hc,hfold⟩ := List.mem_flatMap.mp hd
  rw [f.makes_none c d hfold hmark]
  exact hc

/-- Only a text of marks folds to a text of marks, and it is that text. -/
theorem chars_marks {s : List Char} (h : ∀ d ∈ f.chars s, isMark d = true) : f.chars s = s := by
  induction s with
  | nil => rfl
  | cons c s ih =>
    have hfirst : isMark c = true := by
      obtain ⟨d,rest,hfold⟩ := List.exists_cons_of_ne_nil (f.nonempty c)
      have hd : d ∈ f.fold c := by
        rw [hfold]
        exact List.mem_cons_self
      have hmark := h d (List.mem_append_left _ hd)
      rwa [f.makes_none c d hd hmark] at hmark
    rw [f.chars_cons_mark hfirst]
    congr 1
    apply ih
    intro d hd
    exact h d (List.mem_append_right _ hd)

theorem proper {s : List Char} (h : Proper s) : Proper (f.chars s) := by
  have hmarks : ∀ t : List Char, (∀ d ∈ t, isMark d = true) → s ≠ t → f.chars s ≠ t := by
    intro t ht hne heq
    rw [← heq] at ht
    exact hne ((f.chars_marks ht).symm.trans heq)
  refine ⟨f.chars_ne_nil h.1,hmarks _ (by simp [dot_mark]) h.2.1,
    hmarks _ (by simp [dot_mark]) h.2.2.1,?_⟩
  intro d hd
  by_contra hinvalid
  rw [Bool.not_eq_false] at hinvalid
  have hmem := f.mem_chars_mark hd (by rw [isMark, hinvalid, Bool.or_true, Bool.true_or])
  rw [h.2.2.2 d hmem] at hinvalid
  cases hinvalid

/-- A text ends in a blank when its folding does. -/
theorem chars_clean (s : List Char) :
    (f.chars s).rdropWhile isSpace = f.chars s ↔ s.rdropWhile isSpace = s := by
  rcases List.eq_nil_or_concat s with rfl | ⟨front,c,rfl⟩
  · exact ⟨fun _ => rfl,fun _ => rfl⟩
  rw [List.concat_eq_append]
  cases hc : isSpace c with
  | true =>
    have hmark : isMark c = true := by rw [isMark, hc, Bool.true_or, Bool.true_or]
    have hfold : f.chars (front ++ [c]) = f.chars front ++ [c] := by
      rw [chars_append, f.chars_cons_mark hmark]
      rfl
    have hne : ∀ l : List Char, (l ++ [c]).rdropWhile isSpace ≠ l ++ [c] := by
      intro l heq
      rw [List.rdropWhile_concat_pos isSpace l c hc] at heq
      have := (List.rdropWhile_prefix isSpace l).length_le
      rw [heq, List.length_append, List.length_singleton] at this
      omega
    rw [hfold]
    exact iff_of_false (hne _) (hne _)
  | false =>
    obtain hnil | ⟨back,d,hback⟩ := List.eq_nil_or_concat (f.fold c)
    · exact absurd hnil (f.nonempty c)
    rw [List.concat_eq_append] at hback
    have hd : isSpace d = false := by
      rw [← Bool.not_eq_true]
      intro hspace
      have hmem : d ∈ f.fold c := by
        rw [hback]
        exact List.mem_append_right _ List.mem_cons_self
      have hdc := f.makes_none c d hmem (by rw [isMark, hspace, Bool.true_or, Bool.true_or])
      rw [hdc, hc] at hspace
      cases hspace
    have hfold : f.chars (front ++ [c]) = (f.chars front ++ back) ++ [d] := by
      rw [chars_append, chars, chars, List.flatMap_singleton, hback, List.append_assoc]
    rw [hfold]
    exact iff_of_true (List.rdropWhile_concat_neg isSpace _ d (by simp [hd]))
      (List.rdropWhile_concat_neg isSpace _ c (by simp [hc]))

theorem endsClean (pieces : List (List Char)) :
    EndsClean (pieces.map f.chars) ↔ EndsClean pieces := by
  rw [EndsClean, EndsClean, List.getLast?_map]
  cases pieces.getLast? with
  | none => simp
  | some last => simpa using f.chars_clean last

end Casefold

/-! ### UNC paths -/

section Unc
open Adg.PathSpelling.Unc
variable (f : Casefold)

/-- The key of a path is the text of a path with folded components. -/
theorem folded_unc {p : UncPath}
    (hnormal : [separator].intercalate (segmentsOf p.relativePath) = p.relativePath) :
    ∃ q : UncPath, [separator].intercalate (segmentsOf q.relativePath) = q.relativePath ∧
      components q = (components p).map f.chars ∧ q.value = p.comparisonKey f.text := by
  have hsegments : segmentsOf (f.chars p.relativePath) =
      (segmentsOf p.relativePath).map f.chars := by
    conv_lhs => rw [← hnormal, f.chars_join]
    apply segmentsOf_join
    intro s hs
    obtain ⟨t,ht,rfl⟩ := List.mem_map.mp hs
    exact f.proper (validateComponent_iff.mp (p.segments_valid t ht))
  have hvalid : ∀ s ∈ segmentsOf (f.chars p.relativePath),
      validateComponent s "path segment" = .ok () := by
    intro s hs
    rw [hsegments] at hs
    obtain ⟨t,ht,rfl⟩ := List.mem_map.mp hs
    exact validateComponent_iff.mpr (f.proper (validateComponent_iff.mp (p.segments_valid t ht)))
  have hq : [separator].intercalate (segmentsOf (f.chars p.relativePath)) =
      f.chars p.relativePath := by
    conv_rhs => rw [← hnormal, f.chars_join]
    rw [hsegments]
  let q : UncPath := ⟨f.chars p.server,f.chars p.share,f.chars p.relativePath,
    validateComponent_iff.mpr (f.proper (validateComponent_iff.mp p.server_valid)),
    validateComponent_iff.mpr (f.proper (validateComponent_iff.mp p.share_valid)),hvalid⟩
  have hcomponents : components q = (components p).map f.chars := by
    rw [components, components, List.map_cons, List.map_cons, ← hsegments]
  refine ⟨q,hq,hcomponents,?_⟩
  rw [value_spelled hq, hcomponents, UncPath.comparisonKey, Casefold.text, value_spelled hnormal,
    String.toList_ofList, spelled, spelled, f.chars_append, f.chars_join]
  congr 2
  rw [uncMark, f.chars_cons_mark separator_mark, f.chars_cons_mark separator_mark]
  rfl

theorem components_inj {p q : UncPath}
    (hp : [separator].intercalate (segmentsOf p.relativePath) = p.relativePath)
    (hq : [separator].intercalate (segmentsOf q.relativePath) = q.relativePath)
    (h : p.value = q.value) : components p = components q := by
  rw [value_spelled hp, value_spelled hq] at h
  have hjoin := List.append_cancel_left (String.ofList_injective h)
  have hsplit : ∀ r : UncPath,
      ([separator].intercalate (components r)).splitOn separator = components r := by
    intro r
    exact List.splitOn_intercalate separator (fun s hs => (components_proper r s hs).free.1)
      (List.cons_ne_nil _ _)
  rw [← hsplit p, hjoin, hsplit q]

/-- What a UNC parse returns is read again from its text, and its key from its key, exactly when
its last component does not end in a blank. -/
theorem unc_again {raw : String} {p : UncPath} (h : parseUncPath raw = .ok p) :
    ((∃ q, parseUncPath p.value = .ok q ∧ q.server = p.server ∧ q.share = p.share ∧
        q.relativePath = p.relativePath) ↔ EndsClean (components p)) ∧
      ((∃ q, parseUncPath (p.comparisonKey f.text) = .ok q ∧
        q.comparisonKey f.text = p.comparisonKey f.text) ↔ EndsClean (components p)) := by
  obtain ⟨hnormal,-⟩ := components_parsed h
  obtain ⟨k,hknormal,hkcomponents,hkvalue⟩ := folded_unc f hnormal
  constructor
  · constructor
    · rintro ⟨q,hq,hserver,hshare,hrelative⟩
      have hsame : (components q).map id = components p := by
        rw [List.map_id, components, components, hserver, hshare, hrelative]
      exact parse_lost hnormal (fun _ _ hs => hs) hq hsame
    · intro hclean
      exact ⟨p,parse_value hnormal hclean,rfl,rfl,rfl⟩
  · rw [← f.endsClean, ← hkcomponents, ← hkvalue]
    constructor
    · rintro ⟨q,hq,hkey⟩
      obtain ⟨hqnormal,-⟩ := components_parsed hq
      obtain ⟨j,hjnormal,hjcomponents,hjvalue⟩ := folded_unc f hqnormal
      have hsame : (components q).map f.chars = components k := by
        rw [← hjcomponents]
        exact components_inj hjnormal hknormal (hjvalue.trans hkey)
      exact parse_lost hknormal (fun s _ hs => (f.chars_clean s).mpr hs) hq hsame
    · intro hclean
      refine ⟨k,parse_value hknormal hclean,?_⟩
      rw [UncPath.comparisonKey, hkvalue, UncPath.comparisonKey, Casefold.text, Casefold.text,
        String.toList_ofList, f.chars_again]

end Unc

/-! ### Drive-letter paths -/

section Drive
open Adg.PathSpelling.Drive
variable (f : Casefold)

/-- A drive folds to the same drive in small letters. -/
theorem chars_drive {d : List Char} (h : isDrive d = true) :
    isDrive (f.chars d) = true ∧ (f.chars d).map Char.toUpper = d.map Char.toUpper := by
  obtain ⟨letter,hletter,hcases⟩ := isDrive_cases h
  have hlower : letter.toLower.isAlpha = true := by
    rw [Char.isAlpha_toLower_eq_isAlpha, hletter]
  have hfold : ∀ rest, (∀ c ∈ rest, isMark c = true) →
      f.chars (letter :: rest) = letter.toLower :: rest := by
    intro rest hrest
    have hkept : f.chars rest = rest := by
      induction rest with
      | nil => rfl
      | cons c rest ih =>
        rw [f.chars_cons_mark (hrest c List.mem_cons_self),
          ih fun e he => hrest e (List.mem_cons_of_mem _ he)]
    show f.fold letter ++ f.chars rest = _
    rw [f.letters letter hletter, hkept]
    rfl
  rcases hcases with rfl | rfl
  · rw [hfold [':'] (by simp; decide)]
    exact ⟨hlower,by simp⟩
  · rw [hfold [':', '\n'] (by simp; decide)]
    exact ⟨hlower,by simp⟩

theorem key_text (p : LocalPath) : p.comparisonKey f.text =
    String.ofList (f.chars p.drive ++ separator :: f.chars p.relativePath) := by
  rw [LocalPath.comparisonKey, Casefold.text, LocalPath.value, String.toList_ofList,
    f.chars_append, f.chars_cons_mark separator_mark]

/-- The key of a path is the text of a path on the same drive with folded segments. -/
theorem folded_local {p : LocalPath}
    (hnormal : [separator].intercalate (segmentsOf p.relativePath) = p.relativePath) :
    ∃ q : LocalPath, [separator].intercalate (segmentsOf q.relativePath) = q.relativePath ∧
      q.drive = p.drive ∧ q.relativePath = f.chars p.relativePath ∧
      segmentsOf q.relativePath = (segmentsOf p.relativePath).map f.chars := by
  have hsegments : segmentsOf (f.chars p.relativePath) =
      (segmentsOf p.relativePath).map f.chars := by
    conv_lhs => rw [← hnormal, f.chars_join]
    apply segmentsOf_join
    intro s hs
    obtain ⟨t,ht,rfl⟩ := List.mem_map.mp hs
    exact f.proper (segments_proper p t ht)
  have hvalid : ∀ s ∈ segmentsOf (f.chars p.relativePath),
      validateComponent s "path segment" = .ok () := by
    intro s hs
    rw [hsegments] at hs
    obtain ⟨t,ht,rfl⟩ := List.mem_map.mp hs
    exact validateComponent_iff.mpr (f.proper (segments_proper p t ht))
  refine ⟨⟨p.drive,f.chars p.relativePath,p.drive_valid,checkAll_iff.mpr hvalid⟩,?_,rfl,rfl,hsegments⟩
  show [separator].intercalate (segmentsOf (f.chars p.relativePath)) = f.chars p.relativePath
  rw [hsegments, ← f.chars_join, hnormal]

theorem below_clean {p q : LocalPath}
    (h : segmentsOf q.relativePath = (segmentsOf p.relativePath).map f.chars) :
    EndsClean (below q) ↔ EndsClean (below p) := by
  unfold below
  rw [h]
  by_cases hroot : segmentsOf p.relativePath = []
  · rw [if_pos hroot, if_pos (by rw [hroot]; rfl)]
  · rw [if_neg hroot, if_neg (by simpa using hroot), f.endsClean]

/-- What a drive-letter parse returns is read again from its text, and its key from its key,
exactly when its last segment does not end in a blank. -/
theorem local_again {raw : String} {p : LocalPath} (h : parseLocalPath raw = .ok p) :
    ((∃ q, parseLocalPath p.value = .ok q ∧ q.drive = p.drive ∧
        q.relativePath = p.relativePath) ↔ EndsClean (below p)) ∧
      ((∃ q, parseLocalPath (p.comparisonKey f.text) = .ok q ∧
        q.comparisonKey f.text = p.comparisonKey f.text) ↔ EndsClean (below p)) := by
  obtain ⟨hnormal,d,hd,hdrive,-⟩ := segments_parsed h
  have hupper : p.drive.map Char.toUpper = p.drive := by
    rw [hdrive, List.map_map]
    apply List.map_congr_left
    intro c _
    exact Char.toUpper_toUpper_eq_toUpper c
  obtain ⟨k,hknormal,hkdrive,hkrelative,hksegments⟩ := folded_local f hnormal
  obtain ⟨hfolded,hback⟩ := chars_drive f p.drive_valid
  constructor
  · constructor
    · rintro ⟨q,hq,-,hrelative⟩
      have hsame : (segmentsOf q.relativePath).map id = segmentsOf p.relativePath := by
        rw [List.map_id, hrelative]
      exact parse_lost hnormal p.drive_valid (fun _ _ hs => hs) hq hsame
    · intro hclean
      exact ⟨p,parse_text hnormal p.drive_valid hupper.symm hclean,rfl,rfl⟩
  · rw [← below_clean f hksegments, key_text f p, ← hkrelative]
    constructor
    · rintro ⟨q,hq,hkey⟩
      obtain ⟨hqnormal,e,he,hqdrive,-⟩ := segments_parsed hq
      have hqfree := (drive_free (chars_drive f q.drive_valid).1).1.1
      rw [key_text f q] at hkey
      obtain ⟨-,hrelative⟩ := TextRecords.first_mark hqfree (drive_free hfolded).1.1
        (String.ofList_injective hkey)
      obtain ⟨j,-,-,hjrelative,hjsegments⟩ := folded_local f hqnormal
      have hsame : (segmentsOf q.relativePath).map f.chars = segmentsOf k.relativePath := by
        rw [← hjsegments, hjrelative, hrelative]
      exact parse_lost hknormal hfolded (fun s _ hs => (f.chars_clean s).mpr hs) hq hsame
    · intro hclean
      have hkupper : k.drive = (f.chars p.drive).map Char.toUpper := by
        rw [hkdrive, hback, hupper]
      refine ⟨k,parse_text hknormal hfolded hkupper hclean,?_⟩
      rw [key_text f k, hkdrive, hkrelative, f.chars_again]

end Drive

/-! ### What a raw text ends in -/

/-- Behind its last separator, or before a run of separators and dots, a raw text does not end in
a blank that a component may hold. -/
def RawClean (raw : String) : Prop :=
  ∀ s ∈ (rawSegments raw).getLast?, ∀ c ∈ s.getLast?,
    isSpace c = true → invalidComponentChar c = true

theorem clean_iff {s : List Char} (h : ∀ c ∈ s, invalidComponentChar c = false) :
    s.rdropWhile isSpace = s ↔
      ∀ c ∈ s.getLast?, isSpace c = true → invalidComponentChar c = true := by
  obtain rfl | ⟨front,c,rfl⟩ := List.eq_nil_or_concat s
  · simp
  rw [List.concat_eq_append] at h ⊢
  have hvalid := h c (by simp)
  rw [List.getLast?_concat]
  cases hc : isSpace c with
  | true =>
    have hne : (front ++ [c]).rdropWhile isSpace ≠ front ++ [c] := by
      intro heq
      rw [List.rdropWhile_concat_pos isSpace front c hc] at heq
      have := (List.rdropWhile_prefix isSpace front).length_le
      rw [heq, List.length_append, List.length_singleton] at this
      omega
    apply iff_of_false hne
    intro hclean
    have := hclean c rfl hc
    rw [hvalid] at this
    cases this
  | false =>
    apply iff_of_true (List.rdropWhile_concat_neg isSpace front c (by simp [hc]))
    intro d hd hspace
    rw [← Option.some.inj hd, hc] at hspace
    cases hspace

theorem suffix_last {α : Type*} {l m : List α} (h : l <:+ m) (hl : l ≠ []) :
    m.getLast? = l.getLast? := by
  obtain ⟨t,rfl⟩ := h
  rw [List.getLast?_append_of_ne_nil t hl]

theorem unc_clean {raw : String} {p : UncPath} (h : parseUncPath raw = .ok p) :
    EndsClean (Unc.components p) ↔ RawClean raw := by
  obtain ⟨-,hsuffix⟩ := Unc.components_parsed h
  rw [RawClean, EndsClean, suffix_last hsuffix (List.cons_ne_nil _ _)]
  apply forall₂_congr
  intro s hs
  have hproper := Unc.components_proper p s (List.mem_of_getLast? hs)
  exact clean_iff hproper.2.2.2

theorem local_clean {raw : String} {p : LocalPath} (h : parseLocalPath raw = .ok p) :
    EndsClean (Drive.below p) ↔ RawClean raw := by
  obtain ⟨-,d,hd,-,hsuffix⟩ := Drive.segments_parsed h
  rw [RawClean, EndsClean, suffix_last hsuffix (List.cons_ne_nil _ _), Drive.below]
  by_cases hroot : segmentsOf p.relativePath = []
  · rw [if_pos hroot, hroot]
    apply iff_of_true
    · intro s hs
      rw [← Option.some.inj hs]
      rfl
    · intro s hs
      rw [← Option.some.inj hs]
      obtain ⟨letter,-,rfl | rfl⟩ := Drive.isDrive_cases hd
      · intro c hc hspace
        have hcolon : ':' = c := Option.some.inj hc
        rw [← hcolon] at hspace
        exact absurd hspace (by decide)
      · intro c hc _
        have hbreak : '\n' = c := Option.some.inj hc
        rw [← hbreak]
        decide
  · rw [if_neg hroot, List.getLast?_cons_of_ne_nil hroot]
    apply forall₂_congr
    intro s hs
    have hproper := Drive.segments_proper p s (List.mem_of_getLast? hs)
    exact clean_iff hproper.2.2.2

/-- A parsed path is read again, by its text and by its key, exactly when the last segment of the
raw text does not end in a blank. -/
theorem parsed_again (f : Casefold) (raw : String) :
    (∀ p, parseUncPath raw = .ok p →
      (((∃ q, parseUncPath p.value = .ok q ∧ q.server = p.server ∧ q.share = p.share ∧
            q.relativePath = p.relativePath) ∧
          ∃ q, parseUncPath (p.comparisonKey f.text) = .ok q ∧
            q.comparisonKey f.text = p.comparisonKey f.text) ↔ RawClean raw)) ∧
      (∀ p, parseLocalPath raw = .ok p →
        (((∃ q, parseLocalPath p.value = .ok q ∧ q.drive = p.drive ∧
              q.relativePath = p.relativePath) ∧
            ∃ q, parseLocalPath (p.comparisonKey f.text) = .ok q ∧
              q.comparisonKey f.text = p.comparisonKey f.text) ↔ RawClean raw)) := by
  constructor
  · intro p hp
    obtain ⟨hvalue,hkey⟩ := unc_again f hp
    rw [hvalue, hkey, and_self, unc_clean hp]
  · intro p hp
    obtain ⟨hvalue,hkey⟩ := local_again f hp
    rw [hvalue, hkey, and_self, local_clean hp]

theorem letter_not_mark {c : Char} (h : c.isAlpha = true) : isMark c = false := by
  have hplain : ∀ d : Char, d.isAlpha = false → c ≠ d := by
    rintro d hd rfl
    rw [h] at hd
    cases hd
  have hrange : (65 ≤ c.toNat ∧ c.toNat ≤ 90) ∨ (97 ≤ c.toNat ∧ c.toNat ≤ 122) := by
    simpa [Char.isAlpha, Char.isUpper, Char.isLower, UInt32.le_iff_toNat_le] using h
  have hinvalid : invalidComponentChar c = false := by
    unfold invalidComponentChar
    apply decide_eq_false
    rintro (hsmall | hlisted)
    · omega
    · simp only [List.mem_cons, List.not_mem_nil, or_false] at hlisted
      rcases hlisted with hc | hc | hc | hc | hc | hc | hc | hc | hc <;>
        exact hplain _ (by decide) hc
  rw [isMark, (Drive.letter_plain h).1, hinvalid, decide_eq_false (hplain '.' (by decide))]
  rfl

theorem lower_of_mark {c : Char} (h : isMark c = true) : c.toLower = c := by
  apply Char.toLower_eq_of_not_isUpper
  intro hupper
  have halpha : c.isAlpha = true := by rw [Char.isAlpha, hupper, Bool.true_or]
  rw [letter_not_mark halpha] at h
  cases h

theorem mark_of_lower {c d : Char} (hd : d ∈ [c.toLower]) (h : isMark d = true) : d = c := by
  rw [List.mem_singleton.mp hd] at h ⊢
  by_cases hupper : c.isUpper = true
  · have halpha : c.toLower.isAlpha = true := by
      rw [Char.isAlpha_toLower_eq_isAlpha, Char.isAlpha, hupper, Bool.true_or]
    rw [letter_not_mark halpha] at h
    cases h
  · exact Char.toLower_eq_of_not_isUpper hupper

theorem lower_again (c : Char) : [c.toLower].flatMap (fun d => [d.toLower]) = [c.toLower] := by
  rw [List.flatMap_singleton, Char.toLower_toLower_eq_toLower]

/-- The folding of the ASCII letters. -/
def asciiFold : Casefold where
  fold c := [c.toLower]
  again := lower_again
  nonempty _ := List.cons_ne_nil _ _
  keeps _ h := congrArg (fun d => [d]) (lower_of_mark h)
  makes_none _ _ := mark_of_lower
  letters _ _ := rfl

/-- A folder of a share, read again under the folding of the ASCII letters. -/
theorem plain_folder_again : ∃ p, parseUncPath "//FS01/Share/Dir/" = .ok p ∧
    (∃ q, parseUncPath p.value = .ok q ∧ q.server = p.server ∧ q.share = p.share ∧
      q.relativePath = p.relativePath) ∧
    ∃ q, parseUncPath (p.comparisonKey asciiFold.text) = .ok q ∧
      q.comparisonKey asciiFold.text = p.comparisonKey asciiFold.text := by
  have hread : (parseUncPath "//FS01/Share/Dir/").map UncPath.relativePath = .ok ['D', 'i', 'r'] := by
    decide +kernel
  obtain ⟨p,hp,-⟩ := mapped_ok.mp hread
  have hclean : RawClean "//FS01/Share/Dir/" := by
    have hlast : (rawSegments "//FS01/Share/Dir/").getLast? = some ['D', 'i', 'r'] := by
      decide +kernel
    rw [RawClean, hlast]
    intro s hs c hc hspace
    rw [← Option.some.inj hs] at hc
    have hr : 'r' = c := Option.some.inj hc
    rw [← hr] at hspace
    exact absurd hspace (by decide)
  exact ⟨p,hp,((parsed_again asciiFold "//FS01/Share/Dir/").1 p hp).mpr hclean⟩

/-- The folder is named with a blank at its end, and a separator follows: the blank is part of the
path that is parsed, and not of the path that its text is parsed to. -/
theorem trailing_blank_lost :
    ¬ ∀ (raw : String) (p : UncPath), parseUncPath raw = .ok p →
      ∃ q, parseUncPath p.value = .ok q ∧ q.server = p.server ∧ q.share = p.share ∧
        q.relativePath = p.relativePath := by
  intro hclaim
  have hfirst : (parseUncPath "\\\\fs01\\share\\dir \\").map (fun p => (p.value,p.relativePath)) =
      .ok ("\\\\fs01\\share\\dir ",['d', 'i', 'r', ' ']) := by decide +kernel
  have hsecond : (parseUncPath "\\\\fs01\\share\\dir ").map UncPath.relativePath =
      .ok ['d', 'i', 'r'] := by decide +kernel
  obtain ⟨p,hp,hfields⟩ := mapped_ok.mp hfirst
  obtain ⟨q,hq,-,-,hsame⟩ := hclaim _ p hp
  rw [(Prod.mk.inj hfields).1] at hq
  rw [hq] at hsecond
  have hpath := Except.ok.inj hsecond
  rw [hsame, (Prod.mk.inj hfields).2] at hpath
  cases hpath

end Adg.PathFolding
