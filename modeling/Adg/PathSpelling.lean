import Adg.PathSegments
import Adg.TextRecords

/-!
# Reading a canonical path again

A parsed path is written as its components, and the components are read back
from that text unless the last one ends in a blank: at the edge of the text the
blank is stripped. The same holds for the case-folded key.
-/

set_option autoImplicit false

namespace Adg.PathSpelling
open Adg.Observation Adg.SecurityIdentifier Adg.ResourcePath Adg.PathSegments Adg.TextRecords
open Adg.Fallible (bind_ok)

/-! ### Drive-letter paths -/

/-- `_DRIVE_RE`. The end of the pattern also stands before a final line break. -/
def isDrive (text : List Char) : Bool :=
  match text with
  | [letter, ':'] => letter.isAlpha
  | [letter, ':', '\n'] => letter.isAlpha
  | _ => false

/-- A drive-letter path whose parts passed `__post_init__`. -/
structure LocalPath where
  drive : List Char
  relativePath : List Char := []
  drive_valid : isDrive drive = true
  segments_checked : checkAll (validateComponent · "path segment") (segmentsOf relativePath) = .ok ()

namespace LocalPath

theorem segments_valid (p : LocalPath) :
    ∀ s ∈ segmentsOf p.relativePath, validateComponent s "path segment" = .ok () :=
  checkAll_ok p.segments_checked

/-- `__post_init__`, in the order the source checks. -/
def build (drive relativePath : List Char) : Except DomainError LocalPath :=
  if hd : isDrive (drive.map Char.toUpper) = true then
    match h : checkAll (validateComponent · "path segment") (segmentsOf relativePath) with
    | .error e => .error e
    | .ok () => .ok ⟨drive.map Char.toUpper,relativePath,hd,h⟩
  else
    let received := String.ofList drive
    .error { message := s!"'{received}' is not a drive specification such as 'C:'.", field := "drive" }

def value (p : LocalPath) : String := String.ofList (p.drive ++ separator :: p.relativePath)

end LocalPath

/-- `parse_local_path`. -/
def parseLocalPath (raw : String) : Except DomainError LocalPath := do
  let text := strip raw.toList
  if text = [] then
    throw { message := "A local path must be a non-empty string." }
  let stripped := stripExtendedPrefix (normalizeSeparators text)
  if stripped.2 then
    throw { message := s!"'{raw}' is a UNC path; use parse_unc_path.", field := "path" }
  let text := normalizeSeparators stripped.1
  let drive := text.takeWhile (· ≠ separator)
  if ¬ isDrive drive ∨ separator ∉ text then
    throw { message := s!"'{raw}' is not an absolute local path. Expected a drive-letter path such as C:\\data. Relative paths and device paths are not resource identities.", field := "path" }
  let segments ← cleanSegments raw ((text.drop (drive.length+1)).splitOn separator)
  LocalPath.build drive ([separator].intercalate segments)

section Folding
variable (casefold : String → String)

/-- `comparison_key` of a drive-letter path. -/
def LocalPath.comparisonKey (p : LocalPath) : String := casefold p.value

end Folding

/-! ### Components -/

/-- What `_validate_component` accepts. -/
def Proper (s : List Char) : Prop :=
  s ≠ [] ∧ s ≠ ['.'] ∧ s ≠ ['.', '.'] ∧ ∀ c ∈ s, invalidComponentChar c = false

theorem validateComponent_iff {s : List Char} {name : String} :
    validateComponent s name = .ok () ↔ Proper s := by
  have hsorted : ((s.filter invalidComponentChar).dedup).insertionSort (· ≤ ·) = [] ↔
      ∀ c ∈ s, invalidComponentChar c = false := by
    rw [← List.length_eq_zero_iff, List.length_insertionSort, List.length_eq_zero_iff,
      List.dedup_eq_nil, List.filter_eq_nil_iff]
    simp only [Bool.not_eq_true]
  unfold validateComponent Proper
  by_cases hempty : s = []
  · rw [if_pos hempty]
    constructor
    · intro h
      cases h
    · intro h
      exact absurd hempty h.1
  rw [if_neg hempty]
  by_cases hdots : s = ['.'] ∨ s = ['.', '.']
  · simp only [if_pos hdots]
    constructor
    · intro h
      cases h
    · rintro ⟨-,hone,htwo,-⟩
      rcases hdots with h | h
      · exact absurd h hone
      · exact absurd h htwo
  · simp only [if_neg hdots]
    rw [not_or] at hdots
    rw [← hsorted]
    by_cases hinvalid : ((s.filter invalidComponentChar).dedup).insertionSort (· ≤ ·) = []
    · rw [if_neg (by simpa using hinvalid)]
      exact ⟨fun _ => ⟨hempty,hdots.1,hdots.2,hinvalid⟩,fun _ => rfl⟩
    · rw [if_pos hinvalid]
      constructor
      · intro h
        cases h
      · intro h
        exact absurd h.2.2.2 hinvalid

theorem Proper.free {s : List Char} (h : Proper s) : separator ∉ s ∧ '/' ∉ s :=
  ⟨fun hc => absurd (h.2.2.2 _ hc) (by decide),fun hc => absurd (h.2.2.2 _ hc) (by decide)⟩

theorem Proper.isKept {s : List Char} (h : Proper s) : isKept s = true := by
  rw [PathSegments.isKept, decide_eq_true_eq]
  exact ⟨h.1,h.2.1⟩

theorem checkAll_iff {α : Type} {check : α → Except DomainError Unit} {xs : List α} :
    checkAll check xs = .ok () ↔ ∀ x ∈ xs, check x = .ok () := by
  constructor
  · exact checkAll_ok
  · intro h
    induction xs with
    | nil => rfl
    | cons x xs ih =>
      rw [checkAll, h x List.mem_cons_self]
      exact ih fun y hy => h y (List.mem_cons_of_mem _ hy)

/-- The segments of a text made of components are the components. -/
theorem segmentsOf_join {segments : List (List Char)} (h : ∀ s ∈ segments, Proper s) :
    segmentsOf ([separator].intercalate segments) = segments := by
  cases segments with
  | nil => rfl
  | cons s segments =>
    rw [segmentsOf, List.splitOn_intercalate separator (fun t ht => (h t ht).free.1)
      (List.cons_ne_nil _ _)]
    apply List.filter_eq_self.mpr
    intro t ht
    simpa using (h t ht).1

theorem cleanSegments_iff {raw : String} {pieces segments : List (List Char)} :
    cleanSegments raw pieces = .ok segments ↔
      segments = pieces.filter isKept ∧ ['.', '.'] ∉ segments := by
  have hkept : (pieces.filter fun s => s ≠ [] ∧ s ≠ ['.']) = pieces.filter isKept := rfl
  simp only [cleanSegments, hkept]
  split_ifs with hdots
  · constructor
    · intro h
      cases h
    · rintro ⟨rfl,hno⟩
      exact absurd hdots hno
  · constructor
    · intro h
      cases h
      exact ⟨rfl,hdots⟩
    · rintro ⟨rfl,-⟩
      rfl

/-! ### The text of whole segments -/

theorem join_concat {segments : List (List Char)} (h : segments ≠ []) (last : List Char) :
    [separator].intercalate (segments ++ [last]) =
      [separator].intercalate segments ++ separator :: last := by
  induction segments with
  | nil => exact absurd rfl h
  | cons s segments ih =>
    cases segments with
    | nil => simp
    | cons t segments =>
      have ih := ih (List.cons_ne_nil _ _)
      rw [List.cons_append, List.intercalate_cons_of_ne_nil (by simp), ih,
        List.intercalate_cons_of_ne_nil (List.cons_ne_nil t segments)]
      simp only [List.append_assoc]

/-- Blanks are stripped off the end of what follows a character that is none. -/
theorem rdropWhile_append {front : List Char} {c : Char} (hc : isSpace c = false)
    (tail : List Char) : (front ++ c :: tail).rdropWhile isSpace =
      front ++ c :: tail.rdropWhile isSpace := by
  unfold List.rdropWhile
  rw [List.reverse_append, List.reverse_cons, List.append_assoc, List.dropWhile_append]
  cases hrest : tail.reverse.dropWhile isSpace with
  | nil =>
    rw [if_pos (by rfl), List.singleton_append, List.dropWhile_cons_of_neg (by simp [hc])]
    simp
  | cons d rest =>
    rw [if_neg (by simp)]
    simp

/-- A path as text: its mark, then its pieces, the last of which may be empty. -/
def spelled (mark : List Char) (pieces : List (List Char)) : List Char :=
  mark ++ [separator].intercalate pieces

section Spelled
variable {mark : List Char} {pieces : List (List Char)} {last : List Char}

/-- Stripping cuts the last piece alone. -/
theorem strip_spelled (hpieces : pieces ≠ []) {c : Char} (hc : isSpace c = false)
    (hhead : (spelled mark pieces).head? = some c) :
    strip (spelled mark (pieces ++ [last])) =
      spelled mark (pieces ++ [last.rdropWhile isSpace]) := by
  have htext : ∀ l, spelled mark (pieces ++ [l]) = spelled mark pieces ++ separator :: l := by
    intro l
    rw [spelled, join_concat hpieces, ← List.append_assoc]
    rfl
  obtain ⟨rest,hrest⟩ := List.head?_eq_some_iff.mp hhead
  show ((spelled mark (pieces ++ [last])).dropWhile isSpace).rdropWhile isSpace = _
  rw [htext, htext]
  conv_lhs => rw [hrest, List.cons_append, List.dropWhile_cons_of_neg (by simp [hc]),
    ← List.cons_append, ← hrest]
  exact rdropWhile_append (by decide) last

theorem spelled_slashed (hmark : '/' ∉ mark) (hpieces : ∀ s ∈ pieces, '/' ∉ s) :
    slashed (spelled mark pieces) = spelled mark pieces := by
  apply slashed_of_free
  intro h
  rcases List.mem_append.mp h with h | h
  · exact hmark h
  · rcases mem_intercalate h with h | ⟨s,hs,h⟩
    · exact absurd h (by decide)
    · exact hpieces s hs h

theorem kept_spelled (hmark : mark = [] ∨ mark = uncMark) (hfree : ∀ s ∈ pieces, separator ∉ s) :
    kept (spelled mark pieces) = pieces.filter isKept := by
  rw [spelled]
  rcases hmark with rfl | rfl
  · exact kept_join hfree
  · rw [kept_unc, kept_join hfree]

end Spelled

/-- Pieces that a text can be made of: segments without a separator or slash, none of them empty
or a dot, and a last one that may be empty. -/
structure Whole (mark : List Char) (pieces : List (List Char)) (last : List Char) : Prop where
  marked : mark = [] ∨ mark = uncMark
  nonempty : pieces ≠ []
  pieces_free : ∀ s ∈ pieces, (separator ∉ s ∧ '/' ∉ s) ∧ isKept s = true
  last_free : separator ∉ last ∧ '/' ∉ last
  starts : ∃ c, isSpace c = false ∧ (spelled mark pieces).head? = some c

section Whole
variable {mark : List Char} {pieces : List (List Char)} {last : List Char}
  (h : Whole mark pieces last)
include h

theorem Whole.free : ∀ s ∈ pieces ++ [last], separator ∉ s ∧ '/' ∉ s := by
  intro s hs
  rcases List.mem_append.mp hs with hs | hs
  · exact (h.pieces_free s hs).1
  · rw [List.mem_singleton.mp hs]
    exact h.last_free

theorem Whole.trimmed : Whole mark pieces (last.rdropWhile isSpace) := by
  have hsub : ∀ c, c ∉ last → c ∉ last.rdropWhile isSpace := by
    intro c hc hmem
    exact hc ((List.rdropWhile_prefix isSpace last).subset hmem)
  exact ⟨h.marked,h.nonempty,h.pieces_free,⟨hsub _ h.last_free.1,hsub _ h.last_free.2⟩,h.starts⟩

theorem Whole.mark_slash : '/' ∉ mark := by
  rcases h.marked with rfl | rfl
  · exact List.not_mem_nil
  · decide

/-- What is kept of the text: every piece, but the last one without its blanks. -/
theorem Whole.rawSegments : rawSegments (String.ofList (spelled mark (pieces ++ [last]))) =
    pieces ++ [last.rdropWhile isSpace].filter isKept := by
  obtain ⟨c,hc,hhead⟩ := h.starts
  have hfree := h.trimmed.free
  rw [PathSegments.rawSegments, String.toList_ofList, strip_spelled h.nonempty hc hhead,
    spelled_slashed h.mark_slash fun s hs => (hfree s hs).2,
    kept_spelled h.marked fun s hs => (hfree s hs).1, List.filter_append]
  congr 1
  apply List.filter_eq_self.mpr
  intro s hs
  exact (h.pieces_free s hs).2

theorem Whole.normalized : normalizeSeparators (spelled mark (pieces ++ [last])) =
    spelled mark (pieces ++ [last]) := by
  have hfree := h.free
  have hpieces : ∀ s ∈ pieces, separator ∉ s ∧ s ≠ [] := by
    intro s hs
    have hkept := (h.pieces_free s hs).2
    rw [isKept, decide_eq_true_eq] at hkept
    exact ⟨(h.pieces_free s hs).1.1,hkept.1⟩
  have hcollapse := collapse_join hpieces h.last_free.1
  rw [normalizeSeparators_eq, spelled_slashed h.mark_slash fun s hs => (hfree s hs).2]
  rcases h.marked with rfl | rfl
  · rw [if_neg, spelled, List.nil_append, hcollapse]
    intro hunc
    obtain ⟨s,rest,hs⟩ := List.exists_cons_of_ne_nil h.nonempty
    have hfirst := h.pieces_free s (by rw [hs]; exact List.mem_cons_self)
    have htext := isPrefix_unc hunc
    rw [hs, spelled, List.nil_append, List.cons_append,
      List.intercalate_cons_of_ne_nil (by simp)] at htext
    cases s with
    | nil =>
      have hkept := hfirst.2
      simp [isKept] at hkept
    | cons c s =>
      have hc : c = separator := (List.cons.inj htext).1
      exact hfirst.1.1 (by rw [hc]; exact List.mem_cons_self)
  · have hunc : uncMark.isPrefixOf (spelled uncMark (pieces ++ [last])) = true :=
      List.isPrefixOf_iff_prefix.mpr (List.prefix_append _ _)
    rw [if_pos hunc]
    show uncMark ++ collapse ([separator].intercalate (pieces ++ [last])) = _
    rw [hcollapse]
    rfl

/-- A text without an extended prefix and without blanks at its end is its own normal text. -/
theorem Whole.normalText (hclean : last.rdropWhile isSpace = last)
    (hplain : stripExtendedPrefix (spelled mark (pieces ++ [last])) =
      (spelled mark (pieces ++ [last]),false)) :
    normalText (String.ofList (spelled mark (pieces ++ [last]))) =
      spelled mark (pieces ++ [last]) := by
  obtain ⟨c,hc,hhead⟩ := h.starts
  rw [PathSegments.normalText, String.toList_ofList, strip_spelled h.nonempty hc hhead, hclean,
    h.normalized, hplain, h.normalized]

/-- Where the end is blank, as many segments as there were are other segments. -/
theorem Whole.lost {segments : List (List Char)} (hlength : segments.length = pieces.length+1)
    (hsuffix : segments <:+
      PathSegments.rawSegments (String.ofList (spelled mark (pieces ++ [last])))) :
    segments = pieces ++ [last.rdropWhile isSpace] ∧ last.rdropWhile isSpace ≠ [] := by
  rw [h.rawSegments] at hsuffix
  cases hkept : isKept (last.rdropWhile isSpace) with
  | true =>
    rw [List.filter_cons_of_pos hkept, List.filter_nil] at hsuffix
    have heq := hsuffix.eq_of_length (by simpa using hlength)
    rw [isKept, decide_eq_true_eq] at hkept
    exact ⟨heq,hkept.1⟩
  | false =>
    rw [List.filter_cons_of_neg (by simp [hkept]), List.filter_nil, List.append_nil] at hsuffix
    have := hsuffix.length_le
    omega

end Whole

/-- Every extended prefix starts with the mark and a character no server starts with. -/
theorem stripExtendedPrefix_none {text : List Char}
    (h : ∀ rest, text ≠ uncMark ++ '?' :: rest ∧ text ≠ uncMark ++ '.' :: separator :: rest) :
    stripExtendedPrefix text = (text,false) := by
  have hnone : extendedPrefixes.find? (fun p => p.1.isPrefixOf (text.map Char.toUpper)) = none := by
    apply List.find?_eq_none.mpr
    intro p hp hprefix
    have hstarts : ∃ rest, text.map Char.toUpper = uncMark ++ '?' :: rest ∨
        text.map Char.toUpper = uncMark ++ '.' :: separator :: rest := by
      obtain ⟨rest,hrest⟩ := List.isPrefixOf_iff_prefix.mp hprefix
      simp only [extendedPrefixes, List.mem_cons, List.not_mem_nil, or_false] at hp
      rcases hp with rfl | rfl | rfl | rfl
      · exact ⟨_,Or.inl hrest.symm⟩
      · exact ⟨_,Or.inr hrest.symm⟩
      · exact ⟨_,Or.inl hrest.symm⟩
      · exact ⟨_,Or.inr hrest.symm⟩
    obtain ⟨rest,hrest | hrest⟩ := hstarts
    · obtain ⟨a,t,rfl,ha,ht⟩ := List.map_eq_cons_iff.mp hrest
      obtain ⟨b,t,rfl,hb,ht⟩ := List.map_eq_cons_iff.mp ht
      obtain ⟨c,t,rfl,hc,-⟩ := List.map_eq_cons_iff.mp ht
      rw [toUpper_mark (by decide) ha, toUpper_mark (by decide) hb,
        toUpper_mark (by decide) hc] at h
      exact (h t).1 rfl
    · obtain ⟨a,t,rfl,ha,ht⟩ := List.map_eq_cons_iff.mp hrest
      obtain ⟨b,t,rfl,hb,ht⟩ := List.map_eq_cons_iff.mp ht
      obtain ⟨c,t,rfl,hc,ht⟩ := List.map_eq_cons_iff.mp ht
      obtain ⟨d,t,rfl,hd,-⟩ := List.map_eq_cons_iff.mp ht
      rw [toUpper_mark (by decide) ha, toUpper_mark (by decide) hb, toUpper_mark (by decide) hc,
        toUpper_mark (by decide) hd] at h
      exact (h t).2 rfl
  unfold stripExtendedPrefix
  rw [hnone]

/-- The last piece does not end in a blank. -/
def EndsClean (pieces : List (List Char)) : Prop :=
  ∀ last ∈ pieces.getLast?, last.rdropWhile isSpace = last

/-! ### What the parsers return -/

namespace Unc

/-- The components of a UNC path. -/
def components (p : UncPath) : List (List Char) :=
  p.server :: p.share :: segmentsOf p.relativePath

theorem components_proper (p : UncPath) : ∀ s ∈ components p, Proper s := by
  intro s hs
  rcases List.mem_cons.mp hs with rfl | hs
  · exact validateComponent_iff.mp p.server_valid
  rcases List.mem_cons.mp hs with rfl | hs
  · exact validateComponent_iff.mp p.share_valid
  · exact validateComponent_iff.mp (p.segments_valid s hs)

theorem build_self (p : UncPath) : UncPath.build p.server p.share p.relativePath = .ok p := by
  have hserver := (validateComponent_iff.mp p.server_valid).1
  have hshare := (validateComponent_iff.mp p.share_valid).1
  unfold UncPath.build
  rw [if_neg hserver, if_neg hshare]
  split
  · rfl
  · rename_i e he
    rw [p.server_valid] at he
    cases he
  · rename_i e _ he
    rw [p.share_valid] at he
    cases he
  · rename_i e _ _ he
    rw [checkAll_iff.mpr p.segments_valid] at he
    cases he

theorem build_fields {server share relative : List Char} {p : UncPath}
    (h : UncPath.build server share relative = .ok p) :
    p.server = server ∧ p.share = share ∧ p.relativePath = relative := by
  unfold UncPath.build at h
  split_ifs at h
  split at h
  · cases h
    exact ⟨rfl,rfl,rfl⟩
  · cases h
  · cases h
  · cases h

theorem parse_iff {raw : String} {p : UncPath} : parseUncPath raw = .ok p ↔
    strip raw.toList ≠ [] ∧ uncMark.isPrefixOf (normalText raw) = true ∧
      ∃ server share rest, kept ((normalText raw).drop 2) = server :: share :: rest ∧
        ['.', '.'] ∉ kept ((normalText raw).drop 2) ∧
        UncPath.build server share ([separator].intercalate rest) = .ok p := by
  have htext : normalizeSeparators
      (stripExtendedPrefix (normalizeSeparators (strip raw.toList))).1 = normalText raw := rfl
  simp only [parseUncPath, htext]
  by_cases hempty : strip raw.toList = []
  · rw [if_pos hempty]
    constructor
    · intro h
      cases h
    · intro h
      exact absurd hempty h.1
  rw [if_neg hempty]
  by_cases hunc : uncMark.isPrefixOf (normalText raw) = true
  · rw [if_neg (by simpa using hunc)]
    constructor
    · intro h
      obtain ⟨segments,hclean,h⟩ := bind_ok.mp h
      have hread := cleanSegments_iff.mp hclean
      have hkept : segments = kept ((normalText raw).drop 2) := hread.1
      have hdots := hread.2
      rw [hkept] at hdots
      split at h
      · next server share rest =>
        exact ⟨hempty,hunc,server,share,rest,hkept.symm,hdots,h⟩
      · cases h
    · rintro ⟨-,-,server,share,rest,hsegments,hdots,h⟩
      apply bind_ok.mpr
      refine ⟨_,cleanSegments_iff.mpr ⟨rfl,hdots⟩,?_⟩
      rw [show (((normalText raw).drop 2).splitOn separator).filter isKept =
        server :: share :: rest from hsegments]
      exact h
  · rw [if_pos (by simpa using hunc)]
    constructor
    · intro h
      cases h
    · intro h
      exact absurd h.2.1 hunc

theorem components_parsed {raw : String} {p : UncPath} (h : parseUncPath raw = .ok p) :
    [separator].intercalate (segmentsOf p.relativePath) = p.relativePath ∧
      components p <:+ rawSegments raw := by
  obtain ⟨-,hunc,server,share,rest,hkept,hdots,hbuild⟩ := parse_iff.mp h
  obtain ⟨hserver,hshare,hrelative⟩ := build_fields hbuild
  have hrest : segmentsOf ([separator].intercalate rest) = rest := by
    cases rest with
    | nil => rfl
    | cons s rest =>
      have hmem : ∀ t ∈ s :: rest, t ∈ kept ((normalText raw).drop 2) := by
        intro t ht
        rw [hkept]
        exact List.mem_cons_of_mem _ (List.mem_cons_of_mem _ ht)
      rw [segmentsOf, List.splitOn_intercalate separator (fun t ht => (mem_kept (hmem t ht)).1)
        (List.cons_ne_nil _ _)]
      apply List.filter_eq_self.mpr
      intro t ht
      simpa using (mem_kept (hmem t ht)).2.1
  have hcomponents : components p = kept (normalText raw) := by
    rw [components, hserver, hshare, hrelative, hrest, ← hkept]
    conv_rhs => rw [isPrefix_unc hunc, kept_unc]
  constructor
  · rw [hrelative, hrest]
  · rw [hcomponents]
    exact normalText_kept raw

theorem value_spelled {p : UncPath}
    (hnormal : [separator].intercalate (segmentsOf p.relativePath) = p.relativePath) :
    p.value = String.ofList (spelled uncMark (components p)) := by
  simp only [UncPath.value, components]
  congr 1
  by_cases hroot : p.relativePath = []
  · have hnone : segmentsOf [] = [] := by simp [segmentsOf]
    rw [if_pos hroot, hroot, hnone, spelled, List.intercalate_cons_of_ne_nil (List.cons_ne_nil _ _),
      List.intercalate_singleton]
    simp only [List.append_assoc, List.cons_append, List.nil_append]
  · rw [if_neg hroot]
    have hsegments : segmentsOf p.relativePath ≠ [] := by
      intro hnone
      rw [hnone] at hnormal
      exact hroot hnormal.symm
    rw [spelled, List.intercalate_cons_of_ne_nil (List.cons_ne_nil _ _),
      List.intercalate_cons_of_ne_nil hsegments, hnormal]
    simp only [List.append_assoc, List.cons_append, List.nil_append]

/-- The components of a path make a text. -/
theorem whole (p : UncPath) : ∃ pieces last, components p = pieces ++ [last] ∧
    Whole uncMark pieces last ∧ Proper last := by
  have hproper := components_proper p
  have hlong : ∃ pieces last, components p = (p.server :: pieces) ++ [last] := by
    obtain hnil | ⟨pieces,last,hlast⟩ := List.eq_nil_or_concat
      (p.share :: segmentsOf p.relativePath)
    · cases hnil
    · exact ⟨pieces,last,by rw [components, hlast, List.concat_eq_append]; rfl⟩
  obtain ⟨pieces,last,hcomponents⟩ := hlong
  rw [hcomponents] at hproper
  have hlast := hproper last (by simp)
  refine ⟨p.server :: pieces,last,hcomponents,⟨Or.inr rfl,List.cons_ne_nil _ _,?_,hlast.free,?_⟩,
    hlast⟩
  · intro s hs
    have hs := hproper s (List.mem_append_left _ hs)
    exact ⟨hs.free,hs.isKept⟩
  · exact ⟨separator,by decide,rfl⟩

theorem unmarked (p : UncPath) {pieces : List (List Char)} {last : List Char}
    (hcomponents : components p = pieces ++ [last]) :
    stripExtendedPrefix (spelled uncMark (pieces ++ [last])) =
      (spelled uncMark (pieces ++ [last]),false) := by
  have hserver : Proper p.server := validateComponent_iff.mp p.server_valid
  rw [← hcomponents]
  apply stripExtendedPrefix_none
  intro rest
  have htext : spelled uncMark (components p) =
      uncMark ++ (p.server ++ separator :: [separator].intercalate
        (p.share :: segmentsOf p.relativePath)) := by
    rw [spelled, components, List.intercalate_cons_of_ne_nil (List.cons_ne_nil _ _)]
    simp only [List.append_assoc, List.singleton_append]
  rw [htext]
  generalize [separator].intercalate (p.share :: segmentsOf p.relativePath) = tail
  cases hs : p.server with
  | nil => exact absurd hs hserver.1
  | cons c s =>
    rw [hs] at hserver
    constructor
    · intro h
      have hc : c = '?' := (List.cons.inj (List.append_cancel_left h)).1
      have hvalid := hserver.2.2.2 c List.mem_cons_self
      rw [hc] at hvalid
      exact absurd hvalid (by decide)
    · intro h
      obtain ⟨rfl,hrest⟩ := List.cons.inj (List.append_cancel_left h)
      cases s with
      | nil => exact hserver.2.1 rfl
      | cons d s =>
        have hd : d = separator := (List.cons.inj hrest).1
        have hvalid := hserver.2.2.2 d (List.mem_cons_of_mem _ List.mem_cons_self)
        rw [hd] at hvalid
        exact absurd hvalid (by decide)

/-- A path that does not end in a blank is read from its text. -/
theorem parse_value {p : UncPath}
    (hnormal : [separator].intercalate (segmentsOf p.relativePath) = p.relativePath)
    (hclean : EndsClean (components p)) : parseUncPath p.value = .ok p := by
  obtain ⟨pieces,last,hcomponents,hwhole,hlast⟩ := whole p
  rw [EndsClean, hcomponents, List.getLast?_concat] at hclean
  have hnormalText := hwhole.normalText (hclean last rfl) (unmarked p hcomponents)
  rw [← hcomponents, ← value_spelled hnormal] at hnormalText
  have hkept : kept ((normalText p.value).drop 2) = components p := by
    rw [hnormalText]
    show kept ([separator].intercalate (components p)) = _
    rw [kept_join fun s hs => (components_proper p s hs).free.1]
    apply List.filter_eq_self.mpr
    intro s hs
    exact (components_proper p s hs).isKept
  apply parse_iff.mpr
  refine ⟨?_,?_,p.server,p.share,segmentsOf p.relativePath,hkept,?_,?_⟩
  · obtain ⟨c,hc,hhead⟩ := hwhole.starts
    rw [value_spelled hnormal, String.toList_ofList, hcomponents,
      strip_spelled hwhole.nonempty hc hhead]
    exact List.cons_ne_nil _ _
  · rw [hnormalText]
    exact List.isPrefixOf_iff_prefix.mpr (List.prefix_append _ _)
  · rw [hkept]
    intro hdots
    exact (components_proper p _ hdots).2.2.1 rfl
  · rw [hnormal]
    exact build_self p

/-- What is read from the text of a path that ends in a blank has other components. -/
theorem parse_lost {p q : UncPath} {g : List Char → List Char}
    (hnormal : [separator].intercalate (segmentsOf p.relativePath) = p.relativePath)
    (hg : ∀ s, s ≠ [] → s.rdropWhile isSpace = s → (g s).rdropWhile isSpace = g s)
    (hq : parseUncPath p.value = .ok q) (hsame : (components q).map g = components p) :
    EndsClean (components p) := by
  obtain ⟨pieces,last,hcomponents,hwhole,hlast⟩ := whole p
  obtain ⟨-,hsuffix⟩ := components_parsed hq
  rw [value_spelled hnormal, hcomponents] at hsuffix
  have hlength : (components q).length = pieces.length+1 := by
    rw [← List.length_map (f := g), hsame, hcomponents, List.length_append, List.length_singleton]
  obtain ⟨hread,hsome⟩ := hwhole.lost hlength hsuffix
  rw [hread, hcomponents, List.map_append] at hsame
  have hend := (List.append_inj' hsame rfl).2
  rw [List.map_singleton, List.singleton_inj] at hend
  rw [EndsClean, hcomponents, List.getLast?_concat]
  intro t ht
  rw [← Option.some.inj ht, ← hend]
  exact hg _ hsome (List.rdropWhile_idempotent isSpace last)

end Unc

namespace Drive

theorem isDrive_cases {d : List Char} (h : isDrive d = true) :
    ∃ letter : Char, letter.isAlpha = true ∧ (d = [letter, ':'] ∨ d = [letter, ':', '\n']) := by
  unfold isDrive at h
  split at h
  · exact ⟨_,h,Or.inl rfl⟩
  · exact ⟨_,h,Or.inr rfl⟩
  · cases h

theorem letter_plain {c : Char} (h : c.isAlpha = true) :
    isSpace c = false ∧ c ≠ separator ∧ c ≠ '/' := by
  have hplain : ∀ d : Char, d.isAlpha = false → c ≠ d := by
    rintro d hd rfl
    rw [h] at hd
    cases hd
  refine ⟨?_,hplain _ (by decide),hplain _ (by decide)⟩
  rw [← Bool.not_eq_true]
  intro hspace
  unfold isSpace at hspace
  have hcode := of_decide_eq_true hspace
  have hrange : (65 ≤ c.toNat ∧ c.toNat ≤ 90) ∨ (97 ≤ c.toNat ∧ c.toNat ≤ 122) := by
    simpa [Char.isAlpha, Char.isUpper, Char.isLower, UInt32.le_iff_toNat_le] using h
  simp only [List.mem_cons, List.not_mem_nil, or_false] at hcode
  omega

theorem drive_free {d : List Char} (h : isDrive d = true) :
    (separator ∉ d ∧ '/' ∉ d) ∧ isKept d = true := by
  obtain ⟨letter,hletter,hd⟩ := isDrive_cases h
  obtain ⟨-,hsep,hslash⟩ := letter_plain hletter
  rcases hd with rfl | rfl
  · refine ⟨⟨?_,?_⟩,by simp [isKept]⟩
    · simpa using ⟨hsep.symm,by decide⟩
    · simpa using hslash.symm
  · refine ⟨⟨?_,?_⟩,by simp [isKept]⟩
    · simpa using ⟨hsep.symm,by decide⟩
    · simpa using hslash.symm

/-- The text before the first separator, and behind it. -/
theorem partition_first {d rest : List Char} (h : separator ∉ d) :
    (d ++ separator :: rest).takeWhile (· ≠ separator) = d ∧
      (d ++ separator :: rest).drop (d.length+1) = rest := by
  constructor
  · rw [List.takeWhile_append_of_pos, List.takeWhile_cons_of_neg (by simp), List.append_nil]
    intro c hc
    have hne : c ≠ separator := by
      rintro rfl
      exact h hc
    simpa using hne
  · simp

theorem build_iff {d relative : List Char} {p : LocalPath} :
    LocalPath.build d relative = .ok p ↔ p.drive = d.map Char.toUpper ∧ p.relativePath = relative := by
  unfold LocalPath.build
  split_ifs with hd
  · split
    · rename_i e he
      constructor
      · intro h
        cases h
      · rintro ⟨-,rfl⟩
        rw [p.segments_checked] at he
        cases he
    · constructor
      · intro h
        cases h
        exact ⟨rfl,rfl⟩
      · rintro ⟨hdrive,hrelative⟩
        obtain ⟨drive,path,hd,hp⟩ := p
        simp only at hdrive hrelative
        subst hdrive hrelative
        rfl
  · constructor
    · intro h
      cases h
    · rintro ⟨hdrive,-⟩
      rw [← hdrive] at hd
      exact absurd p.drive_valid hd

theorem parse_iff {raw : String} {p : LocalPath} : parseLocalPath raw = .ok p ↔
    strip raw.toList ≠ [] ∧
      (stripExtendedPrefix (normalizeSeparators (strip raw.toList))).2 = false ∧
      ∃ d rest, normalText raw = d ++ separator :: rest ∧ isDrive d = true ∧
        ['.', '.'] ∉ kept rest ∧ p.drive = d.map Char.toUpper ∧
        p.relativePath = [separator].intercalate (kept rest) := by
  have htext : normalizeSeparators
      (stripExtendedPrefix (normalizeSeparators (strip raw.toList))).1 = normalText raw := rfl
  simp only [parseLocalPath, htext]
  by_cases hempty : strip raw.toList = []
  · rw [if_pos hempty]
    constructor
    · intro h
      cases h
    · intro h
      exact absurd hempty h.1
  rw [if_neg hempty]
  cases hunc : (stripExtendedPrefix (normalizeSeparators (strip raw.toList))).2 with
  | true =>
    constructor
    · intro h
      cases h
    · intro h
      cases h.2.1
  | false =>
    rw [if_neg Bool.false_ne_true]
    generalize normalText raw = text
    by_cases hdrive : ¬ isDrive (text.takeWhile (· ≠ separator)) ∨ separator ∉ text
    · rw [if_pos hdrive]
      constructor
      · intro h
        cases h
      · rintro ⟨-,-,d,rest,rfl,hd,-⟩
        rw [(partition_first (drive_free hd).1.1).1] at hdrive
        rcases hdrive with hno | hno
        · exact absurd hd hno
        · exact absurd (by simp) hno
    · rw [if_neg hdrive]
      rw [not_or, not_not, not_not] at hdrive
      obtain ⟨hd,hsep⟩ := hdrive
      obtain ⟨d,rest,htext,hfirst⟩ := List.eq_append_cons_of_mem hsep
      rw [htext] at hd ⊢
      obtain ⟨htake,hdrop⟩ := @partition_first d rest hfirst
      rw [htake] at hd ⊢
      rw [hdrop]
      constructor
      · intro h
        obtain ⟨segments,hclean,hbuild⟩ := bind_ok.mp h
        have hread := cleanSegments_iff.mp hclean
        have hkept : segments = kept rest := hread.1
        rw [hkept] at hread hbuild
        obtain ⟨hp,hrelative⟩ := build_iff.mp hbuild
        exact ⟨hempty,rfl,d,rest,rfl,hd,hread.2,hp,hrelative⟩
      · rintro ⟨-,-,d',rest',hsame,hd',hdots,hp,hrelative⟩
        obtain ⟨rfl,rfl⟩ := first_mark hfirst (drive_free hd').1.1 hsame
        apply bind_ok.mpr
        exact ⟨kept rest,cleanSegments_iff.mpr ⟨rfl,hdots⟩,build_iff.mpr ⟨hp,hrelative⟩⟩

/-- What follows the drive: the segments, or one empty piece at the root. -/
def below (p : LocalPath) : List (List Char) :=
  if segmentsOf p.relativePath = [] then [[]] else segmentsOf p.relativePath

theorem segments_proper (p : LocalPath) : ∀ s ∈ segmentsOf p.relativePath, Proper s :=
  fun s hs => validateComponent_iff.mp (p.segments_valid s hs)

theorem segments_parsed {raw : String} {p : LocalPath} (h : parseLocalPath raw = .ok p) :
    [separator].intercalate (segmentsOf p.relativePath) = p.relativePath ∧
      ∃ d, isDrive d = true ∧ p.drive = d.map Char.toUpper ∧
        d :: segmentsOf p.relativePath <:+ rawSegments raw := by
  obtain ⟨-,-,d,rest,htext,hd,-,hdrive,hrelative⟩ := parse_iff.mp h
  have hrest : segmentsOf ([separator].intercalate (kept rest)) = kept rest := by
    cases hkept : kept rest with
    | nil => simp [segmentsOf]
    | cons s segments =>
      have hmem : ∀ t ∈ s :: segments, t ∈ kept rest := by
        rw [hkept]
        exact fun t ht => ht
      rw [segmentsOf, List.splitOn_intercalate separator (fun t ht => (mem_kept (hmem t ht)).1)
        (List.cons_ne_nil _ _)]
      apply List.filter_eq_self.mpr
      intro t ht
      simpa using (mem_kept (hmem t ht)).2.1
  have hall : kept (normalText raw) = d :: kept rest := by
    rw [htext, kept_append]
    have hdrive : kept d = [d] := by
      rw [kept, List.splitOn_eq_singleton (drive_free hd).1.1, List.filter_cons_of_pos (drive_free hd).2]
      rfl
    rw [hdrive]
    rfl
  rw [hrelative, hrest]
  refine ⟨rfl,d,hd,hdrive,?_⟩
  rw [← hall]
  exact normalText_kept raw

theorem value_spelled {p : LocalPath}
    (hnormal : [separator].intercalate (segmentsOf p.relativePath) = p.relativePath)
    (d : List Char) : d ++ separator :: p.relativePath = spelled [] (d :: below p) := by
  unfold below
  split_ifs with hroot
  · rw [hroot] at hnormal
    rw [← hnormal, spelled, List.intercalate_cons_of_ne_nil (List.cons_ne_nil _ _),
      List.intercalate_singleton]
    simp
  · rw [spelled, List.intercalate_cons_of_ne_nil hroot, hnormal]
    simp

theorem whole (p : LocalPath) {d : List Char} (hd : isDrive d = true) :
    ∃ pieces last, below p = pieces ++ [last] ∧ Whole [] (d :: pieces) last ∧
      (last = [] ∨ segmentsOf p.relativePath = pieces ++ [last]) := by
  have hproper := segments_proper p
  have hstarts : ∀ pieces, ∃ c, isSpace c = false ∧ (spelled [] (d :: pieces)).head? = some c := by
    intro pieces
    obtain ⟨letter,hletter,hcases⟩ := isDrive_cases hd
    refine ⟨letter,(letter_plain hletter).1,?_⟩
    cases pieces with
    | nil => rcases hcases with rfl | rfl <;> rfl
    | cons s pieces =>
      rw [spelled, List.intercalate_cons_of_ne_nil (List.cons_ne_nil _ _)]
      rcases hcases with rfl | rfl <;> rfl
  unfold below
  split_ifs with hroot
  · refine ⟨[],[],rfl,⟨Or.inl rfl,List.cons_ne_nil _ _,?_,by simp,hstarts []⟩,Or.inl rfl⟩
    intro s hs
    rw [List.mem_singleton.mp hs]
    exact drive_free hd
  · obtain hnil | ⟨pieces,last,hlast⟩ := List.eq_nil_or_concat (segmentsOf p.relativePath)
    · exact absurd hnil hroot
    rw [List.concat_eq_append] at hlast
    rw [hlast] at hproper
    refine ⟨pieces,last,hlast,⟨Or.inl rfl,List.cons_ne_nil _ _,?_,
      (hproper last (by simp)).free,hstarts pieces⟩,Or.inr hlast⟩
    intro s hs
    rcases List.mem_cons.mp hs with rfl | hs
    · exact drive_free hd
    · have hs := hproper s (List.mem_append_left _ hs)
      exact ⟨hs.free,hs.isKept⟩

theorem unmarked {d : List Char} (hd : isDrive d = true) (rest : List Char) :
    stripExtendedPrefix (d ++ rest) = (d ++ rest,false) := by
  obtain ⟨letter,hletter,hcases⟩ := isDrive_cases hd
  have hsep := (letter_plain hletter).2.1
  apply stripExtendedPrefix_none
  intro tail
  constructor
  · intro h
    rcases hcases with rfl | rfl
    · exact hsep (List.cons.inj h).1
    · exact hsep (List.cons.inj h).1
  · intro h
    rcases hcases with rfl | rfl
    · exact hsep (List.cons.inj h).1
    · exact hsep (List.cons.inj h).1

/-- A path that does not end in a blank is read from its text, under either case of its drive. -/
theorem parse_text {p : LocalPath} {d : List Char}
    (hnormal : [separator].intercalate (segmentsOf p.relativePath) = p.relativePath)
    (hd : isDrive d = true) (hdrive : p.drive = d.map Char.toUpper)
    (hclean : EndsClean (below p)) :
    parseLocalPath (String.ofList (d ++ separator :: p.relativePath)) = .ok p := by
  obtain ⟨pieces,last,hbelow,hwhole,-⟩ := whole p hd
  rw [EndsClean, hbelow, List.getLast?_concat] at hclean
  have hspelled : d ++ separator :: p.relativePath = spelled [] ((d :: pieces) ++ [last]) := by
    rw [value_spelled hnormal d, hbelow]
    rfl
  have hplain := unmarked hd (separator :: p.relativePath)
  rw [hspelled] at hplain
  have hnormalText := hwhole.normalText (hclean last rfl) hplain
  obtain ⟨c,hc,hhead⟩ := hwhole.starts
  have hstrip := @strip_spelled [] (d :: pieces) last hwhole.nonempty c hc hhead
  rw [hclean last rfl] at hstrip
  apply parse_iff.mpr
  rw [hspelled, String.toList_ofList, hstrip, hwhole.normalized, hplain, hnormalText, ← hspelled]
  have hkept : kept p.relativePath = segmentsOf p.relativePath := by
    conv_lhs => rw [← hnormal]
    rw [kept_join fun s hs => (segments_proper p s hs).free.1]
    apply List.filter_eq_self.mpr
    intro s hs
    exact (segments_proper p s hs).isKept
  refine ⟨by simp,rfl,d,p.relativePath,rfl,hd,?_,hdrive,by rw [hkept, hnormal]⟩
  rw [hkept]
  intro hdots
  exact (segments_proper p _ hdots).2.2.1 rfl

/-- What is read from the text of a path that ends in a blank has other segments. -/
theorem parse_lost {p q : LocalPath} {d : List Char} {g : List Char → List Char}
    (hnormal : [separator].intercalate (segmentsOf p.relativePath) = p.relativePath)
    (hd : isDrive d = true)
    (hg : ∀ s, s ≠ [] → s.rdropWhile isSpace = s → (g s).rdropWhile isSpace = g s)
    (hq : parseLocalPath (String.ofList (d ++ separator :: p.relativePath)) = .ok q)
    (hsame : (segmentsOf q.relativePath).map g = segmentsOf p.relativePath) :
    EndsClean (below p) := by
  obtain ⟨pieces,last,hbelow,hwhole,hlast⟩ := whole p hd
  rw [EndsClean, hbelow, List.getLast?_concat]
  intro t ht
  rw [← Option.some.inj ht]
  rcases hlast with rfl | hlast
  · rfl
  obtain ⟨-,e,-,-,hsuffix⟩ := segments_parsed hq
  rw [value_spelled hnormal, hbelow, ← List.cons_append] at hsuffix
  have hlength : (e :: segmentsOf q.relativePath).length = (d :: pieces).length+1 := by
    rw [List.length_cons, ← List.length_map (f := g), hsame, hlast, List.length_append,
      List.length_singleton, List.length_cons]
  obtain ⟨hread,hsome⟩ := hwhole.lost hlength hsuffix
  have hsegments : segmentsOf q.relativePath = pieces ++ [last.rdropWhile isSpace] :=
    (List.cons.inj hread).2
  rw [hsegments, hlast, List.map_append] at hsame
  have hend := (List.append_inj' hsame rfl).2
  rw [List.map_singleton, List.singleton_inj] at hend
  rw [← hend]
  exact hg _ hsome (List.rdropWhile_idempotent isSpace last)

end Drive

end Adg.PathSpelling
