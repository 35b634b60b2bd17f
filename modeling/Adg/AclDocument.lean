import Adg.AclNormalForm
import Adg.TextRecords

/-!
# What the document of an ACL tells apart

Two documents are one text exactly when the flags agree and the entries stand
in one sequence, or are the same collection where the reading has no positions.
The sequence is the one of the padded decimals, which is the sequence of the
numbers as long as every number fits the width.
-/

set_option autoImplicit false

namespace Adg.AclDocument
open Adg.Observation Adg.SecurityIdentifier Adg.SortedLists Adg.AclNormalForm Adg.TextRecords
open Adg.Fallible (bind_ok)

/-! ### Entries -/

/-- What the document keeps of an entry: trustee, type, mask and flags. -/
abbrev Content := String × AceType × AccessMask × AceFlags

def content (f : AclAceFacts) : Content :=
  (f.trusteeSid.value,f.aceType,f.accessMask,f.aceFlags)

/-- An entry as text, by what it keeps. -/
def render : Content → String
  | (trustee,aceType,mask,flags) =>
    trustee ++ "|" ++ aceType.value ++ "|0x" ++ zeroPadded 16 8 mask.toNat ++ "|0x" ++
      zeroPadded 16 2 flags.toNat

theorem contentLine_render (f : AclAceFacts) : f.contentLine = render (content f) := rfl

theorem zeroPadded_toList (base width n : ℕ) :
    (zeroPadded base width n).toList = numeral base width n := String.toList_ofList

theorem mask_fits (mask : AccessMask) : mask.toNat < 16^8 := mask.isLt

theorem flags_fit (flags : AceFlags) : flags.toNat < 16^2 := flags.isLt

theorem mask_length (mask : AccessMask) : (numeral 16 8 mask.toNat).length = 8 :=
  numeral_length (by decide) (by decide) (mask_fits mask)

theorem flags_length (flags : AceFlags) : (numeral 16 2 flags.toNat).length = 2 :=
  numeral_length (by decide) (by decide) (flags_fit flags)

theorem aceType_ends {s t : List Char} {a b : AceType}
    (h : s ++ '|' :: a.value.toList = t ++ '|' :: b.value.toList) : s = t ∧ a = b := by
  have hlast := congrArg List.getLast? h
  cases a <;> cases b
  · exact ⟨List.append_cancel_right h,rfl⟩
  · simp [AceType.value, List.getLast?_append, List.getLast?_cons] at hlast
  · simp [AceType.value, List.getLast?_append, List.getLast?_cons] at hlast
  · exact ⟨List.append_cancel_right h,rfl⟩

/-- The text of an entry tells all that it keeps: the fields behind the trustee are read from
the end, where each has its width. -/
theorem render_injective : Function.Injective render := by
  rintro ⟨trustee,aceType,mask,flags⟩ ⟨trustee',aceType',mask',flags'⟩ h
  have htext := congrArg String.toList h
  simp only [render, String.toList_append, zeroPadded_toList] at htext
  obtain ⟨hfront,hflags⟩ := List.append_inj' htext (by rw [flags_length, flags_length])
  obtain ⟨hfront,hmask⟩ := List.append_inj' (List.append_cancel_right hfront)
    (by rw [mask_length, mask_length])
  have hnamed := List.append_cancel_right hfront
  rw [List.append_assoc, List.append_assoc] at hnamed
  obtain ⟨htrustee,rfl⟩ := aceType_ends hnamed
  have hm : mask = mask' := BitVec.eq_of_toNat_eq
    (numeral_injective (by decide) (by decide) (by decide) (mask_fits mask) (mask_fits mask')
      hmask)
  have hf : flags = flags' := BitVec.eq_of_toNat_eq
    (numeral_injective (by decide) (by decide) (by decide) (flags_fit flags) (flags_fit flags')
      hflags)
  rw [String.toList_inj.mp htrustee, hm, hf]

/-! ### No entry breaks a line -/

theorem numeral_line {base width n : ℕ} (hb : 1 < base) (hbase : base ≤ 16) :
    '\n' ∉ numeral base width n := by
  intro hmem
  obtain ⟨d,hd,heq⟩ := mem_numeral hb hbase hmem
  have hall : ∀ d < 16, '\n' ≠ d.digitChar := by decide
  exact hall d hd heq

theorem toString_line (n : ℕ) : '\n' ∉ (toString n).toList := by
  rw [Nat.toString_eq_ofList_toDigits, String.toList_ofList]
  intro hmem
  have hnumeral : '\n' ∈ numeral 10 0 n := List.mem_append_right _ hmem
  exact numeral_line (by decide) (by decide) hnumeral

theorem hexUpper_line (n : ℕ) : '\n' ∉ (hexUpper12 n).toList := by
  rw [hexUpper12, String.toList_ofList, List.mem_append, not_or]
  constructor
  · intro hmem
    exact absurd (List.eq_of_mem_replicate hmem) (by decide)
  · intro hmem
    obtain ⟨c,hc,hupper⟩ := List.mem_map.mp hmem
    have hnum : c ∈ numeral 16 0 n := List.mem_append_right _ hc
    obtain ⟨d,hd,rfl⟩ := mem_numeral (by decide) (by decide) hnum
    have hall : ∀ d < 16, d.digitChar.toUpper ≠ '\n' := by decide
    exact hall d hd hupper

theorem renderSid_line (parts : SidParts) : '\n' ∉ (renderSid parts).toList := by
  intro hmem
  rw [renderSid, String.toList_intercalate] at hmem
  rcases mem_intercalate hmem with hsep | ⟨piece,hpiece,hc⟩
  · exact absurd hsep (by decide)
  · obtain ⟨text,htext,rfl⟩ := List.mem_map.mp hpiece
    simp only [List.cons_append, List.nil_append, List.mem_cons, List.mem_map] at htext
    rcases htext with rfl | rfl | rfl | ⟨sub,-,rfl⟩
    · exact absurd hc (by decide)
    · exact toString_line _ hc
    · split_ifs at hc with hwide
      · rw [String.toList_append, List.mem_append] at hc
        rcases hc with hc | hc
        · exact absurd hc (by decide)
        · exact hexUpper_line _ hc
      · exact toString_line _ hc
    · exact toString_line _ hc

theorem canonical_rendered {raw value : String} (h : canonicalizeSid raw = .ok value) :
    ∃ parts, value = renderSid parts := by
  simp only [canonicalizeSid] at h
  split at h
  · cases h
  split at h
  · split at h
    · cases h
    split at h
    · cases h
    split at h
    · cases h
    split at h
    · cases h
    · exact ⟨_,(Except.ok.inj h).symm⟩
  · cases h

theorem sid_line (sid : Sid) : '\n' ∉ sid.value.toList := by
  obtain ⟨raw,hraw⟩ := sid.canonical
  obtain ⟨parts,hparts⟩ := canonical_rendered hraw
  rw [hparts]
  exact renderSid_line parts

theorem contentLine_line (f : AclAceFacts) : '\n' ∉ f.contentLine.toList := by
  have htype : '\n' ∉ f.aceType.value.toList := by
    cases f.aceType <;> decide
  simp only [AclAceFacts.contentLine, String.toList_append, zeroPadded_toList, List.mem_append,
    not_or]
  exact ⟨⟨⟨⟨⟨⟨sid_line _,by decide⟩,htype⟩,by decide⟩,numeral_line (by decide) (by decide)⟩,
    by decide⟩,numeral_line (by decide) (by decide)⟩

/-! ### Lines of the document -/

/-- Whether every entry has a position. -/
def positioned (a : List AclAceFacts) : Bool := a.all (·.orderIndex.isSome)

/-- What `normalize_acl` accepts: no entries without a DACL, and no position twice where all
are there. -/
def Admissible (daclPresent : Bool) (a : List AclAceFacts) : Prop :=
  (daclPresent = true ∨ a = []) ∧ (positioned a = true → (a.filterMap (·.orderIndex)).Nodup)

def entryLines (a : List AclAceFacts) : List String :=
  if positioned a then (sortedBy AclAceFacts.positionKey a).mapIdx fun rank entry =>
    "ace=" ++ toString rank ++ "|" ++ entry.contentLine
  else (sortedBy id (a.map (·.contentLine))).map fun line => "ace=-|" ++ line

def documentLines (daclPresent daclProtected : Bool) (a : List AclAceFacts) : List String :=
  ["adg-acl/1", "dacl_present=" ++ flagText daclPresent,
    "dacl_protected=" ++ flagText daclProtected,
    "order=" ++ if positioned a then "observed" else "unordered"] ++ entryLines a

def document (daclPresent daclProtected : Bool) (a : List AclAceFacts) : String :=
  String.join ((documentLines daclPresent daclProtected a).map (· ++ "\n"))

theorem repeated_nil {l : List ℕ} : repeated l = [] ↔ l.Nodup := by
  have hlength : repeated l = [] ↔ (l.filter fun index => 1 < l.count index).dedup = [] := by
    rw [← List.length_eq_zero_iff, repeated, sortedBy_length, List.length_eq_zero_iff]
  rw [hlength, List.dedup_eq_nil, List.filter_eq_nil_iff, List.nodup_iff_count_le_one]
  constructor
  · intro h x
    by_cases hx : x ∈ l
    · simpa using h x hx
    · rw [List.count_eq_zero_of_not_mem hx]
      omega
  · intro h x _
    simpa using h x

section Normalizing
variable {sha256 : String → String} {p q : Bool} {a : List AclAceFacts}

theorem aceLines_ok (h : positioned a = true → (a.filterMap (·.orderIndex)).Nodup) :
    aceLines a (positioned a) = .ok (entryLines a) := by
  unfold aceLines entryLines
  by_cases hpos : positioned a = true
  · rw [if_neg (by simp [hpos]), if_pos hpos]
    have hnone := repeated_nil.mpr (h hpos)
    simp only [hnone, ne_eq, not_true_eq_false, if_false]
  · rw [if_pos hpos, if_neg hpos]

/-- What is accepted, and the document of it. -/
theorem normalizeAcl_iff {n : NormalizedAcl} : normalizeAcl sha256 p q a = .ok n ↔
    Admissible p a ∧ n = ⟨document p q a,sha256 (document p q a),positioned a,a.length⟩ := by
  unfold normalizeAcl Admissible
  by_cases hnull : ¬ p = true ∧ a ≠ []
  · rw [if_pos hnull]
    constructor
    · intro h
      cases h
    · rintro ⟨⟨hp | ha,-⟩,-⟩
      · exact absurd hp hnull.1
      · exact absurd ha hnull.2
  · rw [if_neg hnull]
    have hpresent : p = true ∨ a = [] := by
      by_contra hno
      rw [not_or] at hno
      exact hnull hno
    by_cases hdistinct : positioned a = true → (a.filterMap (·.orderIndex)).Nodup
    · have hlines : aceLines a (a.all (·.orderIndex.isSome)) = .ok (entryLines a) :=
        aceLines_ok hdistinct
      simp only [hlines]
      constructor
      · intro h
        exact ⟨⟨hpresent,hdistinct⟩,(Except.ok.inj h).symm⟩
      · rintro ⟨-,rfl⟩
        rfl
    · rw [Classical.not_imp] at hdistinct
      have hfails : ∀ lines, aceLines a (a.all (·.orderIndex.isSome)) ≠ .ok lines := by
        intro lines hok
        unfold aceLines at hok
        rw [if_neg (by rw [show a.all (·.orderIndex.isSome) = true from hdistinct.1]; decide)] at hok
        have hdup : repeated (a.filterMap (·.orderIndex)) ≠ [] := by
          rw [Ne, repeated_nil]
          exact hdistinct.2
        simp only [if_pos hdup] at hok
        cases hok
      constructor
      · intro h
        obtain ⟨lines,hok,-⟩ := bind_ok.mp h
        exact absurd hok (hfails lines)
      · rintro ⟨⟨-,hd⟩,-⟩
        exact absurd (hd hdistinct.1) hdistinct.2

theorem normalizeAcl_admissible (h : Admissible p a) : normalizeAcl sha256 p q a =
    .ok ⟨document p q a,sha256 (document p q a),positioned a,a.length⟩ :=
  normalizeAcl_iff.mpr ⟨h,rfl⟩

end Normalizing

/-! ### Reading a document back -/

theorem entryLines_line {a : List AclAceFacts} {line : String} (h : line ∈ entryLines a) :
    '\n' ∉ line.toList := by
  unfold entryLines at h
  split_ifs at h
  · obtain ⟨rank,hrank,rfl⟩ := List.mem_mapIdx.mp h
    simp only [String.toList_append, List.mem_append, not_or]
    exact ⟨⟨⟨by decide,toString_line rank⟩,by decide⟩,contentLine_line _⟩
  · obtain ⟨text,htext,rfl⟩ := List.mem_map.mp h
    obtain ⟨entry,-,rfl⟩ := List.mem_map.mp ((mem_sortedBy id).mp htext)
    rw [String.toList_append, List.mem_append, not_or]
    exact ⟨by decide,contentLine_line entry⟩

theorem documentLines_line {p q : Bool} {a : List AclAceFacts} {line : String}
    (h : line ∈ documentLines p q a) : '\n' ∉ line.toList := by
  rcases List.mem_append.mp h with hhead | hentry
  · have hflag : ∀ flag, '\n' ∉ (flagText flag).toList := by decide
    simp only [List.mem_cons, List.not_mem_nil, or_false] at hhead
    rcases hhead with rfl | rfl | rfl | rfl
    · decide
    · rw [String.toList_append, List.mem_append, not_or]
      exact ⟨by decide,hflag p⟩
    · rw [String.toList_append, List.mem_append, not_or]
      exact ⟨by decide,hflag q⟩
    · cases positioned a <;> decide
  · exact entryLines_line hentry

theorem document_toList (p q : Bool) (a : List AclAceFacts) :
    (document p q a).toList = terminated '\n' ((documentLines p q a).map String.toList) := by
  rw [document, String.toList_join, terminated, List.flatMap_map, List.flatMap_map]
  congr 1
  funext line
  exact String.toList_append

/-- A document is the text of its lines and of no others. -/
theorem document_inj {p q p' q' : Bool} {a b : List AclAceFacts} :
    document p q a = document p' q' b ↔ documentLines p q a = documentLines p' q' b := by
  constructor
  · intro h
    have htext := congrArg String.toList h
    rw [document_toList, document_toList] at htext
    have hlines := terminated_injective ?_ ?_ htext
    · exact List.map_injective_iff.mpr (fun _ _ => String.toList_inj.mp) hlines
    · intro line hline
      obtain ⟨text,htext,rfl⟩ := List.mem_map.mp hline
      exact documentLines_line htext
    · intro line hline
      obtain ⟨text,htext,rfl⟩ := List.mem_map.mp hline
      exact documentLines_line htext
  · intro h
    rw [document, document, h]

/-- Ranked lines tell the sequence of what the entries keep. -/
theorem ranked_inj {l m : List AclAceFacts} :
    (l.mapIdx fun rank entry => "ace=" ++ toString rank ++ "|" ++ entry.contentLine) =
        (m.mapIdx fun rank entry => "ace=" ++ toString rank ++ "|" ++ entry.contentLine) ↔
      l.map content = m.map content := by
  constructor
  · intro h
    have hlength : l.length = m.length := by
      have := congrArg List.length h
      rwa [List.length_mapIdx, List.length_mapIdx] at this
    apply List.ext_getElem
    · rw [List.length_map, List.length_map, hlength]
    · intro i hi hj
      rw [List.length_map] at hi hj
      have hline := List.getElem_of_eq h (by rwa [List.length_mapIdx])
      rw [List.getElem_mapIdx, List.getElem_mapIdx] at hline
      have hcontent := (String.append_right_inj _).mp hline
      rw [contentLine_render, contentLine_render] at hcontent
      rw [List.getElem_map, List.getElem_map]
      exact render_injective hcontent
  · intro h
    have hrender : ∀ k : List AclAceFacts,
        (k.mapIdx fun rank entry => "ace=" ++ toString rank ++ "|" ++ entry.contentLine) =
          (k.map content).mapIdx fun rank c => "ace=" ++ toString rank ++ "|" ++ render c := by
      intro k
      apply List.ext_getElem
      · simp
      · intro i _ _
        simp [contentLine_render]
    rw [hrender, hrender, h]

/-- Unranked lines tell the collection of what the entries keep. -/
theorem unranked_inj {a b : List AclAceFacts} :
    ((sortedBy id (a.map (·.contentLine))).map fun line => "ace=-|" ++ line) =
        ((sortedBy id (b.map (·.contentLine))).map fun line => "ace=-|" ++ line) ↔
      (a.map content).Perm (b.map content) := by
  have hlines : ∀ k : List AclAceFacts, k.map (·.contentLine) = (k.map content).map render := by
    intro k
    rw [List.map_map]
    rfl
  constructor
  · intro h
    have hsorted := List.map_injective_iff.mpr (fun _ _ => (String.append_right_inj _).mp) h
    have hperm := (sortedBy_perm id (a.map AclAceFacts.contentLine)).symm.trans
      (hsorted ▸ sortedBy_perm id (b.map AclAceFacts.contentLine))
    rw [hlines, hlines] at hperm
    exact (List.map_perm_map_iff render_injective).mp hperm
  · intro h
    congr 1
    have hperm := h.map render
    rw [← hlines, ← hlines] at hperm
    apply List.Perm.eq_of_pairwise (fun _ _ _ _ hab hba => le_antisymm hab hba)
      (sortedBy_ordered id _) (sortedBy_ordered id _)
    exact ((sortedBy_perm id _).trans hperm).trans (sortedBy_perm id _).symm

/-! ### One text, one ACL -/

/-- The reported place of an entry. -/
def position (f : AclAceFacts) : ℕ := f.orderIndex.getD 0

/-- The entries in the numeric order of their places. -/
def byPosition (a : List AclAceFacts) : List AclAceFacts := sortedBy position a

/-- Two inputs are one ACL: the flags agree, and either both are fully placed with the same
entries in one order, or neither is and the entries are the same collection. -/
def SameAcl (p q : Bool) (a : List AclAceFacts) (p' q' : Bool) (b : List AclAceFacts) : Prop :=
  (p = p' ∧ q = q') ∧
    ((positioned a = true ∧ positioned b = true ∧
        (byPosition a).map content = (byPosition b).map content) ∨
      (positioned a = false ∧ positioned b = false ∧ (a.map content).Perm (b.map content)))

/-- The entries stand in one sequence, by the padded decimals of their places as by the
numbers. -/
def InOrder (a : List AclAceFacts) : Prop := positioned a = true →
  (sortedBy AclAceFacts.positionKey a).map content = (byPosition a).map content

/-- Documents are equal when flags, kind of reading and lines of the entries are. -/
theorem documentLines_inj {p q p' q' : Bool} {a b : List AclAceFacts} :
    documentLines p q a = documentLines p' q' b ↔
      ((p = p' ∧ q = q') ∧ positioned a = positioned b) ∧ entryLines a = entryLines b := by
  have hflag : ∀ s t : Bool, flagText s = flagText t → s = t := by decide
  have horder : ∀ s t : Bool, (if s = true then "observed" else "unordered") =
      (if t = true then "observed" else "unordered") → s = t := by decide
  constructor
  · intro h
    simp only [documentLines, List.cons_append, List.nil_append, List.cons.injEq, true_and] at h
    obtain ⟨hp,hq,hmode,hentries⟩ := h
    exact ⟨⟨⟨hflag _ _ ((String.append_right_inj _).mp hp),
      hflag _ _ ((String.append_right_inj _).mp hq)⟩,
      horder _ _ ((String.append_right_inj _).mp hmode)⟩,hentries⟩
  · rintro ⟨⟨⟨rfl,rfl⟩,hmode⟩,hentries⟩
    rw [documentLines, documentLines, hmode, hentries]

/-- One text is one sequence by the padded decimals, or one collection. -/
theorem document_iff {p q p' q' : Bool} {a b : List AclAceFacts} :
    document p q a = document p' q' b ↔ (p = p' ∧ q = q') ∧
      ((positioned a = true ∧ positioned b = true ∧
          (sortedBy AclAceFacts.positionKey a).map content =
            (sortedBy AclAceFacts.positionKey b).map content) ∨
        (positioned a = false ∧ positioned b = false ∧ (a.map content).Perm (b.map content))) := by
  rw [document_inj, documentLines_inj, and_assoc, and_congr_right_iff]
  intro _
  unfold entryLines
  cases positioned a with
  | true =>
    cases positioned b with
    | true => simpa using ranked_inj
    | false => simp
  | false =>
    cases positioned b with
    | true => simp
    | false => simpa using unranked_inj

theorem document_same {p q p' q' : Bool} {a b : List AclAceFacts} (ha : InOrder a)
    (hb : InOrder b) : document p q a = document p' q' b ↔ SameAcl p q a p' q' b := by
  rw [document_iff, SameAcl, and_congr_right_iff]
  intro _
  apply or_congr_left
  rw [and_congr_right_iff]
  intro hposa
  rw [and_congr_right_iff]
  intro hposb
  rw [ha hposa, hb hposb]

/-! ### When the padded decimals stand as the numbers -/

/-- Places that one width holds are ordered by their keys as by their numbers. -/
theorem key_lt {width : ℕ} (hw : 0 < width) {f g : AclAceFacts}
    (hf : numeral 10 10 (position f) = numeral 10 width (position f))
    (hg : numeral 10 10 (position g) = numeral 10 width (position g))
    (hlt : position f < position g) (hfit : position g < 10^width) :
    f.positionKey < g.positionKey := by
  apply String.lt_iff_toList_lt.mpr
  simp only [AclAceFacts.positionKey, String.toList_append, zeroPadded_toList, List.append_assoc]
  rw [show f.orderIndex.getD 0 = position f from rfl, show g.orderIndex.getD 0 = position g from rfl,
    hf, hg]
  apply append_lt_append _ (numeral_lt (by decide) (by decide) hw hlt hfit)
  rw [numeral_length (by decide) hw (hlt.trans hfit), numeral_length (by decide) hw hfit]

section Placed
variable {a : List AclAceFacts} (hpos : positioned a = true)
  (hdistinct : (a.filterMap (·.orderIndex)).Nodup)
include hpos hdistinct

/-- Distinct places make the numeric order strict. -/
theorem byPosition_strict : (byPosition a).Pairwise fun f g => position f < position g := by
  have hplaces : a.filterMap (·.orderIndex) = a.map position := by
    rw [← List.filterMap_eq_map]
    apply List.filterMap_congr
    intro e he
    have hsome := List.all_eq_true.mp hpos e he
    obtain ⟨i,hi⟩ := Option.isSome_iff_exists.mp hsome
    simp [position, hi]
  rw [hplaces] at hdistinct
  have hnodup : ((byPosition a).map position).Nodup :=
    ((sortedBy_perm position a).map position).nodup_iff.mpr hdistinct
  have hne := List.pairwise_map.mp hnodup
  apply (hne.and (sortedBy_ordered position a)).imp
  intro f g h
  exact lt_of_le_of_ne h.2 h.1

theorem inOrder_of_width {width : ℕ} (hw : 0 < width) (hfit : ∀ e ∈ a,
    numeral 10 10 (position e) = numeral 10 width (position e) ∧ position e < 10^width) :
    InOrder a := by
  intro _
  have hkeys : (byPosition a).Pairwise fun f g => f.positionKey < g.positionKey := by
    apply (byPosition_strict hpos hdistinct).imp_of_mem
    intro f g hf hg hlt
    have hf := hfit f ((mem_sortedBy position).mp hf)
    have hg := hfit g ((mem_sortedBy position).mp hg)
    exact key_lt hw hf.1 hg.1 hlt hg.2
  rw [sortedBy_eq_of_perm _ (sortedBy_perm position a).symm hkeys]
  rfl

end Placed

/-- Places of ten digits are in order. -/
theorem inOrder_of_small {p : Bool} {a : List AclAceFacts} (ha : Admissible p a)
    (hsmall : ∀ e ∈ a, position e < 10^10) : InOrder a := by
  intro hpos
  exact inOrder_of_width hpos (ha.2 hpos) (by decide) (fun e he => ⟨rfl,hsmall e he⟩) hpos

/-- The entries in their numeric order, at places that all have one number of digits. -/
def respaced (a : List AclAceFacts) : List AclAceFacts :=
  (byPosition a).mapIdx fun i entry => { entry with orderIndex := some (10^(a.length+10)+i) }

theorem respaced_content (a : List AclAceFacts) :
    (respaced a).map content = (byPosition a).map content := by
  apply List.ext_getElem
  · simp [respaced]
  · intro i _ _
    simp [respaced, content]

theorem respaced_positioned (a : List AclAceFacts) : positioned (respaced a) = true := by
  apply List.all_eq_true.mpr
  intro e he
  obtain ⟨i,_,rfl⟩ := List.mem_mapIdx.mp he
  rfl

theorem respaced_strict (a : List AclAceFacts) :
    (respaced a).Pairwise fun f g => position f < position g := by
  apply List.pairwise_iff_getElem.mpr
  intro i j hi hj hij
  simp only [respaced, List.getElem_mapIdx, position, Option.getD_some]
  omega

theorem respaced_byPosition (a : List AclAceFacts) : byPosition (respaced a) = respaced a :=
  sortedBy_eq_of_perm position (List.Perm.refl _) (respaced_strict a)

theorem respaced_distinct (a : List AclAceFacts) :
    ((respaced a).filterMap (·.orderIndex)).Nodup := by
  have hplaces : (respaced a).filterMap (·.orderIndex) = (respaced a).map position := by
    rw [← List.filterMap_eq_map]
    apply List.filterMap_congr
    intro e he
    obtain ⟨i,_,rfl⟩ := List.mem_mapIdx.mp he
    rfl
  rw [hplaces]
  apply List.pairwise_map.mpr
  exact (respaced_strict a).imp fun h => h.ne

theorem respaced_inOrder (a : List AclAceFacts) : InOrder (respaced a) := by
  have hwidth : 0 < a.length+11 := by omega
  apply inOrder_of_width (respaced_positioned a) (respaced_distinct a) hwidth
  intro e he
  obtain ⟨i,hi,rfl⟩ := List.mem_mapIdx.mp he
  rw [byPosition, sortedBy_length] at hi
  set place := 10^(a.length+10)+i with hplace
  have hshort : a.length < 10^(a.length+10) :=
    (Nat.lt_pow_self (by decide)).trans_le (Nat.pow_le_pow_right (by decide) (by omega))
  have hfit : place < 10^(a.length+11) := by
    rw [show a.length+11 = (a.length+10)+1 from rfl, Nat.pow_succ]
    omega
  have hle := (Nat.length_toDigits_le_iff (b := 10) (by decide) (by omega)).mpr hfit
  have hge : ¬ (Nat.toDigits 10 place).length ≤ a.length+10 := by
    rw [Nat.length_toDigits_le_iff (by decide) (by omega)]
    omega
  refine ⟨?_,hfit⟩
  show numeral 10 10 place = numeral 10 (a.length+11) place
  rw [numeral, numeral, show 10-(Nat.toDigits 10 place).length = 0 by omega,
    show a.length+11-(Nat.toDigits 10 place).length = 0 by omega]

/-- The document is a canonical form on the inputs whose padded decimals stand in the order of
the numbers, and on no other: an input out of that order is told from its own respacing. Places
below ten to the tenth are in order. -/
theorem canonical_form (sha256 : String → String) {p q : Bool} {a : List AclAceFacts}
    {n : NormalizedAcl} (h : normalizeAcl sha256 p q a = .ok n) :
    ((∀ p' q' b m, normalizeAcl sha256 p' q' b = .ok m → InOrder b →
        (n.text = m.text ↔ SameAcl p q a p' q' b)) ↔ InOrder a) ∧
      ((∀ e ∈ a, position e < 10^10) → InOrder a) := by
  obtain ⟨hadmissible,rfl⟩ := normalizeAcl_iff.mp h
  constructor
  · constructor
    · intro hcanonical hpos
      have hother : Admissible p (respaced a) := by
        refine ⟨?_,fun _ => respaced_distinct a⟩
        rcases hadmissible.1 with hp | rfl
        · exact Or.inl hp
        · exact Or.inr rfl
      have hsame : SameAcl p q a p q (respaced a) := by
        refine ⟨⟨rfl,rfl⟩,Or.inl ⟨hpos,respaced_positioned a,?_⟩⟩
        rw [respaced_byPosition, respaced_content]
      have htext : document p q a = document p q (respaced a) :=
        (hcanonical p q (respaced a) _ (normalizeAcl_admissible hother)
          (respaced_inOrder a)).mpr hsame
      rcases (document_iff.mp htext).2 with ⟨-,-,hkeys⟩ | ⟨hneg,-⟩
      · rw [hkeys, respaced_inOrder a (respaced_positioned a), respaced_byPosition,
          respaced_content]
      · rw [hpos] at hneg
        cases hneg
    · intro ha p' q' b m hb hinb
      obtain ⟨-,rfl⟩ := normalizeAcl_iff.mp hb
      exact document_same ha hinb
  · exact inOrder_of_small hadmissible

theorem users_canonical : ∃ raw, canonicalizeSid raw = .ok "S-1-5-32-545" :=
  ⟨"S-1-5-32-545",by decide⟩

theorem guests_canonical : ∃ raw, canonicalizeSid raw = .ok "S-1-5-32-546" :=
  ⟨"S-1-5-32-546",by decide⟩

/-- Users are granted, and guests denied, at two places of one DACL. -/
def usersBeforeGuests (users guests : ℕ) : List AclAceFacts :=
  [⟨⟨"S-1-5-32-545",users_canonical⟩,.allow,0x1200a9,0,some users⟩,
    ⟨⟨"S-1-5-32-546",guests_canonical⟩,.deny,0x1f01ff,0,some guests⟩]

/-- Places of one digit: a document that is canonical. -/
theorem small_places_canonical : ∃ n, normalizeAcl id true false (usersBeforeGuests 0 1) = .ok n ∧
    InOrder (usersBeforeGuests 0 1) := by
  have haccepted : Admissible true (usersBeforeGuests 0 1) := ⟨Or.inl rfl,fun _ => by decide⟩
  have hok := @normalizeAcl_admissible id true false _ haccepted
  exact ⟨_,hok,(canonical_form id hok).2 (by decide)⟩

/-- The second place has one digit more than the padding: the two entries change sides in the
text, which is then not the text of the same two entries at places zero and one. -/
theorem long_place_overtakes :
    ¬ ∀ (p q p' q' : Bool) (a b : List AclAceFacts) (n m : NormalizedAcl),
      normalizeAcl id p q a = .ok n → normalizeAcl id p' q' b = .ok m →
        (n.text = m.text ↔ SameAcl p q a p' q' b) := by
  intro hclaim
  have hsmall : Admissible true (usersBeforeGuests 0 1) := ⟨Or.inl rfl,fun _ => by decide⟩
  have hlong : Admissible true (usersBeforeGuests 9999999999 10000000000) :=
    ⟨Or.inl rfl,fun _ => by decide⟩
  have hiff := hclaim true false true false _ _ _ _ (normalizeAcl_admissible hsmall)
    (normalizeAcl_admissible hlong)
  have hsame : SameAcl true false (usersBeforeGuests 0 1) true false
      (usersBeforeGuests 9999999999 10000000000) :=
    ⟨⟨rfl,rfl⟩,Or.inl ⟨rfl,rfl,by decide +kernel⟩⟩
  have htext : document true false (usersBeforeGuests 0 1) ≠
      document true false (usersBeforeGuests 9999999999 10000000000) := by decide +kernel
  exact htext (hiff.mpr hsame)

end Adg.AclDocument
