import Adg.RightsAlgebra

/-!
# Naming a mask

A category names a set of bits, and a mask is described by a category when it
holds them all. What the reported categories do not cover is reported beside
them, so a label never overstates a mask and never drops a right of it.
-/

set_option autoImplicit false

namespace Adg.RightsCategories
open Adg.Observation Adg.RightsAlgebra

inductive RightsCategory where
  | none
  | traverse
  | read
  | write
  | readExecute
  | modify
  | fullControl
  | special
  deriving DecidableEq, Repr

namespace RightsCategory

def value : RightsCategory → String
  | none => "none"
  | traverse => "traverse"
  | read => "read"
  | write => "write"
  | readExecute => "read_execute"
  | modify => "modify"
  | fullControl => "full_control"
  | special => "special"

/-- `RightsCategory(text)`. -/
def ofValue (text : String) : Option RightsCategory :=
  [none, traverse, read, write, readExecute, modify, fullControl, special].find? (·.value = text)

/-- `_CATEGORY_DISPLAY_NAMES`. -/
def displayName : RightsCategory → String
  | none => "No access"
  | traverse => "Traverse"
  | read => "Read"
  | write => "Write"
  | readExecute => "Read & Execute"
  | modify => "Modify"
  | fullControl => "Full Control"
  | special => "Special permissions"

/-- `CATEGORY_REQUIRED_MASKS.get`. -/
def requiredMask : RightsCategory → Option AccessMask
  | fullControl => some 0x000F01FF#32
  | modify => some 0x000301BF#32
  | readExecute => some 0x000200A9#32
  | write => some 0x00000116#32
  | read => some 0x00020089#32
  | traverse => some 0x00000020#32
  | none => Option.none
  | special => Option.none

/-- The bits of a category that names some. -/
def bits (c : RightsCategory) : AccessMask := c.requiredMask.getD 0

/-- The categories that name bits, highest first. -/
def ladder : List RightsCategory := [fullControl, modify, readExecute, write, read, traverse]

end RightsCategory

open RightsCategory (bits ladder requiredMask displayName)

def holds (mask : AccessMask) (c : RightsCategory) : Bool := mask &&& c.bits = c.bits

/-- Of the categories held, those that none of the others implies. -/
def maximal (held : List RightsCategory) : List RightsCategory :=
  held.filter fun c => !held.any fun other => other ≠ c && holds other.bits c

/-- `_contained_categories`. -/
def containedCategories (mask : AccessMask) : List RightsCategory :=
  maximal (ladder.filter (holds mask))

structure RightsSummary where
  raw : RightsMask
  normalized : RightsMask
  primary : RightsCategory
  categories : List RightsCategory
  coveredMask : AccessMask
  extraBits : AccessMask
  unrecognizedBits : AccessMask
  indeterminate : Bool

/-- The union of what some categories name. -/
def covered (categories : List RightsCategory) : AccessMask :=
  categories.foldl (fun mask c => mask ||| c.bits) 0

/-- The first category, where there is one. -/
def primaryOf (mask : AccessMask) : List RightsCategory → RightsCategory
  | c :: _ => c
  | [] => if mask &&& ~~~NtfsRight.synchronize ≠ 0 then .special else .none

def summarize (mask : RightsMask) : RightsSummary :=
  let normalized := mask.expandGenerics
  let categories := containedCategories normalized.value
  { raw := mask
    normalized := normalized
    primary := primaryOf normalized.value categories
    categories := categories
    coveredMask := covered categories
    extraBits := normalized.value &&& ~~~covered categories &&& ~~~NtfsRight.synchronize
    unrecognizedBits := normalized.unrecognizedBits
    indeterminate := normalized.isIndeterminate }

namespace RightsSummary

def isExact (s : RightsSummary) : Bool := s.extraBits = 0 && !s.indeterminate

def specialPermissionBits (s : RightsSummary) : AccessMask :=
  s.extraBits &&& ~~~ExtendedRight.maximumAllowed

/-- A rendering in one line. -/
def label (s : RightsSummary) : String :=
  match s.primary with
  | .none => RightsCategory.none.displayName
  | primary =>
    let base := match primary with
      | .special => RightsCategory.special.displayName
      | _ =>
        let names := ", ".intercalate (s.categories.map displayName)
        if s.specialPermissionBits ≠ 0 then names ++ " (plus special permissions)" else names
    if s.indeterminate then base ++ " (indeterminate: MAXIMUM_ALLOWED)" else base

end RightsSummary

/-! ### What a list of categories says -/

theorem holds_bit {mask : AccessMask} {c : RightsCategory} (h : holds mask c = true) {i : ℕ}
    (hi : c.bits.getLsbD i = true) : mask.getLsbD i = true := by
  have hand := congrArg (fun m => m.getLsbD i) (of_decide_eq_true h)
  simpa [hi] using hand

theorem holds_of_bits {mask : AccessMask} {c : RightsCategory}
    (h : ∀ i, c.bits.getLsbD i = true → mask.getLsbD i = true) : holds mask c = true := by
  apply decide_eq_true
  apply BitVec.eq_of_getLsbD_eq
  intro i hi
  rw [BitVec.getLsbD_and]
  cases hc : c.bits.getLsbD i with
  | false => simp
  | true => simp [h i hc]

theorem holds_trans {mask : AccessMask} {c d : RightsCategory} (h : holds mask c = true)
    (hd : holds c.bits d = true) : holds mask d = true :=
  holds_of_bits fun _ hi => holds_bit h (holds_bit hd hi)

theorem covered_bit {categories : List RightsCategory} {i : ℕ} :
    (covered categories).getLsbD i = true ↔ ∃ c ∈ categories, c.bits.getLsbD i = true := by
  have hfold : ∀ start : AccessMask,
      (categories.foldl (fun mask c => mask ||| c.bits) start).getLsbD i = true ↔
        start.getLsbD i = true ∨ ∃ c ∈ categories, c.bits.getLsbD i = true := by
    induction categories with
    | nil => simp
    | cons c rest ih =>
      intro start
      rw [List.foldl_cons, ih]
      simp [or_assoc]
  unfold covered
  rw [hfold]
  simp

/-- Among some of the ladder, each is implied by one that none of the others implies. -/
theorem maximal_above : ∀ held ∈ ladder.sublists, ∀ c ∈ held,
    ∃ d ∈ maximal held, holds d.bits c = true := by
  decide

/-- Of two that are kept neither implies the other. -/
theorem maximal_apart {held : List RightsCategory} {c d : RightsCategory} (hc : c ∈ maximal held)
    (hd : d ∈ maximal held) (h : holds d.bits c = true) : c = d := by
  have hkept := (List.mem_filter.mp hc).2
  have hheld := (List.mem_filter.mp hd).1
  by_contra hne
  have hany : held.any (fun other => other ≠ c && holds other.bits c) = true :=
    List.any_eq_true.mpr ⟨d,hheld,by simp [h, Ne.symm hne]⟩
  rw [hany] at hkept
  cases hkept

theorem mem_contained {mask : AccessMask} {c : RightsCategory} (h : c ∈ containedCategories mask) :
    holds mask c = true :=
  (List.mem_filter.mp (List.mem_filter.mp h).1).2

/-- A category is held exactly where a reported one implies it. -/
theorem holds_iff {mask : AccessMask} {c : RightsCategory} (hc : c ∈ ladder) :
    holds mask c = true ↔ ∃ d ∈ containedCategories mask, holds d.bits c = true := by
  constructor
  · intro h
    exact maximal_above _ (List.mem_sublists.mpr List.filter_sublist) c
      (List.mem_filter.mpr ⟨hc,h⟩)
  · rintro ⟨d,hd,himplied⟩
    exact holds_trans (mem_contained hd) himplied

/-! ### Thresholds and bands -/

/-- `_reaches`. -/
def reaches (mask : RightsMask) (c : RightsCategory) : Bool :=
  match c.requiredMask with
  | none => false
  | some required => mask.expandGenerics.value &&& required = required

theorem reaches_holds {mask : RightsMask} {c : RightsCategory} (hc : c ∈ ladder) :
    reaches mask c = holds mask.expandGenerics.value c := by
  cases c with
  | none => exact absurd hc (by decide)
  | special => exact absurd hc (by decide)
  | _ => rfl

theorem reaches_ladder {mask : RightsMask} {c : RightsCategory} (h : reaches mask c = true) :
    c ∈ ladder := by
  cases c <;> first | decide | exact absurd h (by simp [reaches, requiredMask])

/-! ### What a rendering says -/

/-- What a reader of the rendering may rely on. -/
structure Faithful (mask : RightsMask) (s : RightsSummary) : Prop where
  /-- Every right a reported category names is held. -/
  held : ∀ c ∈ s.categories, holds mask.expandGenerics.value c = true
  /-- No reported category is implied by another. -/
  apart : ∀ c ∈ s.categories, ∀ d ∈ s.categories, holds d.bits c = true → c = d
  /-- A threshold is met exactly where a reported category implies it. -/
  thresholds : ∀ c ∈ ladder, reaches mask c = true ↔ ∃ d ∈ s.categories, holds d.bits c = true
  /-- The categories, the bits beside them and the wait handle make up the mask. -/
  whole : s.coveredMask ||| s.extraBits ||| (mask.expandGenerics.value &&& NtfsRight.synchronize) =
    mask.expandGenerics.value
  /-- Nothing is said to be held exactly where nothing but the wait handle is. -/
  nothing : s.primary = .none ↔ mask.expandGenerics.value &&& ~~~NtfsRight.synchronize = 0

theorem covered_within {mask : AccessMask} {i : ℕ}
    (h : (covered (containedCategories mask)).getLsbD i = true) : mask.getLsbD i = true := by
  obtain ⟨c,hc,hi⟩ := covered_bit.mp h
  exact holds_bit (mem_contained hc) hi

theorem contained_named {mask : AccessMask} {c : RightsCategory}
    (hc : c ∈ containedCategories mask) : c ≠ .none ∧ c.bits &&& ~~~NtfsRight.synchronize ≠ 0 := by
  have hall : ∀ d ∈ ladder, d ≠ .none ∧ d.bits &&& ~~~NtfsRight.synchronize ≠ 0 := by decide
  exact hall c (List.mem_filter.mp (List.mem_filter.mp hc).1).1

theorem summarize_whole (mask : RightsMask) :
    (summarize mask).coveredMask ||| (summarize mask).extraBits |||
      (mask.expandGenerics.value &&& NtfsRight.synchronize) = mask.expandGenerics.value := by
  apply BitVec.eq_of_getLsbD_eq
  intro i hi
  show (covered (containedCategories mask.expandGenerics.value) |||
    mask.expandGenerics.value &&& ~~~covered (containedCategories mask.expandGenerics.value) &&&
      ~~~NtfsRight.synchronize |||
    mask.expandGenerics.value &&& NtfsRight.synchronize).getLsbD i = _
  have hwithin := @covered_within mask.expandGenerics.value i
  simp only [BitVec.getLsbD_or, BitVec.getLsbD_and, BitVec.getLsbD_not, hi, decide_true,
    Bool.true_and]
  cases hc : (covered (containedCategories mask.expandGenerics.value)).getLsbD i with
  | true => simp [hwithin hc]
  | false =>
    cases mask.expandGenerics.value.getLsbD i <;> cases NtfsRight.synchronize.getLsbD i <;> rfl

theorem summarize_nothing (mask : RightsMask) :
    (summarize mask).primary = .none ↔
      mask.expandGenerics.value &&& ~~~NtfsRight.synchronize = 0 := by
  show primaryOf mask.expandGenerics.value (containedCategories mask.expandGenerics.value) = _ ↔ _
  cases hc : containedCategories mask.expandGenerics.value with
  | nil => simp [primaryOf]
  | cons c rest =>
    have hmem : c ∈ containedCategories mask.expandGenerics.value := by
      rw [hc]
      exact List.mem_cons_self
    have hnamed := contained_named hmem
    constructor
    · intro h
      exact absurd h hnamed.1
    · intro hzero
      exfalso
      apply hnamed.2
      apply BitVec.eq_of_getLsbD_eq
      intro i _
      have hbit := congrArg (fun m => m.getLsbD i) hzero
      have hheld := holds_bit (mem_contained hmem) (i := i)
      rw [BitVec.getLsbD_and] at hbit ⊢
      cases hi : c.bits.getLsbD i with
      | false => simp
      | true => simpa [hheld hi] using hbit

/-- For every mask, the rendering of it overstates nothing and drops nothing, and says of every
level of access whether it is reached. -/
theorem summary_faithful (mask : RightsMask) : Faithful mask (summarize mask) where
  held _ hc := mem_contained hc
  apart _ hc _ hd h := maximal_apart hc hd h
  thresholds c hc := by
    rw [reaches_holds hc]
    exact holds_iff hc
  whole := summarize_whole mask
  nothing := summarize_nothing mask

end Adg.RightsCategories
