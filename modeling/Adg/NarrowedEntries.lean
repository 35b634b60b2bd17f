import Adg.FirstMatch
import Adg.InstructionAgreement
import Adg.SimulatedAcls

/-!
# Modified entries

A step that modifies an entry says what right the entry is left with. The right
before is a mask or, on a share, a named level, and so is the right after. When an
allow is left with a part of what it named, nobody is granted more than before, by
whatever list the entry stands in. The check of a step compares masks with masks
and levels with levels, before their generic bits are expanded.
-/

set_option autoImplicit false

namespace Adg.NarrowedEntries
open Adg.Observation Adg.AccessConditions Adg.RightsAlgebra Adg.AccessSubjects Adg.Evaluation
open Adg.FirstMatch Adg.ChangePlans Adg.SimulatedAcls Adg.SimulationOverlays
open Adg.InstructionAgreement (changesFor_ok Translated)
open Adg.Fallible (bind_ok)

/-! ### What a mask names -/

/-- The bits of a mask once its generic ones are expanded. -/
def expandMask (v : AccessMask) : AccessMask := (⟨v,.ntfs⟩ : RightsMask).expandGenerics.value

/-- The rights that a mask names, by their bits. -/
def named (v : AccessMask) : Set ℕ := { b | (expandMask v).getLsbD b = true }

theorem expanded_eq (e : AclEntry) : e.expanded = expandMask e.mask.value := by
  obtain ⟨⟨value,layer⟩,_⟩ := e
  unfold AclEntry.expanded expandMask RightsMask.expandGenerics RightsMask.hasGenericRights
  split <;> rfl

theorem and_eq_zero_iff {v w : AccessMask} :
    v &&& w = 0 ↔ ∀ b, v.getLsbD b = true → w.getLsbD b = false := by
  constructor
  · intro h b hv
    have hbit := congrArg (BitVec.getLsbD · b) h
    simpa [hv] using hbit
  · intro h
    apply BitVec.eq_of_getLsbD_eq
    intro b _
    rw [BitVec.getLsbD_and]
    cases hv : v.getLsbD b with
    | false => simp
    | true => simp [h b hv]

/-- Expanding adds the rights of each generic bit, of which there may be none. -/
theorem expandMask_eq (v : AccessMask) : expandMask v =
    fileSystemGenericMapping.foldl (RightsMask.expandOne v) (v &&& ~~~genericRightBits) := by
  unfold expandMask RightsMask.expandGenerics RightsMask.hasGenericRights
  by_cases hgeneric : v &&& genericRightBits = 0
  · have hplain : v &&& ~~~genericRightBits = v := by
      apply BitVec.eq_of_getLsbD_eq
      intro b hb
      have hbit := and_eq_zero_iff.mp hgeneric b
      rw [BitVec.getLsbD_and, BitVec.getLsbD_not]
      cases hv : v.getLsbD b with
      | false => rfl
      | true => simp only [hbit hv, hb, decide_true, Bool.not_false, Bool.and_self]
    have hrows : ∀ row ∈ fileSystemGenericMapping, v &&& row.1 = 0 := by
      intro row hrow
      have hpart : row.1 &&& ~~~genericRightBits = 0 := by
        fin_cases hrow <;> decide
      apply and_eq_zero_iff.mpr
      intro b hv
      cases hr : row.1.getLsbD b with
      | false => rfl
      | true =>
        have hoff := and_eq_zero_iff.mp hpart b hr
        have hlt := BitVec.lt_of_getLsbD hr
        rw [BitVec.getLsbD_not, and_eq_zero_iff.mp hgeneric b hv] at hoff
        simp only [hlt, decide_true, Bool.not_false, Bool.and_self] at hoff
        cases hoff
    have hkept : ∀ (rows : List (AccessMask × AccessMask)) (acc : AccessMask),
        (∀ row ∈ rows, v &&& row.1 = 0) → rows.foldl (RightsMask.expandOne v) acc = acc := by
      intro rows
      induction rows with
      | nil => exact fun _ _ => rfl
      | cons row rows ih =>
        intro acc h
        have hrow : RightsMask.expandOne v acc row = acc :=
          if_neg (not_not.mpr (h row List.mem_cons_self))
        rw [List.foldl_cons, hrow, ih acc fun r hr => h r (List.mem_cons_of_mem _ hr)]
    rw [hplain, hkept _ _ hrows]
    rw [if_neg (by simpa using hgeneric)]
  · rw [if_pos (by simpa using hgeneric)]

/-- A generic bit names the rights of its row, any other bit itself. -/
theorem named_iff (v : AccessMask) (b : ℕ) : b ∈ named v ↔
    (v &&& ~~~genericRightBits).getLsbD b = true ∨
      ∃ row ∈ fileSystemGenericMapping, v &&& row.1 ≠ 0 ∧ row.2.getLsbD b = true := by
  have hfold : ∀ (rows : List (AccessMask × AccessMask)) (acc : AccessMask),
      (rows.foldl (RightsMask.expandOne v) acc).getLsbD b = true ↔
        acc.getLsbD b = true ∨ ∃ row ∈ rows, v &&& row.1 ≠ 0 ∧ row.2.getLsbD b = true := by
    intro rows
    induction rows with
    | nil => simp
    | cons row rows ih =>
      intro acc
      rw [List.foldl_cons, ih, List.exists_mem_cons_iff, ← or_assoc]
      apply or_congr_left
      unfold RightsMask.expandOne
      split_ifs with hrow
      · rw [BitVec.getLsbD_or, Bool.or_eq_true]
        tauto
      · tauto
  show (expandMask v).getLsbD b = true ↔ _
  rw [expandMask_eq, hfold]

/-- Two masks together name what each of them names. -/
theorem named_or (v w : AccessMask) : named (v ||| w) = named v ∪ named w := by
  have hmeet : ∀ g : AccessMask, (v ||| w) &&& g ≠ 0 ↔ v &&& g ≠ 0 ∨ w &&& g ≠ 0 := by
    intro g
    rw [← not_and_or, not_iff_not, and_eq_zero_iff, and_eq_zero_iff, and_eq_zero_iff,
      ← forall_and]
    apply forall_congr'
    intro b
    rw [BitVec.getLsbD_or, Bool.or_eq_true, or_imp]
  ext b
  rw [Set.mem_union, named_iff, named_iff, named_iff]
  simp only [hmeet, BitVec.getLsbD_and, BitVec.getLsbD_or, Bool.and_eq_true, Bool.or_eq_true]
  constructor
  · rintro (⟨hv | hw,hplain⟩ | ⟨row,hrow,hv | hw,hbit⟩)
    · exact .inl (.inl ⟨hv,hplain⟩)
    · exact .inr (.inl ⟨hw,hplain⟩)
    · exact .inl (.inr ⟨row,hrow,hv,hbit⟩)
    · exact .inr (.inr ⟨row,hrow,hw,hbit⟩)
  · rintro ((⟨hv,hplain⟩ | ⟨row,hrow,hv,hbit⟩) | ⟨hw,hplain⟩ | ⟨row,hrow,hw,hbit⟩)
    · exact .inl ⟨.inl hv,hplain⟩
    · exact .inr ⟨row,hrow,.inl hv,hbit⟩
    · exact .inl ⟨.inr hw,hplain⟩
    · exact .inr ⟨row,hrow,.inr hw,hbit⟩

/-- A part of a mask names a part of what the mask names, and less than it when what was
taken out names something that is not left. -/
theorem named_ssubset {after before : AccessMask} (hpart : after &&& ~~~before = 0) :
    named after ⊂ named before ↔ ¬ named (before &&& ~~~after) ⊆ named after := by
  have hsplit : before = after ||| (before &&& ~~~after) := by
    apply BitVec.eq_of_getLsbD_eq
    intro b hb
    have hbit := and_eq_zero_iff.mp hpart b
    simp only [BitVec.getLsbD_or, BitVec.getLsbD_and, BitVec.getLsbD_not, hb, decide_true,
      Bool.true_and] at hbit ⊢
    cases ha : after.getLsbD b <;> cases hbf : before.getLsbD b <;> simp_all
  have hboth : named before = named after ∪ named (before &&& ~~~after) := by
    rw [← named_or, ← hsplit]
  rw [ssubset_iff_subset_not_subset, hboth, Set.union_subset_iff]
  constructor
  · rintro ⟨-,h⟩ hsub
    exact h ⟨subset_rfl,hsub⟩
  · intro h
    exact ⟨Set.subset_union_left,fun hsub => h hsub.2⟩

/-! ### Lists in which an allow is left with less -/

/-- An entry with another mask. -/
def remasked (e : AclEntry) (v : AccessMask) : AclEntry :=
  { e with
    mask := ⟨v,e.mask.layer⟩
    mask_observed := e.mask_observed }

/-- An entry that stands where another stood: the same, or an allow left with less. -/
def Lessened (e f : AclEntry) : Prop :=
  e = f ∨ ∃ v, f.isAllow = true ∧ e = remasked f v ∧ named v ⊆ named f.mask.value

theorem Lessened.alike {e f : AclEntry} (h : Lessened e f) (token : SubjectToken)
    (owner : Option TokenSid) : counts token owner e = counts token owner f ∧
      e.isAllow = f.isAllow ∧ e.layer = f.layer ∧
      (e.namesOwnerRights && e.appliesToThisObject) =
        (f.namesOwnerRights && f.appliesToThisObject) := by
  rcases h with rfl | ⟨v,-,rfl,-⟩
  · exact ⟨rfl,rfl,rfl,rfl⟩
  · exact ⟨rfl,rfl,rfl,rfl⟩

theorem Lessened.bits {e f : AclEntry} (h : Lessened e f) {b : ℕ}
    (hb : e.expanded.getLsbD b = true) : f.expanded.getLsbD b = true := by
  rcases h with rfl | ⟨v,-,rfl,hless⟩
  · exact hb
  · rw [expanded_eq] at hb ⊢
    exact hless hb

/-- An entry that counts and names the bit. -/
def Decides (token : SubjectToken) (facts : DaclFacts) (b : ℕ) (e : AclEntry) : Prop :=
  counts token (ownerTokenSidOf token facts) e = true ∧ e.expanded.getLsbD b = true

theorem deciding_first {token : SubjectToken} {facts : DaclFacts} {b : ℕ} {e : AclEntry}
    {rest : List AclEntry} (h : Decides token facts b e) :
    decidingEntry (e :: rest) token facts b = some e :=
  List.find?_cons_of_pos (Bool.and_eq_true_iff.mpr h)

theorem deciding_later {token : SubjectToken} {facts : DaclFacts} {b : ℕ} {e : AclEntry}
    {rest : List AclEntry} (h : ¬ Decides token facts b e) :
    decidingEntry (e :: rest) token facts b = decidingEntry rest token facts b :=
  List.find?_cons_of_neg fun hboth => h (Bool.and_eq_true_iff.mp hboth)

theorem Lessened.decides {e f : AclEntry} (h : Lessened e f) {token : SubjectToken}
    {facts : DaclFacts} {b : ℕ} (he : Decides token facts b e) : Decides token facts b f :=
  ⟨(h.alike token _).1 ▸ he.1,h.bits he.2⟩

/-- The entry that decides a bit grants it in the list before, when it does after. -/
theorem deciding_lessened {entries before : List AclEntry} (token : SubjectToken)
    (facts : DaclFacts) (b : ℕ) (h : List.Forall₂ Lessened entries before)
    (hgrants : ∃ e, decidingEntry entries token facts b = some e ∧ e.isAllow = true) :
    ∃ f, decidingEntry before token facts b = some f ∧ f.isAllow = true := by
  induction h with
  | nil => exact hgrants
  | @cons e f entries before hef hrest ih =>
    by_cases hf : Decides token facts b f
    · refine ⟨f,deciding_first hf,?_⟩
      by_cases he : Decides token facts b e
      · rw [deciding_first he] at hgrants
        obtain ⟨g,hg,hallow⟩ := hgrants
        cases hg
        rw [← (hef.alike token none).2.1, hallow]
      · rcases hef with rfl | ⟨v,hallow,-,-⟩
        · exact absurd hf he
        · exact hallow
    · have he : ¬ Decides token facts b e := fun he => hf (hef.decides he)
      rw [deciding_later he] at hgrants
      rw [deciding_later hf]
      exact ih hgrants

theorem ownerGrant_lessened {entries before : List AclEntry} (token : SubjectToken)
    (facts : DaclFacts) (h : List.Forall₂ Lessened entries before) :
    ownerGrant entries token facts = ownerGrant before token facts := by
  have hany : entries.any (fun e => e.namesOwnerRights && e.appliesToThisObject) =
      before.any (fun e => e.namesOwnerRights && e.appliesToThisObject) := by
    induction h with
    | nil => rfl
    | cons hef _ ih => rw [List.any_cons, List.any_cons, (hef.alike token none).2.2.2, ih]
  unfold ownerGrant ownerRightsOf
  simp only [hany]

/-- The rights that a mask of an evaluation has, by their bits. -/
def held (ev : AclEvaluation) : Set ℕ := { b | ev.rights.value.getLsbD b = true }

/-- A list whose allows are left with less grants nobody more. -/
theorem evaluate_lessened {entries before : List AclEntry} (token : SubjectToken)
    (layer : RightsLayer) (facts : DaclFacts) (h : List.Forall₂ Lessened entries before)
    {ev : AclEvaluation} (hev : evaluateAcl before token layer facts = .ok ev) :
    ∃ after, evaluateAcl entries token layer facts = .ok after ∧ held after ⊆ held ev := by
  obtain ⟨hl,hbefore⟩ := evaluateAcl_layers hev
  have hentries : ∀ e ∈ entries, e.layer = layer := by
    intro e he
    obtain ⟨i,hi,rfl⟩ := List.mem_iff_getElem.mp he
    have hi' : i < before.length := h.length_eq ▸ hi
    have hef := h.get hi hi'
    rw [← hbefore _ (List.getElem_mem hi')]
    exact (hef.alike token none).2.2.1
  cases hp : facts.daclPresent with
  | false =>
    rw [evaluateAcl_null hl hbefore hp] at hev
    cases hev
    refine ⟨_,evaluateAcl_null hl hentries hp,?_⟩
    rw [h.length_eq]
  | true =>
    obtain ⟨ev',hev',hbeforeResult⟩ : ∃ ev', evaluateAcl before token layer facts = .ok ev' ∧
        WalkResult (before.take maxAclEntries) token layer facts ev' :=
      evaluateAcl_present hl hbefore hp
    rw [hev] at hev'
    cases hev'
    obtain ⟨after,hafter,hresult⟩ : ∃ after, evaluateAcl entries token layer facts = .ok after ∧
        WalkResult (entries.take maxAclEntries) token layer facts after :=
      evaluateAcl_present hl hentries hp
    refine ⟨after,hafter,?_⟩
    have htake : List.Forall₂ Lessened (entries.take maxAclEntries)
      (before.take maxAclEntries) := List.forall₂_take maxAclEntries h
    intro b hb
    show ev.rights.value.getLsbD b = true
    have hb' : after.rights.value.getLsbD b = true := hb
    rw [hresult.rights] at hb'
    rw [hbeforeResult.rights]
    rw [BitVec.getLsbD_or, Bool.or_eq_true] at hb' ⊢
    rw [← ownerGrant_lessened token facts htake]
    apply hb'.imp_left
    intro hgranted
    exact (walkOver_granted_iff _ _ _ _ _).mpr
      (deciding_lessened token facts b htake ((walkOver_granted_iff _ _ _ _ _).mp hgranted))

/-! ### The right of an entry before and after -/

/-- The mask of a value, which is refused when it is not a 32-bit one. -/
def maskValue (mask : ℤ) : Option AccessMask :=
  if is32Bit mask then some (BitVec.ofInt 32 mask) else none

/-- What the entry of a directory is evaluated with: `ntfs_entry`. -/
def ntfsRight (mask : Option ℤ) : Option AccessMask := mask.bind maskValue

/-- What the entry of a share is evaluated with: `share_entry`, of one form of the right. -/
def shareRight (mask : Option ℤ) (permission : Option SharePermission) : Option AccessMask :=
  match mask, permission with
  | some m, none => maskValue m
  | none, some level => some (normalizeSharePermission level).value
  | _, _ => none

def layerOf (kind : PlannedChangeKind) : RightsLayer :=
  if kind = .modifyShareAce then .smbShare else .ntfs

def rightBefore (kind : PlannedChangeKind) (e : EntryFields) : Option AccessMask :=
  if kind = .modifyShareAce then shareRight e.accessMask e.permission else ntfsRight e.accessMask

/-- The right that a step leaves: on a share, the level when one is given. -/
def rightAfter (c : ChangeFields) : Option AccessMask :=
  if c.kind = .modifyShareAce then
    if c.afterPermission ≠ none then shareRight none c.afterPermission
    else shareRight c.afterAccessMask none
  else ntfsRight c.afterAccessMask

/-- The rights after a step are less than those before, and so is what anybody is granted
by a list that the entry stands in. -/
def OnlyNarrows (c : PlannedChange) (e : EntrySnapshot) : Prop :=
  ∃ before after, rightBefore c.kind e.toEntryFields = some before ∧
    rightAfter c.toChangeFields = some after ∧ named after ⊂ named before ∧
    ∀ (front rear : List AclEntry) (entry : AclEntry) (token : SubjectToken) (facts : DaclFacts)
      (ev : AclEvaluation), entry.mask.value = before → entry.aceType = e.aceType →
      evaluateAcl (front ++ entry :: rear) token (layerOf c.kind) facts = .ok ev →
      ∃ narrowed, evaluateAcl (front ++ remasked entry after :: rear) token (layerOf c.kind)
        facts = .ok narrowed ∧ held narrowed ⊆ held ev

/-- What was taken out of a mask names something that is not left. -/
def LeavesLess (observed after : ℤ) : Prop :=
  ¬ named (BitVec.ofInt 32 observed &&& ~~~BitVec.ofInt 32 after) ⊆
    named (BitVec.ofInt 32 after)

/-- How the right before and the right after are given, and what then has to hold of them. -/
def NarrowingForm (c : ChangeFields) (e : EntryFields) : Prop :=
  match c.kind, e.accessMask, e.permission, c.afterPermission, c.afterAccessMask with
  | .modifyNtfsAce, some observed, _, _, some after => LeavesLess observed after
  | .modifyShareAce, some observed, none, none, some after => LeavesLess observed after
  | .modifyShareAce, none, some _, some _, _ => True
  | .modifyShareAce, some observed, none, some level, _ =>
    named (shareLevelMask level) ⊂ named (BitVec.ofInt 32 observed)
  | .modifyShareAce, none, some level, none, some after =>
    is32Bit after = true ∧ named (BitVec.ofInt 32 after) ⊂ named (shareLevelMask level)
  | _, _, _, _, _ => False

theorem lessened_refl (entries : List AclEntry) : List.Forall₂ Lessened entries entries :=
  List.forall₂_same.mpr fun _ _ => .inl rfl

/-- Of a modification that is accepted, the lists follow from the entry. -/
theorem onlyNarrows_iff {c : PlannedChange} {e : EntrySnapshot} (hallow : e.aceType = .allow) :
    OnlyNarrows c e ↔ ∃ before after, rightBefore c.kind e.toEntryFields = some before ∧
      rightAfter c.toChangeFields = some after ∧ named after ⊂ named before := by
  constructor
  · rintro ⟨before,after,hbefore,hafter,hless,-⟩
    exact ⟨before,after,hbefore,hafter,hless⟩
  · rintro ⟨before,after,hbefore,hafter,hless⟩
    refine ⟨before,after,hbefore,hafter,hless,?_⟩
    intro front rear entry token facts ev hmask htype hev
    have hentry : Lessened (remasked entry after) entry := by
      right
      refine ⟨after,?_,rfl,?_⟩
      · exact decide_eq_true (htype.trans hallow)
      · rw [hmask]
        exact hless.1
    have hlists := List.rel_append (lessened_refl front)
      (List.Forall₂.cons hentry (lessened_refl rear))
    exact evaluate_lessened token (layerOf c.kind) facts hlists hev

/-- A part of a mask is a part of its value. -/
theorem part_of_ldiff {after observed : ℤ} (hobserved : 0 ≤ observed)
    (h : Int.ldiff after observed = 0) :
    BitVec.ofInt 32 after &&& ~~~BitVec.ofInt 32 observed = 0 := by
  obtain ⟨m,rfl⟩ := Int.eq_ofNat_of_zero_le hobserved
  obtain ⟨n,rfl⟩ := Int.eq_ofNat_of_zero_le (le_of_ldiff hobserved h).1
  have hbits : Nat.ldiff n m = 0 := Int.ofNat.inj h
  apply and_eq_zero_iff.mpr
  intro b hn
  rw [BitVec.ofInt_natCast, BitVec.getLsbD_ofNat, Bool.and_eq_true] at hn
  have hbit := congrArg (Nat.testBit · b) hbits
  simp only [Nat.testBit_ldiff, hn.2, Nat.zero_testBit] at hbit
  rw [BitVec.getLsbD_not, BitVec.ofInt_natCast, BitVec.getLsbD_ofNat]
  cases hm : m.testBit b with
  | false =>
    rw [hm] at hbit
    cases hbit
  | true => simp [of_decide_eq_true hn.1]

theorem mask_in_range {after observed : ℤ} (hobserved : is32Bit observed = true)
    (h : Int.ldiff after observed = 0) : is32Bit after = true := by
  have hrange := of_decide_eq_true hobserved
  have hle := le_of_ldiff hrange.1 h
  exact decide_eq_true ⟨hle.1,hle.2.trans hrange.2⟩

/-- Taking bits out of a mask leaves less when the bits named something that is not left. -/
theorem mask_narrows {after observed : ℤ} (hobserved : is32Bit observed = true)
    (h : Int.ldiff after observed = 0) :
    (∃ b a, maskValue observed = some b ∧ maskValue after = some a ∧ named a ⊂ named b) ↔
      LeavesLess observed after := by
  have hafter := mask_in_range hobserved h
  have hpart := part_of_ldiff (of_decide_eq_true hobserved).1 h
  unfold maskValue
  rw [if_pos hobserved, if_pos hafter]
  constructor
  · rintro ⟨b,a,hb,ha,hless⟩
    cases hb
    cases ha
    exact (named_ssubset hpart).mp hless
  · intro hless
    exact ⟨_,_,rfl,rfl,(named_ssubset hpart).mpr hless⟩

theorem ssubset_of_expanded {v w : AccessMask} (hpart : expandMask v &&& ~~~expandMask w = 0)
    (hne : expandMask v ≠ expandMask w) : named v ⊂ named w := by
  rw [ssubset_iff_subset_ne]
  constructor
  · intro b hb
    have hoff := and_eq_zero_iff.mp hpart b hb
    rw [BitVec.getLsbD_not] at hoff
    show (expandMask w).getLsbD b = true
    cases hw : (expandMask w).getLsbD b with
    | true => rfl
    | false =>
      rw [hw, decide_eq_true (BitVec.lt_of_getLsbD hb)] at hoff
      cases hoff
  · intro heq
    apply hne
    apply BitVec.eq_of_getLsbD_eq
    intro b _
    exact Bool.eq_iff_iff.mpr (Set.ext_iff.mp heq b)

/-- A lower level names less. -/
theorem level_narrows {after before : SharePermission}
    (h : sharePermissionOrder after < sharePermissionOrder before) :
    named (shareLevelMask after) ⊂ named (shareLevelMask before) := by
  cases after <;> cases before <;>
    first
    | exact absurd h (by decide)
    | exact ssubset_of_expanded (by decide) (by decide)

/-! ### Modifications that are accepted -/

section Accepted
variable {c : PlannedChange} {e : EntrySnapshot}

/-- What the check of a modified entry of a directory lets through. -/
theorem ntfs_accepted (hk : c.kind = .modifyNtfsAce) (he : c.entry = some e) :
    e.aceType = .allow ∧ ∃ after, c.afterAccessMask = some after ∧
      Int.ldiff after (e.accessMask.getD 0) = 0 := by
  have h := c.passed.2.2.2
  unfold validateNarrowing narrowsNtfs observedMask at h
  simp only [hk, he, both_ok, refuseWhen_ok, not_not, Option.bind_some, Option.any_some] at h
  obtain ⟨hsome,hpart,-,hallow⟩ := h
  obtain ⟨after,hafter⟩ := Option.ne_none_iff_exists'.mp hsome
  rw [hafter, Option.getD_some] at hpart
  refine ⟨?_,after,hafter,hpart⟩
  cases htype : e.aceType with
  | allow => rfl
  | deny => exact absurd (decide_eq_true htype) hallow

/-- What the check of a modified entry of a share lets through: it compares levels with
levels and masks with masks. -/
theorem share_accepted (hk : c.kind = .modifyShareAce) (he : c.entry = some e) :
    e.aceType = .allow ∧ (c.afterPermission ≠ none ∨ c.afterAccessMask ≠ none) ∧
      (∀ after before, c.afterPermission = some after → e.permission = some before →
        sharePermissionOrder after < sharePermissionOrder before) ∧
      ∀ after before, c.afterAccessMask = some after → e.accessMask = some before →
        Int.ldiff after before = 0 := by
  have h := c.passed.2.2.2
  unfold validateNarrowing narrowsShare at h
  simp only [hk, he, both_ok, refuseWhen_ok, Option.bind_some] at h
  obtain ⟨hgiven,hlevels,hmasks,-⟩ := h
  refine ⟨(PlannedChange.level_of_narrowing c hk).2 e he,by tauto,?_,?_⟩
  · intro after before hafter hbefore
    simpa [hafter, hbefore] using hlevels
  · intro after before hafter hbefore
    simpa [hafter, hbefore] using hmasks

/-- A modification that is accepted only narrows when the two rights are given in a form, and
with values, of which that can be said. -/
theorem modification_narrows_iff (he : c.entry = some e)
    (hk : c.kind = .modifyNtfsAce ∨ c.kind = .modifyShareAce) :
    OnlyNarrows c e ↔ NarrowingForm c.toChangeFields e.toEntryFields := by
  rcases hk with hk | hk
  · obtain ⟨hallow,after,hafter,hpart⟩ := ntfs_accepted hk he
    rw [onlyNarrows_iff hallow]
    unfold rightBefore rightAfter NarrowingForm ntfsRight
    simp only [hk, hafter, reduceCtorEq, if_false, Option.bind_some]
    cases hmask : e.accessMask with
    | none => simp
    | some observed =>
      rw [hmask, Option.getD_some] at hpart
      exact mask_narrows (e.mask_is32Bit hmask) hpart
  · obtain ⟨hallow,hgiven,hlevels,hmasks⟩ := share_accepted hk he
    rw [onlyNarrows_iff hallow]
    unfold rightBefore rightAfter NarrowingForm
    simp only [hk, if_true]
    cases hmask : e.accessMask with
    | none =>
      cases hlevel : e.permission with
      | none => simp [shareRight]
      | some before =>
        cases hafter : c.afterPermission with
        | some after =>
          have hless := level_narrows (hlevels after before hafter hlevel)
          simp only [ne_eq, reduceCtorEq, not_false_iff, if_true, iff_true]
          exact ⟨_,_,rfl,rfl,hless⟩
        | none =>
          obtain ⟨after,hmask'⟩ := Option.ne_none_iff_exists'.mp (hgiven.resolve_left (by simp [hafter]))
          rw [hmask']
          show (∃ b a, some (shareLevelMask before) = some b ∧ maskValue after = some a ∧
            named a ⊂ named b) ↔ _
          unfold maskValue
          by_cases hrange : is32Bit after = true
          · simp [hrange]
          · simp [hrange]
    | some observed =>
      have hobserved := e.mask_is32Bit hmask
      cases hlevel : e.permission with
      | some before => simp [shareRight]
      | none =>
        cases hafter : c.afterPermission with
        | some after =>
          show (∃ b a, maskValue observed = some b ∧ some (shareLevelMask after) = some a ∧
            named a ⊂ named b) ↔ _
          unfold maskValue
          simp [hobserved]
        | none =>
          obtain ⟨after,hmask'⟩ := Option.ne_none_iff_exists'.mp (hgiven.resolve_left (by simp [hafter]))
          rw [hmask']
          exact mask_narrows hobserved (hmasks after observed hmask' hmask)

/-- The entry of a directory is simulated with the right that the step leaves. -/
theorem ntfs_simulated {casefold : String → String} {change : NtfsAceChange}
    (hk : c.kind = .modifyNtfsAce) (hchange : changesFor casefold c = .ok [.ntfs change])
    {r r' : NtfsAceRecord} (h : modifiedNtfsEntry casefold r change = .ok r') :
    ntfsRight (some r'.accessMask) = rightAfter c.toChangeFields ∧
      r'.aceType = r.aceType ∧ r'.trusteeKey = r.trusteeKey ∧ r'.aceFlags = r.aceFlags := by
  unfold modifiedNtfsEntry at h
  obtain ⟨key,-,h⟩ := bind_ok.mp h
  cases h
  have htranslated := changesFor_ok.mp hchange
  cases htranslated with
  | ntfsRemoval hk' _ _ =>
    rw [hk] at hk'
    cases hk'
  | ntfsModification _ _ _ hmask =>
    refine ⟨?_,rfl,rfl,rfl⟩
    unfold rightAfter
    simp only [hk, hmask, reduceCtorEq, if_false, Option.getD_some]

/-- The entry of a share is simulated with the right that the step leaves. -/
theorem share_simulated {casefold : String → String} {change : ShareAceChange}
    (hk : c.kind = .modifyShareAce) (hchange : changesFor casefold c = .ok [.share change])
    {r r' : ShareAceRecord} (h : modifiedShareEntry casefold r change = .ok r') :
    shareRight r'.accessMask r'.permission = rightAfter c.toChangeFields ∧
      r'.aceType = r.aceType ∧ r'.trusteeKey = r.trusteeKey := by
  unfold modifiedShareEntry at h
  obtain ⟨key,-,h⟩ := bind_ok.mp h
  cases h
  have htranslated := changesFor_ok.mp hchange
  unfold rightAfter
  cases htranslated with
  | shareRemoval hk' _ _ =>
    rw [hk] at hk'
    cases hk'
  | shareLevel _ _ _ hlevel =>
    refine ⟨?_,rfl,rfl⟩
    simp only [hk, hlevel, ne_eq, reduceCtorEq, not_false_iff, if_true]
  | shareMask _ _ _ hlevel hmask _ =>
    refine ⟨?_,rfl,rfl⟩
    simp only [hk, hlevel, hmask, ne_eq, not_true_eq_false, if_true, if_false]

end Accepted

namespace Sample

/-- An entry of a share, observed as the mask of the level `Read`. -/
def readers : EntryFields where
  aceKey := "s1"
  trusteeSid := "S-1-5-21-1-1-1-1001"
  trusteeKey := "S-1-5-21-1-1-1-1001"
  aceType := .allow
  accessMask := some 0x1200A9

theorem readers_checked : checkEntry readers = .ok () := by decide

/-- What is left of the entry is given as a level. -/
def modification (level : Option SharePermission) (mask : Option ℤ) : ChangeFields where
  changeId := 1
  sequenceIndex := 0
  kind := .modifyShareAce
  targetKind := .share
  targetKey := "fs01|data"
  entry := some ⟨readers,readers_checked⟩
  afterAccessMask := mask
  afterPermission := level

theorem raised_checked : checkChange (modification (some .full) none) = .ok () := by decide

theorem lowered_checked : checkChange (modification none (some 0x120089)) = .ok () := by
  decide +kernel

end Sample

theorem modification_narrows_sample :
    OnlyNarrows ⟨Sample.modification none (some 0x120089),Sample.lowered_checked⟩
        ⟨Sample.readers,Sample.readers_checked⟩ ↔
      NarrowingForm (Sample.modification none (some 0x120089)) Sample.readers :=
  modification_narrows_iff rfl (.inr rfl)

/-- An entry observed as a mask is accepted with any level, and is left with more. -/
theorem mask_raised_to_level :
    rightBefore .modifyShareAce Sample.readers = some 0x1200A9 ∧
    rightAfter (Sample.modification (some .full) none) = some 0x1F01FF ∧
    named 0x1200A9 ⊂ named 0x1F01FF ∧
    ¬ OnlyNarrows ⟨Sample.modification (some .full) none,Sample.raised_checked⟩
      ⟨Sample.readers,Sample.readers_checked⟩ := by
  have hmore : named 0x1200A9 ⊂ named 0x1F01FF := ssubset_of_expanded (by decide) (by decide)
  refine ⟨by decide,by decide,hmore,?_⟩
  intro h
  obtain ⟨before,after,hbefore,hafter,hless,-⟩ := h
  have hb : before = 0x1200A9 := (Option.some.inj hbefore).symm
  have ha : after = 0x1F01FF := (Option.some.inj hafter).symm
  rw [hb, ha] at hless
  exact absurd hless hmore.asymm

end Adg.NarrowedEntries
