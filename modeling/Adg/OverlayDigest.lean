import Adg.Fallible
import Adg.PathFolding
import Adg.QuotedTexts
import Adg.SimulatedAcls
import Adg.SortedLists

/-!
# The digest of an overlay

The digest is taken over the changes of an overlay in the order in which they
were given, kind by kind, and additions that ask for a position are inserted in
that order. So a reordered proposal is another proposal as soon as two changes
of one kind change places.
-/

set_option autoImplicit false

namespace Adg.OverlayDigest
open Adg.Observation
open Adg.SecurityIdentifier Adg.ResourcePath Adg.SortedLists Adg.QuotedTexts Adg.Fallible
open Adg.SimulationOverlays Adg.SimulatedAcls Adg.PathFolding

/-! ### Documents -/

/-- A value of a document, as `repr` tells values apart. -/
inductive Value where
  | text (s : String)
  | number (n : ℤ)
  | flag (b : Bool)
  | absent

/-- A text or none. -/
def Value.ofText : Option String → Value
  | some s => .text s
  | none => .absent

def Value.ofNumber : Option ℤ → Value
  | some n => .number n
  | none => .absent

/-- `document`, of a change of each kind. -/
def document : SimulationChange → List (String × Value)
  | .membership m => [
    ("kind",.text m.kind.value),
    ("group_key",.text m.groupKey),
    ("member_key",.text m.memberKey),
    ("edge_kind",.text m.edgeKind.value),
    ("member_kind",.ofText (m.memberKind.map (·.value)))]
  | .ntfs n => [
    ("kind",.text n.kind.value),
    ("resource_key",.text n.resourceKey),
    ("ace_key",.ofText n.aceKey),
    ("trustee_sid",.ofText n.trusteeSid),
    ("ace_type",.ofText (n.aceType.map (·.value))),
    ("access_mask",.ofNumber n.accessMask),
    ("ace_flags",.ofNumber n.aceFlags),
    ("order_index",.ofNumber n.orderIndex)]
  | .share s => [
    ("kind",.text s.kind.value),
    ("share_key",.text (shareKeyOf s.share)),
    ("ace_key",.ofText s.aceKey),
    ("trustee_sid",.ofText s.trusteeSid),
    ("ace_type",.ofText (s.aceType.map (·.value))),
    ("access_mask",.ofNumber s.accessMask),
    ("permission",.ofText (s.permission.map (·.value))),
    ("order_index",.ofNumber s.orderIndex)]
  | .inheritance i => [
    ("kind",.text ChangeKind.setInheritance.value),
    ("resource_key",.text i.resourceKey),
    ("protected",.flag i.isProtected),
    ("inherited_entries",.ofText (i.inheritedEntries.map (·.value)))]

/-- `kind`. -/
def kindOf : SimulationChange → ChangeKind
  | .membership m => m.kind
  | .ntfs n => n.kind
  | .share s => s.kind
  | .inheritance _ => .setInheritance

section Lines
variable (printable : Char → Bool)

/-- `repr` of a value. -/
def reprOf : Value → List Char
  | .text s => reprText printable s.toList
  | .number n => n.repr.toList
  | .flag true => "True".toList
  | .flag false => "False".toList
  | .absent => "None".toList

def field (entry : String × Value) : List Char :=
  entry.1.toList ++ '=' :: reprOf printable entry.2

def fieldMark : Char := '\x1e'
def lineMark : Char := '\x1f'

/-- `_canonical_line`. -/
def canonicalLine (change : SimulationChange) : List Char :=
  (kindOf change).value.toList ++ fieldMark ::
    [fieldMark].intercalate ((sortedBy Prod.fst (document change)).map (field printable))

/-- What the digest is taken over. -/
def material (o : SimulationOverlay) : String :=
  String.ofList ([lineMark].intercalate (o.changes.map (canonicalLine printable)))

/-- `overlay_hash`: the first thirty-two digits of the digest. -/
def overlayHash (sha256 : String → String) (o : SimulationOverlay) : String :=
  String.ofList ((sha256 (material printable o)).toList.take 32)

end Lines

/-! ### One line, one change -/

section Values
variable {printable : Char → Bool}

/-- No control character is in a text. -/
def Printed (s : List Char) : Prop := ∀ c ∈ s, 0x20 ≤ c.toNat

theorem mem_repr {n : ℤ} {c : Char} (h : c ∈ n.repr.toList) : c = '-' ∨ c.isDigit = true := by
  have hdigits : ∀ m : ℕ, ∀ c ∈ m.repr.toList, c.isDigit = true := by
    intro m c hc
    rw [Nat.repr, String.toList_ofList] at hc
    exact Nat.isDigit_of_mem_toDigits (by decide) (by decide) hc
  cases n with
  | ofNat m => exact Or.inr (hdigits m c h)
  | negSucc m =>
    rw [show (Int.negSucc m).repr = "-" ++ (m+1).repr from rfl, String.toList_append] at h
    rcases List.mem_append.mp h with h | h
    · exact Or.inl (List.mem_singleton.mp h)
    · exact Or.inr (hdigits _ c h)

theorem number_ne {n : ℤ} {c : Char} {s : List Char} (hminus : c ≠ '-')
    (hdigit : c.isDigit = false) : n.repr.toList ≠ c :: s := by
  intro h
  rcases mem_repr (h ▸ List.mem_cons_self : c ∈ n.repr.toList) with hc | hc
  · exact hminus hc
  · rw [hdigit] at hc
    cases hc

theorem text_ne {s t : List Char} {c : Char} (hsingle : c ≠ singleQuote)
    (hdouble : c ≠ doubleQuote) : reprText printable s ≠ c :: t := by
  intro h
  have hc := (List.cons.inj h).1
  rcases quoteOf_cases s with hq | hq
  · exact hsingle (hc.symm.trans hq)
  · exact hdouble (hc.symm.trans hq)

theorem number_ne_text {n : ℤ} {s : List Char} : n.repr.toList ≠ reprText printable s := by
  rcases quoteOf_cases s with hq | hq
  all_goals
    unfold reprText
    rw [hq]
    exact number_ne (by decide) (by decide)

theorem reprOf_injective : Function.Injective (reprOf printable) := by
  intro v w h
  cases v with
  | text s =>
    cases w with
    | text t => rw [String.toList_injective (reprText_injective h)]
    | number n => exact absurd h.symm number_ne_text
    | flag b => cases b <;> exact absurd h (text_ne (by decide) (by decide))
    | absent => exact absurd h (text_ne (by decide) (by decide))
  | number n =>
    cases w with
    | text t => exact absurd h number_ne_text
    | number m => rw [Int.repr_injective (String.toList_injective h)]
    | flag b => cases b <;> exact absurd h (number_ne (by decide) (by decide))
    | absent => exact absurd h (number_ne (by decide) (by decide))
  | flag b =>
    cases w with
    | text t => cases b <;> exact absurd h.symm (text_ne (by decide) (by decide))
    | number n => cases b <;> exact absurd h.symm (number_ne (by decide) (by decide))
    | flag b' => cases b <;> cases b' <;> first | rfl | cases h
    | absent => cases b <;> cases h
  | absent =>
    cases w with
    | text t => exact absurd h.symm (text_ne (by decide) (by decide))
    | number n => exact absurd h.symm (number_ne (by decide) (by decide))
    | flag b => cases b <;> cases h
    | absent => rfl

theorem reprOf_printed (v : Value) : Printed (reprOf printable v) := by
  cases v with
  | text s => exact fun c hc => printed hc
  | number n =>
    intro c hc
    rcases mem_repr hc with rfl | hdigit
    · decide
    · have hlow : '0' ≤ c := by
        unfold Char.isDigit at hdigit
        simp only [Bool.and_eq_true, decide_eq_true_eq] at hdigit
        exact hdigit.1
      have hcode : ('0' : Char).toNat ≤ c.toNat := hlow
      exact (by decide : 0x20 ≤ ('0' : Char).toNat).trans hcode
  | flag b =>
    cases b with
    | true => exact (by simp : ∀ c ∈ "True".toList, 0x20 ≤ c.toNat)
    | false => exact (by simp : ∀ c ∈ "False".toList, 0x20 ≤ c.toNat)
  | absent => exact (by simp : ∀ c ∈ "None".toList, 0x20 ≤ c.toNat)

theorem ofText_injective : Function.Injective Value.ofText := by
  intro x y h
  cases x <;> cases y <;> cases h <;> rfl

theorem ofNumber_injective : Function.Injective Value.ofNumber := by
  intro x y h
  cases x <;> cases y <;> cases h <;> rfl

/-- The key of a field has no equals sign. -/
def Keyed (entry : String × Value) : Prop := '=' ∉ entry.1.toList ∧ Printed entry.1.toList

theorem field_injective {e e' : String × Value} (he : Keyed e) (he' : Keyed e')
    (h : field printable e = field printable e') : e = e' := by
  obtain ⟨hkey,hvalue⟩ := TextRecords.first_mark he.1 he'.1 h
  exact Prod.ext (String.toList_injective hkey) (reprOf_injective hvalue)

theorem fields_injective {l m : List (String × Value)} (hl : ∀ e ∈ l, Keyed e)
    (hm : ∀ e ∈ m, Keyed e) (h : l.map (field printable) = m.map (field printable)) : l = m := by
  induction l generalizing m with
  | nil => exact (List.map_eq_nil_iff.mp h.symm).symm
  | cons e l ih =>
    cases m with
    | nil => cases h
    | cons e' m =>
      obtain ⟨hfirst,hrest⟩ := List.cons.inj h
      rw [field_injective (hl e List.mem_cons_self) (hm e' List.mem_cons_self) hfirst,
        ih (fun x hx => hl x (List.mem_cons_of_mem _ hx))
          (fun x hx => hm x (List.mem_cons_of_mem _ hx)) hrest]

theorem field_printed {e : String × Value} (he : Keyed e) : Printed (field printable e) := by
  intro c hc
  rcases List.mem_append.mp hc with hc | hc
  · exact he.2 c hc
  rcases List.mem_cons.mp hc with rfl | hc
  · decide
  · exact reprOf_printed e.2 c hc

end Values

/-! ### One document, one change -/

/-- Rows under keys of which none repeats are one arrangement when their keys stand alike. -/
theorem eq_of_keys {α κ : Type*} {key : α → κ} {l m : List α} (hp : l.Perm m)
    (hkeys : l.map key = m.map key) (hnodup : (l.map key).Nodup) : l = m := by
  induction l generalizing m with
  | nil => exact (List.map_eq_nil_iff.mp hkeys.symm).symm
  | cons a l ih =>
    cases m with
    | nil => cases hkeys
    | cons b m =>
      obtain ⟨hab,hrest⟩ := List.cons.inj hkeys
      rw [List.map_cons, List.nodup_cons] at hnodup
      have heq : a = b := by
        rcases List.mem_cons.mp (hp.subset List.mem_cons_self) with heq | hmem
        · exact heq
        · rw [hrest] at hnodup
          exact absurd (List.mem_map_of_mem hmem) hnodup.1
      rw [heq] at hp ⊢
      rw [ih (List.Perm.cons_inv hp) hrest hnodup.2]

def membershipKeys : List String := ["kind", "group_key", "member_key", "edge_kind", "member_kind"]
def ntfsKeys : List String := ["kind", "resource_key", "ace_key", "trustee_sid", "ace_type",
  "access_mask", "ace_flags", "order_index"]
def shareKeys : List String := ["kind", "share_key", "ace_key", "trustee_sid", "ace_type",
  "access_mask", "permission", "order_index"]
def inheritanceKeys : List String := ["kind", "resource_key", "protected", "inherited_entries"]

/-- The keys of a document, by the kind of its change. -/
def keysOf : SimulationChange → List String
  | .membership _ => membershipKeys
  | .ntfs _ => ntfsKeys
  | .share _ => shareKeys
  | .inheritance _ => inheritanceKeys

theorem document_keys (c : SimulationChange) : (document c).map Prod.fst = keysOf c := by
  cases c <;> rfl

theorem keysOf_nodup (c : SimulationChange) : (keysOf c).Nodup := by
  cases c
  all_goals
    simp only [keysOf]
    decide

theorem keysOf_keyed (c : SimulationChange) : ∀ k ∈ keysOf c, '=' ∉ k.toList ∧ Printed k.toList := by
  have hall : ∀ keys ∈ [membershipKeys, ntfsKeys, shareKeys, inheritanceKeys], ∀ k ∈ keys,
      '=' ∉ k.toList ∧ ∀ d ∈ k.toList, 0x20 ≤ d.toNat := by
    simp [membershipKeys, ntfsKeys, shareKeys, inheritanceKeys]
  apply hall
  cases c <;> simp [keysOf]

theorem document_keyed (c : SimulationChange) : ∀ e ∈ sortedBy Prod.fst (document c), Keyed e := by
  intro e he
  apply keysOf_keyed c
  rw [← document_keys]
  exact List.mem_map_of_mem ((mem_sortedBy Prod.fst).mp he)

/-- The share that a change names has a server without a bar. -/
def Spelled : SimulationChange → Prop
  | .share s => '|' ∉ s.share.server.toList
  | _ => True

theorem kind_injective : Function.Injective ChangeKind.value := by
  intro a b h
  cases a <;> cases b <;> first | rfl | exact absurd h (by decide)

theorem disposition_injective : Function.Injective InheritedAceDisposition.value := by
  intro a b h
  cases a <;> cases b <;> first | rfl | exact absurd h (by decide)

theorem ofValue_injective {α : Type} {value : α → String} (h : Function.Injective value)
    {x y : Option α} (hxy : Value.ofText (x.map value) = Value.ofText (y.map value)) : x = y :=
  Option.map_injective h (ofText_injective hxy)

theorem shareKeyOf_injective {s t : ShareIdentity} (hs : '|' ∉ s.server.toList)
    (ht : '|' ∉ t.server.toList) (h : shareKeyOf s = shareKeyOf t) : s = t := by
  have hlist := congrArg String.toList h
  simp only [shareKeyOf, String.toList_append, List.append_assoc] at hlist
  obtain ⟨hserver,hname⟩ := TextRecords.first_mark hs ht hlist
  cases s
  cases t
  rw [ShareIdentity.mk.injEq]
  exact ⟨String.toList_injective hserver,String.toList_injective hname⟩

theorem document_injective {c d : SimulationChange} (hc : Spelled c) (hd : Spelled d)
    (h : (document c).Perm (document d)) : c = d := by
  have hkeys : (keysOf c).Perm (keysOf d) := by
    rw [← document_keys, ← document_keys]
    exact h.map _
  have hsame : keysOf c = keysOf d → document c = document d := by
    intro hk
    apply eq_of_keys h
    · rw [document_keys, document_keys, hk]
    · rw [document_keys]
      exact keysOf_nodup c
  cases c with
  | membership m =>
    cases d with
    | membership m' =>
      have heq := hsame rfl
      simp only [document, List.cons.injEq, Prod.mk.injEq, Value.text.injEq, true_and, and_true] at heq
      obtain ⟨hkind,hgroup,hmember,hedge,htype⟩ := heq
      cases m
      cases m'
      simp only [SimulationChange.membership.injEq, MembershipChange.mk.injEq]
      exact ⟨kind_injective hkind,hgroup,hmember,MembershipEdgeKind.value_injective hedge,
        ofValue_injective PrincipalKind.value_injective htype⟩
    | _ => exact absurd hkeys (by simp only [keysOf]; decide)
  | ntfs n =>
    cases d with
    | ntfs n' =>
      have heq := hsame rfl
      simp only [document, List.cons.injEq, Prod.mk.injEq, Value.text.injEq, true_and, and_true] at heq
      obtain ⟨hkind,hresource,hace,htrustee,htype,hmask,hflags,horder⟩ := heq
      cases n
      cases n'
      simp only [SimulationChange.ntfs.injEq, NtfsAceChange.mk.injEq]
      exact ⟨kind_injective hkind,hresource,ofText_injective hace,ofText_injective htrustee,
        ofValue_injective AceType.value_injective htype,ofNumber_injective hmask,
        ofNumber_injective hflags,ofNumber_injective horder⟩
    | _ => exact absurd hkeys (by simp only [keysOf]; decide)
  | share s =>
    cases d with
    | share s' =>
      have heq := hsame rfl
      simp only [document, List.cons.injEq, Prod.mk.injEq, Value.text.injEq, true_and, and_true] at heq
      obtain ⟨hkind,hshare,hace,htrustee,htype,hmask,hpermission,horder⟩ := heq
      cases s
      cases s'
      simp only [SimulationChange.share.injEq, ShareAceChange.mk.injEq]
      exact ⟨kind_injective hkind,shareKeyOf_injective hc hd hshare,ofText_injective hace,
        ofText_injective htrustee,ofValue_injective AceType.value_injective htype,
        ofNumber_injective hmask,ofValue_injective SharePermission.value_injective hpermission,
        ofNumber_injective horder⟩
    | _ => exact absurd hkeys (by simp only [keysOf]; decide)
  | inheritance i =>
    cases d with
    | inheritance i' =>
      have heq := hsame rfl
      simp only [document, List.cons.injEq, Prod.mk.injEq, Value.text.injEq, Value.flag.injEq,
        true_and, and_true] at heq
      obtain ⟨hresource,hprotected,hentries⟩ := heq
      cases i
      cases i'
      simp only [SimulationChange.inheritance.injEq, InheritanceChange.mk.injEq]
      exact ⟨hresource,hprotected,ofValue_injective disposition_injective hentries⟩
    | _ => exact absurd hkeys (by simp only [keysOf]; decide)

/-! ### One material, one list of changes -/

section Material
variable {printable : Char → Bool}

theorem kind_printed (k : ChangeKind) : Printed k.value.toList := by
  have hall : ∀ c ∈ k.value.toList, 0x20 ≤ c.toNat := by cases k <;> simp [ChangeKind.value]
  exact hall

theorem printed_not_mark {s : List Char} (h : Printed s) : fieldMark ∉ s ∧ lineMark ∉ s := by
  constructor
  · intro hmem
    exact absurd (h _ hmem) (by decide)
  · intro hmem
    exact absurd (h _ hmem) (by decide)

theorem fields_printed (c : SimulationChange) :
    ∀ x ∈ (sortedBy Prod.fst (document c)).map (field printable), Printed x := by
  intro x hx
  obtain ⟨e,he,rfl⟩ := List.mem_map.mp hx
  exact field_printed (document_keyed c e he)

theorem fields_exist (c : SimulationChange) :
    (sortedBy Prod.fst (document c)).map (field printable) ≠ [] := by
  intro h
  have hlength := congrArg List.length (List.map_eq_nil_iff.mp h)
  rw [sortedBy_length] at hlength
  cases c <;> cases hlength

theorem canonicalLine_injective {c d : SimulationChange} (hc : Spelled c) (hd : Spelled d)
    (h : canonicalLine printable c = canonicalLine printable d) : c = d := by
  obtain ⟨-,hbody⟩ := TextRecords.first_mark (printed_not_mark (kind_printed _)).1
    (printed_not_mark (kind_printed _)).1 h
  have hsplit := congrArg (List.splitOn fieldMark) hbody
  rw [List.splitOn_intercalate _ (fun x hx => (printed_not_mark (fields_printed c x hx)).1)
      (fields_exist c),
    List.splitOn_intercalate _ (fun x hx => (printed_not_mark (fields_printed d x hx)).1)
      (fields_exist d)] at hsplit
  have hsorted := fields_injective (document_keyed c) (document_keyed d) hsplit
  apply document_injective hc hd
  have hperm := (sortedBy_perm Prod.fst (document c)).symm
  rw [hsorted] at hperm
  exact hperm.trans (sortedBy_perm Prod.fst (document d))

theorem line_not_mark (c : SimulationChange) : lineMark ∉ canonicalLine printable c := by
  intro h
  rcases List.mem_append.mp h with h | h
  · exact (printed_not_mark (kind_printed _)).2 h
  rcases List.mem_cons.mp h with h | h
  · exact absurd h (by decide)
  rcases TextRecords.mem_intercalate h with h | ⟨x,hx,hmem⟩
  · exact absurd (List.mem_singleton.mp h) (by decide)
  · exact (printed_not_mark (fields_printed c x hx)).2 hmem

theorem line_ne_nil (c : SimulationChange) : canonicalLine printable c ≠ [] := by
  intro h
  have hmark := (List.append_eq_nil_iff.mp h).2
  cases hmark

/-- Lines put together are told apart by the mark between them. -/
theorem lines_injective {l m : List (List Char)} (hl : ∀ x ∈ l, lineMark ∉ x ∧ x ≠ [])
    (hm : ∀ x ∈ m, lineMark ∉ x ∧ x ≠ [])
    (h : [lineMark].intercalate l = [lineMark].intercalate m) : l = m := by
  have hempty : ∀ l : List (List Char), (∀ x ∈ l, lineMark ∉ x ∧ x ≠ []) →
      [lineMark].intercalate l = [] → l = [] := by
    intro l hl hnil
    by_contra hne
    have hsplit := congrArg (List.splitOn lineMark) hnil
    rw [List.splitOn_intercalate _ (fun x hx => (hl x hx).1) hne] at hsplit
    rw [hsplit] at hl
    exact (hl [] (by simp)).2 rfl
  by_cases hnil : l = []
  · rw [hnil] at h ⊢
    exact (hempty m hm h.symm).symm
  by_cases hnil' : m = []
  · rw [hnil'] at h ⊢
    exact hempty l hl h
  have hsplit := congrArg (List.splitOn lineMark) h
  rwa [List.splitOn_intercalate _ (fun x hx => (hl x hx).1) hnil,
    List.splitOn_intercalate _ (fun x hx => (hm x hx).1) hnil'] at hsplit

theorem material_injective {o o' : SimulationOverlay} (ho : ∀ c ∈ o.changes, Spelled c)
    (ho' : ∀ c ∈ o'.changes, Spelled c) (h : material printable o = material printable o') :
    o.changes = o'.changes := by
  have hlines : o.changes.map (canonicalLine printable) =
      o'.changes.map (canonicalLine printable) := by
    have hall : ∀ l : List SimulationChange, ∀ x ∈ l.map (canonicalLine printable),
        lineMark ∉ x ∧ x ≠ [] := by
      intro l x hx
      obtain ⟨c,-,rfl⟩ := List.mem_map.mp hx
      exact ⟨line_not_mark c,line_ne_nil c⟩
    exact lines_injective (hall _) (hall _) (String.ofList_injective h)
  have hinjective : ∀ l m : List SimulationChange, (∀ c ∈ l, Spelled c) → (∀ c ∈ m, Spelled c) →
      l.map (canonicalLine printable) = m.map (canonicalLine printable) → l = m := by
    intro l
    induction l with
    | nil => exact fun m _ _ h => (List.map_eq_nil_iff.mp h.symm).symm
    | cons c l ih =>
      intro m hl hm h
      cases m with
      | nil => cases h
      | cons d m =>
        obtain ⟨hline,hrest⟩ := List.cons.inj h
        rw [canonicalLine_injective (hl c List.mem_cons_self) (hm d List.mem_cons_self) hline,
          ih m (fun x hx => hl x (List.mem_cons_of_mem _ hx))
            (fun x hx => hm x (List.mem_cons_of_mem _ hx)) hrest]
  exact hinjective _ _ ho ho' hlines

end Material

/-! ### What two orders of one proposal share -/

/-- Neighbours of one band have changed places. -/
def Neighbours {α : Type} (bandOf : α → ℕ) (r s : List α) : Prop :=
  ∃ front a b back, r = front ++ a :: b :: back ∧ s = front ++ b :: a :: back ∧
    bandOf a = bandOf b

/-- The same entries in the same order of evaluation, up to neighbours of one band. -/
def SameEvaluation {α : Type} (bandOf : α → ℕ) : List α → List α → Prop :=
  Relation.ReflTransGen (Neighbours bandOf)

theorem sameEvaluation_bands {α : Type} {bandOf : α → ℕ} {r s : List α}
    (h : SameEvaluation bandOf r s) : r.map bandOf = s.map bandOf := by
  induction h with
  | refl => rfl
  | tail _ hstep ih =>
    obtain ⟨front,a,b,back,rfl,rfl,hband⟩ := hstep
    rw [ih]
    simp [hband]

/-- Two access lists that are evaluated the same, positions apart, or that are both refused. -/
def SameAcl {α : Type} (unnumbered : α → α) (bandOf : α → ℕ) :
    Except DomainError (List α) → Except DomainError (List α) → Prop
  | .ok r, .ok s => SameEvaluation bandOf (r.map unnumbered) (s.map unnumbered)
  | .error _, .error _ => True
  | _, _ => False

theorem SameAcl.refl {α : Type} {unnumbered : α → α} {bandOf : α → ℕ}
    (x : Except DomainError (List α)) : SameAcl unnumbered bandOf x x := by
  cases x with
  | error e => exact trivial
  | ok r => exact Relation.ReflTransGen.refl

section Proposals
variable (casefold : String → String) (printable : Char → Bool) (sha256 : String → String)

/-- One digest, and one access list of every directory and every share. -/
def SameProposal (o o' : SimulationOverlay) : Prop :=
  overlayHash printable sha256 o = overlayHash printable sha256 o' ∧
  (∀ resourceKey baseline parentEntries forContainer,
    SameAcl NtfsAceRecord.unnumbered NtfsAceRecord.band
      (overlayNtfsAcl casefold o resourceKey baseline parentEntries forContainer)
      (overlayNtfsAcl casefold o' resourceKey baseline parentEntries forContainer)) ∧
  ∀ shareKey baseline, SameAcl ShareAceRecord.unnumbered ShareAceRecord.band
    (overlayShareAcl casefold o shareKey baseline) (overlayShareAcl casefold o' shareKey baseline)

/-- A change that its constructor made. -/
def Admissible : SimulationChange → Prop
  | .membership m => m.check = .ok ()
  | .ntfs n => n.check = .ok () ∧ ∃ raw path, parseUncPath raw = .ok path ∧
      n.resourceKey = path.comparisonKey casefold
  | .share s => s.check = .ok () ∧ ∃ raw share, parseShareIdentifier raw = .ok share ∧
      s.share = ⟨casefold share.server,casefold share.name⟩
  | .inheritance i => i.check = .ok () ∧ ∃ raw path, parseUncPath raw = .ok path ∧
      i.resourceKey = path.comparisonKey casefold

/-- The digests of two overlays are those of one text only when they are taken over one. -/
def Collided (o o' : SimulationOverlay) : Prop :=
  overlayHash printable sha256 o = overlayHash printable sha256 o' ∧
    material printable o ≠ material printable o'

end Proposals

/-- The changes of each kind stand in one order. -/
def SameOrder (l l' : List SimulationChange) : Prop :=
  memberships l = memberships l' ∧ ntfsChanges l = ntfsChanges l' ∧
    shareChanges l = shareChanges l' ∧ inheritanceChanges l = inheritanceChanges l'

/-! ### Constructors -/

theorem mem_strip {text : List Char} {c : Char} (h : c ∈ strip text) : c ∈ text := by
  rw [strip, List.mem_reverse] at h
  have hdropped := (List.dropWhile_sublist _).subset h
  rw [List.mem_reverse] at hdropped
  exact (List.dropWhile_sublist _).subset hdropped

/-- No server of a share has a bar in it. -/
theorem server_spelled {raw : String} {share : ShareIdentity}
    (h : parseShareIdentifier raw = .ok share) : '|' ∉ share.server.toList := by
  simp only [parseShareIdentifier] at h
  split_ifs at h with hempty hbar
  · cases h
  · cases h
  · split at h
    · next server name hpieces =>
      split_ifs at h
      · cases h
      · cases h
      · cases h
      · cases h
        rw [String.toList_ofList]
        intro hmem
        have hpiece : server ∈ (strip raw.toList).splitOn '|' := by
          rw [hpieces]
          exact List.mem_cons_self
        exact TextRecords.not_mem_splitOn hpiece (mem_strip hmem)
    · cases h
  · obtain ⟨path,-,hroot⟩ := bind_ok.mp h
    split_ifs at hroot
    · cases hroot
      rw [String.toList_ofList]
      intro hmem
      have hvalid := (PathSpelling.validateComponent_iff.mp path.server_valid).2.2.2 _ hmem
      exact absurd hvalid (by decide)
    · cases hroot

theorem admissible_spelled (f : Casefold) {c : SimulationChange} (h : Admissible f.text c) :
    Spelled c := by
  cases c with
  | share s =>
    obtain ⟨-,raw,share,hparse,hshare⟩ := h
    show '|' ∉ s.share.server.toList
    rw [hshare]
    intro hmem
    rw [Casefold.text, String.toList_ofList] at hmem
    exact server_spelled hparse (f.mem_chars_mark hmem (by decide))
  | _ => exact trivial

/-! ### The order of a proposal -/

theorem fromChanges_fields {l : List SimulationChange} {o : SimulationOverlay}
    (h : SimulationOverlay.fromChanges l = .ok o) : o.membership = memberships l ∧
      o.ntfsAces = ntfsChanges l ∧ o.shareAces = shareChanges l ∧
      o.inheritance = inheritanceChanges l := by
  unfold SimulationOverlay.fromChanges at h
  dsimp only at h
  split_ifs at h
  cases h
  exact ⟨rfl,rfl,rfl,rfl⟩

theorem overlay_ext {o o' : SimulationOverlay} (hmembership : o.membership = o'.membership)
    (hntfs : o.ntfsAces = o'.ntfsAces) (hshares : o.shareAces = o'.shareAces)
    (hinheritance : o.inheritance = o'.inheritance) : o = o' := by
  cases o
  cases o'
  rw [SimulationOverlay.mk.injEq]
  exact ⟨hmembership,hntfs,hshares,hinheritance⟩

/-- The changes of an overlay, kind by kind, are what it holds. -/
theorem changes_parts (o : SimulationOverlay) : memberships o.changes = o.membership ∧
    ntfsChanges o.changes = o.ntfsAces ∧ shareChanges o.changes = o.shareAces ∧
    inheritanceChanges o.changes = o.inheritance := by
  simp [SimulationOverlay.changes, memberships, ntfsChanges, shareChanges, inheritanceChanges,
    List.filterMap_append, List.filterMap_map]

theorem mem_changes {l : List SimulationChange} {o : SimulationOverlay}
    (h : SimulationOverlay.fromChanges l = .ok o) {c : SimulationChange} (hc : c ∈ o.changes) :
    c ∈ l := by
  obtain ⟨hmembership,hntfs,hshares,hinheritance⟩ := fromChanges_fields h
  rw [SimulationOverlay.changes, hmembership, hntfs, hshares, hinheritance] at hc
  simp only [List.mem_append, List.mem_map, memberships, ntfsChanges, shareChanges,
    inheritanceChanges, List.mem_filterMap] at hc
  rcases hc with ((⟨m,⟨d,hd,hm⟩,rfl⟩ | ⟨m,⟨d,hd,hm⟩,rfl⟩) | ⟨m,⟨d,hd,hm⟩,rfl⟩) | ⟨m,⟨d,hd,hm⟩,rfl⟩
  all_goals
    cases d <;> cases hm
    exact hd

/-- Two orders of one list of admissible changes are one proposal, with one digest and the same
access lists, exactly when the changes of each kind stand in one order, unless two different
materials have one digest. -/
theorem proposal_order (f : Casefold) (printable : Char → Bool) (sha256 : String → String)
    {l l' : List SimulationChange} (hl : ∀ c ∈ l, Admissible f.text c) (hperm : l.Perm l')
    {o o' : SimulationOverlay} (ho : SimulationOverlay.fromChanges l = .ok o)
    (ho' : SimulationOverlay.fromChanges l' = .ok o') (hsha : ¬ Collided printable sha256 o o') :
    SameProposal f.text printable sha256 o o' ↔ SameOrder l l' := by
  obtain ⟨hmembership,hntfs,hshares,hinheritance⟩ := fromChanges_fields ho
  obtain ⟨hmembership',hntfs',hshares',hinheritance'⟩ := fromChanges_fields ho'
  constructor
  · rintro ⟨hhash,-,-⟩
    have hmaterial : material printable o = material printable o' := by
      by_contra hne
      exact hsha ⟨hhash,hne⟩
    have hchanges := material_injective
      (fun c hc => admissible_spelled f (hl c (mem_changes ho hc)))
      (fun c hc => admissible_spelled f (hl c (hperm.mem_iff.mpr (mem_changes ho' hc)))) hmaterial
    obtain ⟨hm,hn,hs,hi⟩ := changes_parts o
    obtain ⟨hm',hn',hs',hi'⟩ := changes_parts o'
    rw [hchanges] at hm hn hs hi
    exact ⟨hmembership.symm.trans (hm.symm.trans (hm'.trans hmembership')),
      hntfs.symm.trans (hn.symm.trans (hn'.trans hntfs')),
      hshares.symm.trans (hs.symm.trans (hs'.trans hshares')),
      hinheritance.symm.trans (hi.symm.trans (hi'.trans hinheritance'))⟩
  · rintro ⟨hm,hn,hs,hi⟩
    have heq : o = o' := overlay_ext
      (hmembership.trans (hm.trans hmembership'.symm)) (hntfs.trans (hn.trans hntfs'.symm))
      (hshares.trans (hs.trans hshares'.symm)) (hinheritance.trans (hi.trans hinheritance'.symm))
    rw [heq]
    exact ⟨rfl,fun _ _ _ _ => SameAcl.refl _,fun _ _ => SameAcl.refl _⟩

/-! ### Two additions at one place -/

def folder : String := "\\\\fs\\s\\d"

/-- An addition for everyone at the front of the list. -/
def inFront (aceType : AceType) : NtfsAceChange where
  kind := .addNtfsAce
  resourceKey := folder
  trusteeSid := some "S-1-1-0"
  aceType := some aceType
  accessMask := some 1
  orderIndex := some 0

theorem inFront_admissible (aceType : AceType) :
    Admissible asciiFold.text (.ntfs (inFront aceType)) := by
  have hread : (parseUncPath folder).map (fun p => p.comparisonKey asciiFold.text) = .ok folder := by
    decide +kernel
  obtain ⟨path,hpath,hkey⟩ := map_ok.mp hread
  refine ⟨?_,folder,path,hpath,hkey.symm⟩
  cases aceType <;> decide

def newMember : MembershipChange where
  kind := .addMember
  groupKey := "S-1-5-21-1-2-3-1101"
  memberKey := "S-1-5-21-1-2-3-1001"

/-- The digest of the one material that these two changes make. -/
def materialDigest (_ : String) : String :=
  "50801a3770bc8cc4711d802335592ba4ea1be77628d04b074c05339375b8d42e"

/-- A membership and an entry in either order are one proposal. -/
theorem kinds_reordered : ∃ o o',
    SimulationOverlay.fromChanges [.membership newMember, .ntfs (inFront .deny)] = .ok o ∧
    SimulationOverlay.fromChanges [.ntfs (inFront .deny), .membership newMember] = .ok o' ∧
    SameProposal asciiFold.text (fun _ => true) materialDigest o o' := by
  have hfirst : ∃ o, SimulationOverlay.fromChanges
      [.membership newMember, .ntfs (inFront .deny)] = .ok o := ⟨_,rfl⟩
  have hsecond : ∃ o, SimulationOverlay.fromChanges
      [.ntfs (inFront .deny), .membership newMember] = .ok o := ⟨_,rfl⟩
  obtain ⟨o,ho⟩ := hfirst
  obtain ⟨o',ho'⟩ := hsecond
  have hsame : SameOrder [.membership newMember, .ntfs (inFront .deny)]
      [.ntfs (inFront .deny), .membership newMember] := ⟨rfl,rfl,rfl,rfl⟩
  have heq : o = o' := Except.ok.inj (ho.symm.trans ho')
  refine ⟨o,o',ho,ho',?_⟩
  apply (proposal_order asciiFold (fun _ => true) materialDigest ?_ (List.Perm.swap _ _ _) ho ho'
    ?_).mpr hsame
  · intro c hc
    rcases List.mem_cons.mp hc with rfl | hc
    · exact (by decide : newMember.check = .ok ())
    · rw [List.mem_singleton.mp hc]
      exact inFront_admissible .deny
  · rintro ⟨-,hne⟩
    exact hne (by rw [heq])

theorem sameAcl_bands {α : Type} {unnumbered : α → α} {bandOf : α → ℕ}
    (hband : ∀ a, bandOf (unnumbered a) = bandOf a) {x y : Except DomainError (List α)}
    (h : SameAcl unnumbered bandOf x y) :
    x.toOption.map (·.map bandOf) = y.toOption.map (·.map bandOf) := by
  cases x with
  | error e =>
    cases y with
    | error e' => rfl
    | ok s => cases h
  | ok r =>
    cases y with
    | error e => cases h
    | ok s =>
      have hsame := sameEvaluation_bands h
      simp only [List.map_map, Function.comp_def, hband] at hsame
      simp [Except.toOption, hsame]

/-- The list of the folder when both entries are inserted in the order given. -/
def bandsOf (first second : AceType) : Option (List ℕ) :=
  match SimulationOverlay.fromChanges [.ntfs (inFront first), .ntfs (inFront second)] with
  | .error _ => none
  | .ok o => (overlayNtfsAcl asciiFold.text o folder [] none true).toOption.map
      (·.map NtfsAceRecord.band)

/-- The second of two entries that ask for the front stands before the first: everyone is denied
in one order and allowed in the other. -/
theorem front_depends_on_order : ¬ ∀ (printable : Char → Bool) (sha256 : String → String)
    (l l' : List SimulationChange) (o o' : SimulationOverlay),
    (∀ c ∈ l, Admissible asciiFold.text c) → l.Perm l' → SimulationOverlay.fromChanges l = .ok o →
      SimulationOverlay.fromChanges l' = .ok o' →
        SameProposal asciiFold.text printable sha256 o o' := by
  intro hclaim
  have hbands : bandsOf .deny .allow ≠ bandsOf .allow .deny := by decide +kernel
  obtain ⟨o,ho⟩ : ∃ o, SimulationOverlay.fromChanges
      [.ntfs (inFront .deny), .ntfs (inFront .allow)] = .ok o := ⟨_,rfl⟩
  obtain ⟨o',ho'⟩ : ∃ o, SimulationOverlay.fromChanges
      [.ntfs (inFront .allow), .ntfs (inFront .deny)] = .ok o := ⟨_,rfl⟩
  have hadmissible : ∀ c ∈ [SimulationChange.ntfs (inFront .deny), .ntfs (inFront .allow)],
      Admissible asciiFold.text c := by
    intro c hc
    rcases List.mem_cons.mp hc with rfl | hc
    · exact inFront_admissible .deny
    · rw [List.mem_singleton.mp hc]
      exact inFront_admissible .allow
  have hsame := hclaim (fun _ => true) id _ _ o o' hadmissible (List.Perm.swap _ _ _) ho ho'
  apply hbands
  unfold bandsOf
  rw [ho, ho']
  have hband : ∀ r : NtfsAceRecord, r.unnumbered.band = r.band := fun _ => rfl
  exact sameAcl_bands hband (hsame.2.1 folder [] none true)

end Adg.OverlayDigest
