import Adg.CanonicalSids
import Adg.OverlayDigest
import Adg.PlanRecords

/-!
# Reading an overlay back

A change is constructed from what was typed: its constructor folds the directory
or the share that it names and keeps the rest. Reading a document goes through
the constructors again, so it gives the change back exactly when its folded key
is the key of itself. A key that ends in a blank is not.
-/

set_option autoImplicit false

namespace Adg.OverlayDocuments
open Adg.Observation Adg.SecurityIdentifier Adg.ResourcePath Adg.ChangePlans Adg.PlanRecords
open Adg.SimulatedAcls Adg.SimulationOverlays Adg.OverlayDigest Adg.PathFolding
open Adg.Fallible (bind_ok mapM_forall₂ mapM_of_ok mapM_same)

/-! ### Constructors -/

/-- What a `ShareAceChange` is constructed from. -/
structure ShareArguments where
  kind : ChangeKind
  shareKey : String
  aceKey : Option String := none
  trusteeSid : Option String := none
  aceType : Option AceType := none
  accessMask : Option ℤ := none
  permission : Option SharePermission := none
  orderIndex : Option ℤ := none

/-- What a change is constructed from: a directory and a share are named as they were typed. -/
inductive Arguments where
  | membership (change : MembershipChange)
  | ntfs (change : NtfsAceChange)
  | share (change : ShareArguments)
  | inheritance (change : InheritanceChange)

section Constructing
variable (casefold : String → String)

/-- `_resource_key`. -/
def resourceKey (value : String) : Except DomainError String := do
  validateKey value "resource_key"
  let path ← parseUncPath value
  return path.comparisonKey casefold

/-- `_share_key`. -/
def shareKey (value : String) : Except DomainError ShareIdentity := do
  validateKey value "share_key"
  let share ← parseShareIdentifier value
  return ⟨casefold share.server,casefold share.name⟩

/-- `NtfsAceChange.__init__`: the kind is checked before the directory is folded. -/
def constructNtfs (n : NtfsAceChange) : Except DomainError NtfsAceChange := do
  refuseWhen (n.kind ≠ .addNtfsAce ∧ n.kind ≠ .modifyNtfsAce ∧ n.kind ≠ .removeNtfsAce)
    s!"{n.kind.value} is not an NTFS ACE change."
    "kind"
  let key ← resourceKey casefold n.resourceKey
  let folded : NtfsAceChange := { n with resourceKey := key }
  folded.check
  return folded

/-- `ShareAceChange.__init__`. -/
def constructShare (s : ShareArguments) : Except DomainError ShareAceChange := do
  refuseWhen (s.kind ≠ .addShareAce ∧ s.kind ≠ .modifyShareAce ∧ s.kind ≠ .removeShareAce)
    s!"{s.kind.value} is not a share ACE change."
    "kind"
  let share ← shareKey casefold s.shareKey
  let folded : ShareAceChange :=
    { kind := s.kind
      share := share
      aceKey := s.aceKey
      trusteeSid := s.trusteeSid
      aceType := s.aceType
      accessMask := s.accessMask
      permission := s.permission
      orderIndex := s.orderIndex }
  folded.check
  return folded

/-- `InheritanceChange.__init__`. -/
def constructInheritance (i : InheritanceChange) : Except DomainError InheritanceChange := do
  let key ← resourceKey casefold i.resourceKey
  let folded : InheritanceChange := { i with resourceKey := key }
  folded.check
  return folded

/-- The constructor of a change. -/
def construct : Arguments → Except DomainError SimulationChange
  | .membership m => do
    m.check
    return .membership m
  | .ntfs n => do return .ntfs (← constructNtfs casefold n)
  | .share s => do return .share (← constructShare casefold s)
  | .inheritance i => do return .inheritance (← constructInheritance casefold i)

end Constructing

/-! ### Documents -/

abbrev ChangeDocument := List (String × Value)

/-- What `document` returns. The version may be missing from what is read. -/
structure OverlayDocument where
  documentVersion : Option String
  overlayHash : String
  changes : List ChangeDocument

/-- `OVERLAY_DOCUMENT_VERSION`. -/
def overlayDocumentVersion : String := "1.0"

/-- `SimulationOverlay.document`. -/
def overlayDocument (printable : Char → Bool) (sha256 : String → String) (o : SimulationOverlay) :
    OverlayDocument where
  documentVersion := some overlayDocumentVersion
  overlayHash := overlayHash printable sha256 o
  changes := o.changes.map document

def changeKinds : List ChangeKind :=
  [.addMember,.removeMember,.addNtfsAce,.modifyNtfsAce,.removeNtfsAce,.addShareAce,
    .modifyShareAce,.removeShareAce,.setInheritance]

def dispositions : List InheritedAceDisposition := [.convertToExplicit,.remove]

section Reading
variable (d : ChangeDocument) (name : String)

/-- What a field that is missing or of another type raises. -/
def unreadable : DomainError where
  message := s!"'{name}'"
  field := some name

/-- `document[name]`, of a text. -/
def textAt : Except DomainError String :=
  match d.lookup name with
  | some (.text s) => .ok s
  | _ => .error (unreadable name)

/-- `document.get(name)`, of a text or none. -/
def optionalTextAt : Except DomainError (Option String) :=
  match d.lookup name with
  | some (.text s) => .ok (some s)
  | some .absent => .ok none
  | none => .ok none
  | _ => .error (unreadable name)

/-- `document.get(name)`, of a number or none. -/
def optionalNumberAt : Except DomainError (Option ℤ) :=
  match d.lookup name with
  | some (.number n) => .ok (some n)
  | some .absent => .ok none
  | none => .ok none
  | _ => .error (unreadable name)

/-- `bool`. -/
def truth : Value → Bool
  | .text s => s ≠ ""
  | .number n => n ≠ 0
  | .flag b => b
  | .absent => false

/-- `bool(document[name])`. -/
def truthAt : Except DomainError Bool :=
  match d.lookup name with
  | some v => .ok (truth v)
  | none => .error (unreadable name)

section Members
variable {α : Type} (members : List α) (value : α → String)

/-- The member of an enumeration that has a value. -/
def memberWith (text : String) : Except DomainError α :=
  match memberOf members value text with
  | some a => .ok a
  | none => .error { message := s!"'{text}' is not a valid value", field := some name }

def memberAt : Except DomainError α := do
  let text ← textAt d name
  memberWith name members value text

def optionalMemberAt : Except DomainError (Option α) := do
  match ← optionalTextAt d name with
  | some text => return some (← memberWith name members value text)
  | none => return none

end Members

end Reading

section FromDocument
variable (d : ChangeDocument)

/-- `MembershipChange.from_document`, before the constructor. -/
def membershipFrom (kind : ChangeKind) : Except DomainError MembershipChange := do
  let memberKind ← optionalMemberAt d "member_kind" principalKinds PrincipalKind.value
  let groupKey ← textAt d "group_key"
  let memberKey ← textAt d "member_key"
  let edgeKind ← memberAt d "edge_kind" edgeKinds MembershipEdgeKind.value
  return { kind, groupKey, memberKey, edgeKind, memberKind }

/-- `NtfsAceChange.from_document`, before the constructor. -/
def ntfsFrom (kind : ChangeKind) : Except DomainError NtfsAceChange := do
  let resourceKey ← textAt d "resource_key"
  let aceKey ← optionalTextAt d "ace_key"
  let trusteeSid ← optionalTextAt d "trustee_sid"
  let aceType ← optionalMemberAt d "ace_type" aceTypes AceType.value
  let accessMask ← optionalNumberAt d "access_mask"
  let aceFlags ← optionalNumberAt d "ace_flags"
  let orderIndex ← optionalNumberAt d "order_index"
  return { kind, resourceKey, aceKey, trusteeSid, aceType, accessMask, aceFlags, orderIndex }

/-- `ShareAceChange.from_document`, before the constructor. -/
def shareFrom (kind : ChangeKind) : Except DomainError ShareArguments := do
  let shareKey ← textAt d "share_key"
  let aceKey ← optionalTextAt d "ace_key"
  let trusteeSid ← optionalTextAt d "trustee_sid"
  let aceType ← optionalMemberAt d "ace_type" aceTypes AceType.value
  let accessMask ← optionalNumberAt d "access_mask"
  let permission ← optionalMemberAt d "permission" permissions SharePermission.value
  let orderIndex ← optionalNumberAt d "order_index"
  return { kind, shareKey, aceKey, trusteeSid, aceType, accessMask, permission, orderIndex }

/-- `InheritanceChange.from_document`, before the constructor. -/
def inheritanceFrom : Except DomainError InheritanceChange := do
  let inheritedEntries ← optionalMemberAt d "inherited_entries" dispositions
    InheritedAceDisposition.value
  let resourceKey ← textAt d "resource_key"
  let isProtected ← truthAt d "protected"
  return { resourceKey, isProtected, inheritedEntries }

/-- `_change_from`, before the constructor: the kind says which one it is. -/
def argumentsFrom : Except DomainError Arguments := do
  let kind ← memberAt d "kind" changeKinds ChangeKind.value
  if kind = .addMember ∨ kind = .removeMember then return .membership (← membershipFrom d kind)
  if kind = .addNtfsAce ∨ kind = .modifyNtfsAce ∨ kind = .removeNtfsAce then
    return .ntfs (← ntfsFrom d kind)
  if kind = .addShareAce ∨ kind = .modifyShareAce ∨ kind = .removeShareAce then
    return .share (← shareFrom d kind)
  return .inheritance (← inheritanceFrom d)

/-- `_change_from`. -/
def changeFrom (casefold : String → String) : Except DomainError SimulationChange := do
  construct casefold (← argumentsFrom d)

end FromDocument

/-- `SimulationOverlay.from_document`. -/
def fromDocument (casefold : String → String) (d : OverlayDocument) :
    Except DomainError SimulationOverlay := do
  refuseWhen (d.documentVersion ≠ some overlayDocumentVersion)
    "Overlay document version cannot be read by this build, which writes 1.0. Reinterpreting it under the current rules would simulate something the author did not propose."
    "document_version"
  SimulationOverlay.fromChanges (← d.changes.mapM (changeFrom · casefold))

/-! ### What a document gives back -/

section Back
variable {d : ChangeDocument} {name : String}

theorem textAt_back {s : String} (h : d.lookup name = some (.text s)) : textAt d name = .ok s := by
  unfold textAt
  rw [h]

theorem optionalTextAt_back {s : Option String} (h : d.lookup name = some (.ofText s)) :
    optionalTextAt d name = .ok s := by
  unfold optionalTextAt
  rw [h]
  cases s with
  | none => rfl
  | some s => rfl

theorem optionalNumberAt_back {n : Option ℤ} (h : d.lookup name = some (.ofNumber n)) :
    optionalNumberAt d name = .ok n := by
  unfold optionalNumberAt
  rw [h]
  cases n with
  | none => rfl
  | some n => rfl

section Members
variable {α : Type} {members : List α} {value : α → String} (hall : ∀ a, a ∈ members)
  (hvalues : (members.map value).Nodup)
include hall hvalues

theorem memberWith_back (a : α) : memberWith name members value (value a) = .ok a := by
  have hfound : memberOf members value (value a) = some a :=
    KeyedTables.find_keyed hvalues (hall a)
  unfold memberWith
  rw [hfound]

theorem memberAt_back {a : α} (h : d.lookup name = some (.text (value a))) :
    memberAt d name members value = .ok a :=
  bind_ok.mpr ⟨value a,textAt_back h,memberWith_back hall hvalues a⟩

theorem optionalMemberAt_back {a : Option α} (h : d.lookup name = some (.ofText (a.map value))) :
    optionalMemberAt d name members value = .ok a := by
  apply bind_ok.mpr
  refine ⟨a.map value,optionalTextAt_back h,?_⟩
  cases a with
  | none => rfl
  | some a => exact bind_ok.mpr ⟨a,memberWith_back hall hvalues a,rfl⟩

end Members

theorem kindAt_back {c : SimulationChange} {kind : ChangeKind} (h : kindOf c = kind) :
    memberAt (document c) "kind" changeKinds ChangeKind.value = .ok kind := by
  apply memberAt_back
  · rintro ⟨⟩ <;> decide
  · decide
  · rw [← h]
    cases c <;> rfl

end Back

/-- What a change would be constructed from to come out as it is. -/
def argumentsOf : SimulationChange → Arguments
  | .membership m => .membership m
  | .ntfs n => .ntfs n
  | .share s => .share
    { kind := s.kind
      shareKey := shareKeyOf s.share
      aceKey := s.aceKey
      trusteeSid := s.trusteeSid
      aceType := s.aceType
      accessMask := s.accessMask
      permission := s.permission
      orderIndex := s.orderIndex }
  | .inheritance i => .inheritance i

/-- A change has a kind of its own group. -/
def KindFits : SimulationChange → Prop
  | .membership m => m.kind = .addMember ∨ m.kind = .removeMember
  | .ntfs n => n.kind = .addNtfsAce ∨ n.kind = .modifyNtfsAce ∨ n.kind = .removeNtfsAce
  | .share s => s.kind = .addShareAce ∨ s.kind = .modifyShareAce ∨ s.kind = .removeShareAce
  | .inheritance _ => True

theorem aceTypes_all : ∀ a, a ∈ aceTypes := by
  rintro ⟨⟩ <;> decide

theorem membershipFrom_back (m : MembershipChange) :
    membershipFrom (document (.membership m)) m.kind = .ok m := by
  have hmember : optionalMemberAt (document (.membership m)) "member_kind" principalKinds
      PrincipalKind.value = .ok m.memberKind :=
    optionalMemberAt_back (by rintro ⟨⟩ <;> decide) (by decide) rfl
  have hedge : memberAt (document (.membership m)) "edge_kind" edgeKinds
      MembershipEdgeKind.value = .ok m.edgeKind :=
    memberAt_back (by rintro ⟨⟩ <;> decide) (by decide) rfl
  unfold membershipFrom
  rw [hmember, textAt_back rfl, textAt_back rfl, hedge]
  rfl

theorem ntfsFrom_back (n : NtfsAceChange) : ntfsFrom (document (.ntfs n)) n.kind = .ok n := by
  have htype : optionalMemberAt (document (.ntfs n)) "ace_type" aceTypes AceType.value =
      .ok n.aceType := optionalMemberAt_back aceTypes_all (by decide) rfl
  unfold ntfsFrom
  rw [textAt_back rfl, optionalTextAt_back rfl, optionalTextAt_back rfl, htype,
    optionalNumberAt_back rfl, optionalNumberAt_back rfl, optionalNumberAt_back rfl]
  rfl

theorem shareFrom_back (s : ShareAceChange) : Arguments.share <$>
    shareFrom (document (.share s)) s.kind = .ok (argumentsOf (.share s)) := by
  have htype : optionalMemberAt (document (.share s)) "ace_type" aceTypes AceType.value =
      .ok s.aceType := optionalMemberAt_back aceTypes_all (by decide) rfl
  have hpermission : optionalMemberAt (document (.share s)) "permission" permissions
      SharePermission.value = .ok s.permission :=
    optionalMemberAt_back (by rintro ⟨⟩ <;> decide) (by decide) rfl
  unfold shareFrom
  rw [textAt_back rfl, optionalTextAt_back rfl, optionalTextAt_back rfl, htype,
    optionalNumberAt_back rfl, hpermission, optionalNumberAt_back rfl]
  rfl

theorem inheritanceFrom_back (i : InheritanceChange) :
    inheritanceFrom (document (.inheritance i)) = .ok i := by
  have hentries : optionalMemberAt (document (.inheritance i)) "inherited_entries" dispositions
      InheritedAceDisposition.value = .ok i.inheritedEntries :=
    optionalMemberAt_back (by rintro ⟨⟩ <;> decide) (by decide) rfl
  unfold inheritanceFrom
  rw [hentries, textAt_back rfl]
  rfl

/-- A document names the change that it was written for. -/
theorem argumentsFrom_back {c : SimulationChange} (h : KindFits c) :
    argumentsFrom (document c) = .ok (argumentsOf c) := by
  unfold argumentsFrom
  apply bind_ok.mpr
  refine ⟨kindOf c,kindAt_back rfl,?_⟩
  cases c with
  | membership m =>
    have hback := membershipFrom_back m
    have hkind : kindOf (.membership m) = m.kind := rfl
    rw [hkind]
    rcases h with h | h
    · rw [h] at hback ⊢
      exact bind_ok.mpr ⟨m,hback,rfl⟩
    · rw [h] at hback ⊢
      exact bind_ok.mpr ⟨m,hback,rfl⟩
  | ntfs n =>
    have hback := ntfsFrom_back n
    have hkind : kindOf (.ntfs n) = n.kind := rfl
    rw [hkind]
    rcases h with h | h | h
    · rw [h] at hback ⊢
      exact bind_ok.mpr ⟨n,hback,rfl⟩
    · rw [h] at hback ⊢
      exact bind_ok.mpr ⟨n,hback,rfl⟩
    · rw [h] at hback ⊢
      exact bind_ok.mpr ⟨n,hback,rfl⟩
  | share s =>
    have hback := shareFrom_back s
    have hkind : kindOf (.share s) = s.kind := rfl
    rw [hkind]
    rcases h with h | h | h
    · rw [h] at hback ⊢
      exact hback
    · rw [h] at hback ⊢
      exact hback
    · rw [h] at hback ⊢
      exact hback
  | inheritance i => exact bind_ok.mpr ⟨i,inheritanceFrom_back i,rfl⟩

/-- A constructor accepts what it made when the folded key is the key of itself. -/
theorem changeFrom_back {c : SimulationChange} (h : KindFits c) (casefold : String → String) :
    changeFrom (document c) casefold = construct casefold (argumentsOf c) := by
  unfold changeFrom
  rw [argumentsFrom_back h]
  rfl

/-! ### Keys that are read again -/

/-- The name of a directory does not end in a blank, and those of a share do not begin or end
in one. -/
def Clean : SimulationChange → Prop
  | .membership _ => True
  | .ntfs n => n.resourceKey.toList.rdropWhile isSpace = n.resourceKey.toList
  | .share s => strip s.share.server.toList = s.share.server.toList ∧
      strip s.share.name.toList = s.share.name.toList
  | .inheritance i => i.resourceKey.toList.rdropWhile isSpace = i.resourceKey.toList

section Keys
open Adg.PathSpelling Adg.PathSpelling.Unc
variable (f : Casefold)

theorem spelled_clean {mark : List Char} {pieces : List (List Char)} {last : List Char}
    (hpieces : pieces ≠ []) : (spelled mark (pieces ++ [last])).rdropWhile isSpace =
      spelled mark (pieces ++ [last]) ↔ last.rdropWhile isSpace = last := by
  have htext : spelled mark (pieces ++ [last]) = spelled mark pieces ++ separator :: last := by
    rw [spelled, join_concat hpieces, ← List.append_assoc]
    rfl
  rw [htext, rdropWhile_append (by decide)]
  constructor
  · intro h
    exact (List.cons.inj (List.append_cancel_left h)).2
  · intro h
    rw [h]

/-- A key of a directory ends in a blank when the last component of the path does. -/
theorem key_clean {raw : String} {p : UncPath} (h : parseUncPath raw = .ok p) :
    (p.comparisonKey f.text).toList.rdropWhile isSpace = (p.comparisonKey f.text).toList ↔
      EndsClean (components p) := by
  obtain ⟨hnormal,-⟩ := components_parsed h
  obtain ⟨k,hknormal,hkcomponents,hkvalue⟩ := folded_unc f hnormal
  obtain ⟨pieces,last,hpieces,hwhole,-⟩ := whole k
  rw [← hkvalue, value_spelled hknormal, String.toList_ofList, ← f.endsClean, ← hkcomponents,
    hpieces, spelled_clean hwhole.nonempty]
  unfold EndsClean
  rw [List.getLast?_concat]
  constructor
  · intro hlast l hl
    rw [← Option.some.inj hl]
    exact hlast
  · intro hall
    exact hall last rfl

theorem key_named {raw : String} {p : UncPath} (h : parseUncPath raw = .ok p) :
    strip (p.comparisonKey f.text).toList ≠ [] := by
  obtain ⟨hnormal,-⟩ := components_parsed h
  obtain ⟨k,hknormal,-,hkvalue⟩ := folded_unc f hnormal
  obtain ⟨pieces,last,hpieces,hwhole,-⟩ := whole k
  obtain ⟨c,hc,hhead⟩ := hwhole.starts
  rw [← hkvalue, value_spelled hknormal, String.toList_ofList, hpieces,
    strip_spelled hwhole.nonempty hc hhead, spelled, join_concat hwhole.nonempty]
  simp

/-- The key of a directory is its own key when it does not end in a blank. -/
theorem resourceKey_again {raw : String} {p : UncPath} (h : parseUncPath raw = .ok p) :
    resourceKey f.text (p.comparisonKey f.text) = .ok (p.comparisonKey f.text) ↔
      (p.comparisonKey f.text).toList.rdropWhile isSpace = (p.comparisonKey f.text).toList := by
  rw [key_clean f h, ← (unc_again f h).2]
  unfold resourceKey
  constructor
  · intro hkey
    obtain ⟨-,-,hkey⟩ := bind_ok.mp hkey
    obtain ⟨q,hq,hkey⟩ := bind_ok.mp hkey
    exact ⟨q,hq,Except.ok.inj hkey⟩
  · intro hagain
    obtain ⟨q,hq,hkey⟩ := hagain
    apply bind_ok.mpr
    refine ⟨(),refuseWhen_ok.mpr (key_named f h),bind_ok.mpr ⟨q,hq,?_⟩⟩
    rw [hkey]
    rfl

/-- A part of a share's name: not empty, and without a bar or a slash. -/
def Part (s : List Char) : Prop := s ≠ [] ∧ '|' ∉ s ∧ separator ∉ s ∧ '/' ∉ s

theorem proper_part {s : List Char} (h : Proper s) : Part s := by
  refine ⟨h.1,?_,h.free.1,h.free.2⟩
  intro hbar
  exact absurd (h.2.2.2 _ hbar) (by decide)

theorem folded_part {s : List Char} (h : Part s) : Part (f.chars s) := by
  refine ⟨f.chars_ne_nil h.1,?_,?_,?_⟩
  · exact fun hmem => h.2.1 (f.mem_chars_mark hmem (by decide))
  · exact fun hmem => h.2.2.1 (f.mem_chars_mark hmem (by decide))
  · exact fun hmem => h.2.2.2 (f.mem_chars_mark hmem (by decide))

theorem share_parts {raw : String} {share : ShareIdentity}
    (h : parseShareIdentifier raw = .ok share) : Part share.server.toList ∧
      Part share.name.toList := by
  simp only [parseShareIdentifier] at h
  split_ifs at h with hempty hbar
  · cases h
  · cases h
  · split at h
    · next server name hpieces =>
      split_ifs at h with hblank
      · cases h
      · cases h
      · cases h
      · rename_i hslash
        cases h
        rw [String.toList_ofList, String.toList_ofList]
        have hfree : ∀ piece ∈ [server,name], '|' ∉ strip piece := by
          intro piece hpiece hmem
          rw [← hpieces] at hpiece
          exact TextRecords.not_mem_splitOn hpiece (mem_strip hmem)
        have hplain : ∀ c ∈ strip server ++ strip name, ¬ (c = separator ∨ c = '/') := by
          intro c hc hmark
          exact hslash (List.any_eq_true.mpr ⟨c,hc,decide_eq_true hmark⟩)
        rw [not_or] at hblank
        refine ⟨⟨hblank.1,hfree server (by simp),?_,?_⟩,hblank.2,hfree name (by simp),?_,?_⟩
        · exact fun hc => hplain _ (List.mem_append_left _ hc) (Or.inl rfl)
        · exact fun hc => hplain _ (List.mem_append_left _ hc) (Or.inr rfl)
        · exact fun hc => hplain _ (List.mem_append_right _ hc) (Or.inl rfl)
        · exact fun hc => hplain _ (List.mem_append_right _ hc) (Or.inr rfl)
    · cases h
  · obtain ⟨path,-,hroot⟩ := bind_ok.mp h
    split_ifs at hroot
    · cases hroot
      rw [String.toList_ofList, String.toList_ofList]
      exact ⟨proper_part (validateComponent_iff.mp path.server_valid),
        proper_part (validateComponent_iff.mp path.share_valid)⟩
    · cases hroot

theorem dropWhile_mark {front : List Char} {c : Char} (hc : isSpace c = false)
    (tail : List Char) : (front ++ c :: tail).dropWhile isSpace =
      front.dropWhile isSpace ++ c :: tail := by
  induction front with
  | nil => exact List.dropWhile_cons_of_neg (by simp [hc])
  | cons d front ih =>
    by_cases hd : isSpace d = true
    · rw [List.cons_append, List.dropWhile_cons_of_pos hd, List.dropWhile_cons_of_pos hd, ih]
    · rw [List.cons_append, List.dropWhile_cons_of_neg hd, List.dropWhile_cons_of_neg hd,
        List.cons_append]

theorem strip_front (s : List Char) : strip (s.dropWhile isSpace) = strip s := by
  unfold strip
  rw [List.dropWhile_idempotent]

theorem strip_back (s : List Char) : strip (s.rdropWhile isSpace) = strip s := by
  have hblank : ∀ r b : List Char, (∀ c ∈ b, isSpace c = true) → strip (r ++ b) = strip r := by
    intro r b hb
    unfold strip
    by_cases hr : r.dropWhile isSpace = []
    · have hall : ∀ c ∈ r, isSpace c = true := List.dropWhile_eq_nil_iff.mp hr
      rw [List.dropWhile_append_of_pos hall, hr, List.dropWhile_eq_nil_iff.mpr hb]
    · have hreverse : ∀ c ∈ b.reverse, isSpace c = true := fun c hc =>
        hb c (List.mem_reverse.mp hc)
      rw [List.dropWhile_append, if_neg (by simpa using hr), List.reverse_append,
        List.dropWhile_append_of_pos hreverse]
  have hsplit : s.rdropWhile isSpace ++ s.rtakeWhile isSpace = s := by
    unfold List.rdropWhile List.rtakeWhile
    rw [← List.reverse_append, List.takeWhile_append_dropWhile, List.reverse_reverse]
  conv_rhs => rw [← hsplit]
  rw [hblank]
  intro c hc
  unfold List.rtakeWhile at hc
  exact List.mem_takeWhile_imp (List.mem_reverse.mp hc)

/-- What is folded is folded character by character. -/
theorem flatMap_fixed {g : Char → List Char} (hne : ∀ c, g c ≠ []) {s : List Char}
    (h : s.flatMap g = s) : ∀ c ∈ s, g c = [c] := by
  have hlong : ∀ t : List Char, t.length ≤ (t.flatMap g).length := by
    intro t
    induction t with
    | nil => exact Nat.le_refl 0
    | cons c t ih =>
      have hone := List.length_pos_iff.mpr (hne c)
      rw [List.flatMap_cons, List.length_append, List.length_cons]
      omega
  induction s with
  | nil => simp
  | cons c s ih =>
    rw [List.flatMap_cons] at h
    obtain ⟨d,rest,hc⟩ := List.exists_cons_of_ne_nil (hne c)
    rw [hc, List.cons_append] at h
    obtain ⟨hd,hrest⟩ := List.cons.inj h
    have hlen := congrArg List.length hrest
    rw [List.length_append] at hlen
    have hnil : rest = [] := by
      have := hlong s
      exact List.length_eq_zero_iff.mp (by omega)
    rw [hnil, List.nil_append] at hrest
    intro x hx
    rcases List.mem_cons.mp hx with rfl | hx
    · rw [hc, hnil, hd]
    · exact ih hrest x hx

theorem chars_sublist {s t : List Char} (h : ∀ c ∈ t, c ∈ f.chars s) : f.chars t = t := by
  have hfixed := flatMap_fixed f.nonempty (f.chars_again s)
  have hmap : f.chars t = t.flatMap fun c => [c] :=
    List.flatMap_congr fun c hc => hfixed c (h c hc)
  rw [hmap]
  exact List.flatMap_singleton' t

theorem shareKey_strip (server name : List Char) :
    strip (shareKeyOf ⟨String.ofList server,String.ofList name⟩).toList =
      server.dropWhile isSpace ++ '|' :: name.rdropWhile isSpace := by
  have htext : (shareKeyOf ⟨String.ofList server,String.ofList name⟩).toList =
      server ++ '|' :: name := by
    show (String.ofList server ++ "|" ++ String.ofList name).toList = _
    simp [String.toList_append]
  rw [htext]
  show ((server ++ '|' :: name).dropWhile isSpace).rdropWhile isSpace = _
  rw [dropWhile_mark (by decide), rdropWhile_append (by decide)]

/-- The key of a share is read as its stripped parts. -/
theorem parse_shareKey {server name : List Char} (hserver : Part server) (hname : Part name)
    (q : ShareIdentity) :
    parseShareIdentifier (shareKeyOf ⟨String.ofList server,String.ofList name⟩) = .ok q ↔
      (strip server ≠ [] ∧ strip name ≠ []) ∧
        q = ⟨String.ofList (strip server),String.ofList (strip name)⟩ := by
  have hfree : ∀ piece ∈ [server.dropWhile isSpace,name.rdropWhile isSpace], '|' ∉ piece := by
    intro piece hpiece
    simp only [List.mem_cons, List.not_mem_nil, or_false] at hpiece
    rcases hpiece with rfl | rfl
    · exact fun hmem => hserver.2.1 ((List.dropWhile_sublist _).subset hmem)
    · exact fun hmem => hname.2.1 ((List.rdropWhile_prefix _ _).subset hmem)
  have hpieces : (server.dropWhile isSpace ++ '|' :: name.rdropWhile isSpace).splitOn '|' =
      [server.dropWhile isSpace,name.rdropWhile isSpace] := by
    have hsplit := List.splitOn_intercalate '|' hfree (List.cons_ne_nil _ _)
    rwa [List.intercalate_cons_of_ne_nil (List.cons_ne_nil _ _), List.intercalate_singleton,
      List.append_assoc] at hsplit
  have hplain : ((strip server ++ strip name).any fun c => c = separator ∨ c = '/') = false := by
    rw [List.any_eq_false]
    intro c hc
    rw [decide_eq_true_iff]
    rcases List.mem_append.mp hc with hc | hc
    · have hmem := mem_strip hc
      rintro (rfl | rfl)
      · exact hserver.2.2.1 hmem
      · exact hserver.2.2.2 hmem
    · have hmem := mem_strip hc
      rintro (rfl | rfl)
      · exact hname.2.2.1 hmem
      · exact hname.2.2.2 hmem
  simp only [parseShareIdentifier]
  rw [shareKey_strip, if_neg (by simp), if_pos (by simp), hpieces]
  dsimp only
  rw [strip_front, strip_back, ← not_or]
  by_cases hblank : strip server = [] ∨ strip name = []
  · rw [if_pos hblank]
    apply iff_of_false
    · intro h
      cases h
    · exact fun h => h.1 hblank
  · rw [if_neg hblank, and_iff_right hblank]
    constructor
    · intro h
      exact (Except.ok.inj ((if_neg (Bool.eq_false_iff.mp hplain)).symm.trans h)).symm
    · intro h
      rw [h]
      exact if_neg (Bool.eq_false_iff.mp hplain)

/-- The key of a share is its own key when neither part begins or ends in a blank. -/
theorem shareKey_again {raw : String} {share : ShareIdentity}
    (h : parseShareIdentifier raw = .ok share) {s : ShareIdentity}
    (hs : s = ⟨f.text share.server,f.text share.name⟩) :
    shareKey f.text (shareKeyOf s) = .ok s ↔
      strip s.server.toList = s.server.toList ∧ strip s.name.toList = s.name.toList := by
  obtain ⟨hserver,hname⟩ := share_parts h
  have hserver := folded_part f hserver
  have hname := folded_part f hname
  have hread := parse_shareKey hserver hname
  have hfold : ∀ t : List Char, f.text (String.ofList (strip (f.chars t))) =
      String.ofList (strip (f.chars t)) := by
    intro t
    unfold Casefold.text
    rw [String.toList_ofList, chars_sublist f fun c hc => mem_strip hc]
  subst hs
  unfold shareKey
  simp only [Casefold.text, String.toList_ofList]
  constructor
  · intro hkey
    obtain ⟨-,-,hkey⟩ := bind_ok.mp hkey
    obtain ⟨q,hq,hkey⟩ := bind_ok.mp hkey
    obtain ⟨-,rfl⟩ := (hread q).mp hq
    have hsame := Except.ok.inj hkey
    have hfirst := congrArg ShareIdentity.server hsame
    have hsecond := congrArg ShareIdentity.name hsame
    exact ⟨String.ofList_injective ((hfold _).symm.trans hfirst),
      String.ofList_injective ((hfold _).symm.trans hsecond)⟩
  · rintro ⟨hfirst,hsecond⟩
    have hq : parseShareIdentifier (shareKeyOf ⟨String.ofList (f.chars share.server.toList),
        String.ofList (f.chars share.name.toList)⟩) =
          .ok ⟨String.ofList (f.chars share.server.toList),
            String.ofList (f.chars share.name.toList)⟩ := by
      apply (hread _).mpr
      rw [hfirst, hsecond]
      exact ⟨⟨hserver.1,hname.1⟩,rfl⟩
    apply bind_ok.mpr
    refine ⟨(),?_,bind_ok.mpr ⟨_,hq,?_⟩⟩
    · apply refuseWhen_ok.mpr
      rw [shareKey_strip]
      simp
    · have hagain := hfold share.server.toList
      have hagain' := hfold share.name.toList
      rw [hfirst] at hagain
      rw [hsecond] at hagain'
      unfold Casefold.text at hagain hagain'
      rw [hagain, hagain']
      rfl

end Keys

/-! ### Reading the document of an overlay -/

theorem admissible_kind {casefold : String → String} {c : SimulationChange}
    (h : Admissible casefold c) : KindFits c := by
  cases c with
  | membership m =>
    obtain ⟨_,hkind,_⟩ := bind_ok.mp h
    have hkind := refuseWhen_ok.mp hkind
    show m.kind = .addMember ∨ m.kind = .removeMember
    tauto
  | ntfs n =>
    obtain ⟨_,hkind,_⟩ := bind_ok.mp h.1
    have hkind := refuseWhen_ok.mp hkind
    show n.kind = .addNtfsAce ∨ n.kind = .modifyNtfsAce ∨ n.kind = .removeNtfsAce
    tauto
  | share s =>
    obtain ⟨_,hkind,_⟩ := bind_ok.mp h.1
    have hkind := refuseWhen_ok.mp hkind
    show s.kind = .addShareAce ∨ s.kind = .modifyShareAce ∨ s.kind = .removeShareAce
    tauto
  | inheritance i => exact trivial

/-- A constructor makes admissible changes. -/
theorem construct_admissible {casefold : String → String} {a : Arguments} {c : SimulationChange}
    (h : construct casefold a = .ok c) : Admissible casefold c := by
  cases a with
  | membership m =>
    obtain ⟨u,hcheck,hmade⟩ := bind_ok.mp h
    cases hmade
    exact hcheck
  | ntfs n =>
    obtain ⟨made,hn,hmade⟩ := bind_ok.mp h
    cases hmade
    obtain ⟨-,-,hn⟩ := bind_ok.mp hn
    obtain ⟨key,hkey,hn⟩ := bind_ok.mp hn
    obtain ⟨u,hcheck,hn⟩ := bind_ok.mp hn
    cases hn
    obtain ⟨-,-,hkey⟩ := bind_ok.mp hkey
    obtain ⟨path,hpath,hkey⟩ := bind_ok.mp hkey
    cases hkey
    exact ⟨hcheck,n.resourceKey,path,hpath,rfl⟩
  | share s =>
    obtain ⟨made,hs,hmade⟩ := bind_ok.mp h
    cases hmade
    obtain ⟨-,-,hs⟩ := bind_ok.mp hs
    obtain ⟨key,hkey,hs⟩ := bind_ok.mp hs
    obtain ⟨u,hcheck,hs⟩ := bind_ok.mp hs
    cases hs
    obtain ⟨-,-,hkey⟩ := bind_ok.mp hkey
    obtain ⟨share,hshare,hkey⟩ := bind_ok.mp hkey
    cases hkey
    exact ⟨hcheck,s.shareKey,share,hshare,rfl⟩
  | inheritance i =>
    obtain ⟨made,hi,hmade⟩ := bind_ok.mp h
    cases hmade
    obtain ⟨key,hkey,hi⟩ := bind_ok.mp hi
    obtain ⟨u,hcheck,hi⟩ := bind_ok.mp hi
    cases hi
    obtain ⟨-,-,hkey⟩ := bind_ok.mp hkey
    obtain ⟨path,hpath,hkey⟩ := bind_ok.mp hkey
    cases hkey
    exact ⟨hcheck,i.resourceKey,path,hpath,rfl⟩

/-- A change is constructed again as it is when its key is clean. -/
theorem construct_again (f : Casefold) {c : SimulationChange} (h : Admissible f.text c) :
    construct f.text (argumentsOf c) = .ok c ↔ Clean c := by
  cases c with
  | membership m => exact iff_of_true (bind_ok.mpr ⟨(),h,rfl⟩) trivial
  | ntfs n =>
    have hkind := admissible_kind h
    obtain ⟨hcheck,raw,path,hpath,hkey⟩ := h
    have hagain := resourceKey_again f hpath
    rw [← hkey] at hagain
    refine Iff.trans ?_ hagain
    constructor
    · intro hmade
      obtain ⟨made,hn,hmade⟩ := bind_ok.mp hmade
      cases hmade
      obtain ⟨-,-,hn⟩ := bind_ok.mp hn
      obtain ⟨key,hfolded,hn⟩ := bind_ok.mp hn
      obtain ⟨-,-,hn⟩ := bind_ok.mp hn
      rw [hfolded]
      exact congrArg (fun x => Except.ok (NtfsAceChange.resourceKey x)) (Except.ok.inj hn)
    · intro hfolded
      have hfits : ¬ (n.kind ≠ .addNtfsAce ∧ n.kind ≠ .modifyNtfsAce ∧ n.kind ≠ .removeNtfsAce) := by
        rcases hkind with hk | hk | hk <;> simp [hk]
      apply bind_ok.mpr
      refine ⟨n,bind_ok.mpr ⟨(),refuseWhen_ok.mpr hfits,?_⟩,rfl⟩
      exact bind_ok.mpr ⟨n.resourceKey,hfolded,bind_ok.mpr ⟨(),hcheck,rfl⟩⟩
  | share s =>
    have hkind := admissible_kind h
    obtain ⟨hcheck,raw,share,hshare,hkey⟩ := h
    have hagain := shareKey_again f hshare hkey
    refine Iff.trans ?_ hagain
    constructor
    · intro hmade
      obtain ⟨made,hn,hmade⟩ := bind_ok.mp hmade
      cases hmade
      obtain ⟨-,-,hn⟩ := bind_ok.mp hn
      obtain ⟨key,hfolded,hn⟩ := bind_ok.mp hn
      obtain ⟨-,-,hn⟩ := bind_ok.mp hn
      refine hfolded.trans ?_
      exact congrArg (fun x => Except.ok (ShareAceChange.share x)) (Except.ok.inj hn)
    · intro hfolded
      have hfits : ¬ (s.kind ≠ .addShareAce ∧ s.kind ≠ .modifyShareAce ∧
          s.kind ≠ .removeShareAce) := by
        rcases hkind with hk | hk | hk <;> simp [hk]
      apply bind_ok.mpr
      refine ⟨s,bind_ok.mpr ⟨(),refuseWhen_ok.mpr hfits,?_⟩,rfl⟩
      exact bind_ok.mpr ⟨s.share,hfolded,bind_ok.mpr ⟨(),hcheck,rfl⟩⟩
  | inheritance i =>
    obtain ⟨hcheck,raw,path,hpath,hkey⟩ := h
    have hagain := resourceKey_again f hpath
    rw [← hkey] at hagain
    refine Iff.trans ?_ hagain
    constructor
    · intro hmade
      obtain ⟨made,hn,hmade⟩ := bind_ok.mp hmade
      cases hmade
      obtain ⟨key,hfolded,hn⟩ := bind_ok.mp hn
      obtain ⟨-,-,hn⟩ := bind_ok.mp hn
      rw [hfolded]
      exact congrArg (fun x => Except.ok (InheritanceChange.resourceKey x)) (Except.ok.inj hn)
    · intro hfolded
      apply bind_ok.mpr
      refine ⟨i,?_,rfl⟩
      exact bind_ok.mpr ⟨i.resourceKey,hfolded,bind_ok.mpr ⟨(),hcheck,rfl⟩⟩

/-- The group of an overlay that a change stands in. -/
def groupOf : SimulationChange → ℕ
  | .membership _ => 0
  | .ntfs _ => 1
  | .share _ => 2
  | .inheritance _ => 3

/-- Two lists whose changes stand in one group each, and in one order of every group, are one. -/
theorem eq_of_groups {l m : List SimulationChange} (hgroups : l.map groupOf = m.map groupOf)
    (horder : SameOrder l m) : l = m := by
  induction l generalizing m with
  | nil => exact (List.map_eq_nil_iff.mp hgroups.symm).symm
  | cons c l ih =>
    cases m with
    | nil => cases hgroups
    | cons d m =>
      obtain ⟨hgroup,hrest⟩ := List.cons.inj hgroups
      obtain ⟨hm,hn,hs,hi⟩ := horder
      have hsame : c = d ∧ SameOrder l m := by
        cases c with
        | membership x =>
          cases d with
          | membership y =>
            obtain ⟨hhead,htail⟩ := List.cons.inj hm
            exact ⟨congrArg _ hhead,htail,hn,hs,hi⟩
          | _ => cases hgroup
        | ntfs x =>
          cases d with
          | ntfs y =>
            obtain ⟨hhead,htail⟩ := List.cons.inj hn
            exact ⟨congrArg _ hhead,hm,htail,hs,hi⟩
          | _ => cases hgroup
        | share x =>
          cases d with
          | share y =>
            obtain ⟨hhead,htail⟩ := List.cons.inj hs
            exact ⟨congrArg _ hhead,hm,hn,htail,hi⟩
          | _ => cases hgroup
        | inheritance x =>
          cases d with
          | inheritance y =>
            obtain ⟨hhead,htail⟩ := List.cons.inj hi
            exact ⟨congrArg _ hhead,hm,hn,hs,htail⟩
          | _ => cases hgroup
      rw [hsame.1, ih hrest hsame.2]

theorem construct_group {casefold : String → String} {c d : SimulationChange}
    (h : construct casefold (argumentsOf c) = .ok d) : groupOf d = groupOf c := by
  cases c with
  | membership m =>
    obtain ⟨_,_,h⟩ := bind_ok.mp h
    rw [← Except.ok.inj h]
  | ntfs n =>
    obtain ⟨_,_,h⟩ := bind_ok.mp h
    rw [← Except.ok.inj h]
    rfl
  | share s =>
    obtain ⟨_,_,h⟩ := bind_ok.mp h
    rw [← Except.ok.inj h]
    rfl
  | inheritance i =>
    obtain ⟨_,_,h⟩ := bind_ok.mp h
    rw [← Except.ok.inj h]
    rfl

/-- The changes of an overlay make that overlay. -/
theorem fromChanges_changes (o : SimulationOverlay) : SimulationOverlay.fromChanges o.changes =
    .ok o := by
  obtain ⟨hm,hn,hs,hi⟩ := changes_parts o
  unfold SimulationOverlay.fromChanges
  simp only [hm, hn, hs, hi]
  rw [dif_pos o.bounded, dif_pos o.distinct]

theorem groups_kept {casefold : String → String} {l m : List SimulationChange}
    (h : List.Forall₂ (fun c d => construct casefold (argumentsOf c) = .ok d) l m) :
    m.map groupOf = l.map groupOf := by
  induction h with
  | nil => rfl
  | cons hone _ ih => rw [List.map_cons, List.map_cons, ih, construct_group hone]

/-- The document of an overlay is read as the overlay exactly when all its keys are clean. -/
theorem fromDocument_back (f : Casefold) (printable : Char → Bool) (sha256 : String → String)
    {o : SimulationOverlay} (hadmissible : ∀ c ∈ o.changes, Admissible f.text c) :
    fromDocument f.text (overlayDocument printable sha256 o) = .ok o ↔
      ∀ c ∈ o.changes, Clean c := by
  have hread : (overlayDocument printable sha256 o).changes.mapM (changeFrom · f.text) =
      o.changes.mapM fun c => construct f.text (argumentsOf c) := by
    show (o.changes.map document).mapM _ = _
    rw [List.mapM_map]
    exact mapM_same fun c hc => changeFrom_back (admissible_kind (hadmissible c hc)) f.text
  unfold fromDocument
  rw [hread]
  constructor
  · intro h
    obtain ⟨_,_,h⟩ := bind_ok.mp h
    obtain ⟨cs,hcs,ho⟩ := bind_ok.mp h
    have heach := mapM_forall₂.mp hcs
    have hsame : cs = o.changes := by
      obtain ⟨hm,hn,hs,hi⟩ := fromChanges_fields ho
      obtain ⟨hm',hn',hs',hi'⟩ := changes_parts o
      exact eq_of_groups (groups_kept heach) ⟨hm.symm.trans hm'.symm,hn.symm.trans hn'.symm,
        hs.symm.trans hs'.symm,hi.symm.trans hi'.symm⟩
    rw [hsame] at heach
    intro c hc
    exact (construct_again f (hadmissible c hc)).mp (List.forall₂_same.mp heach c hc)
  · intro hclean
    apply bind_ok.mpr
    refine ⟨(),refuseWhen_ok.mpr fun hversion => hversion rfl,bind_ok.mpr ⟨o.changes,?_,?_⟩⟩
    · have hmade := mapM_of_ok (f := fun c => construct f.text (argumentsOf c)) (g := id)
        fun c hc => (construct_again f (hadmissible c hc)).mpr (hclean c hc)
      rwa [List.map_id] at hmade
    · exact fromChanges_changes o

end Adg.OverlayDocuments
