import Adg.AclDocument
import Adg.CanonicalModel
import Adg.Fallible
import Adg.SimulatedAcls

/-!
# Unplaced additions

An addition without a position goes behind the last entry of its band, so a
list in canonical order stays in it. Each addition keeps every entry where it
stood among the others, and a permission that is there already is not repeated.
-/

set_option autoImplicit false

namespace Adg.CanonicalAdditions
open Adg.Observation
open Adg.SecurityIdentifier Adg.ResourcePath Adg.RightsAlgebra Adg.Evaluation
open Adg.CanonicalModel Adg.ChangePlans Adg.SimulationOverlays Adg.SimulatedAcls Adg.Fallible
open NtfsAceRecord (unnumbered)

/-! ### The entry that a record is evaluated as -/

theorem ntfs_observed (mask : AccessMask) :
    (⟨mask,.ntfs⟩ : RightsMask).layer ≠ .effective := by
  intro h
  cases h

/-- `_entry_from`: the mask is checked, and the key is not empty. -/
def entryFrom (record : NtfsAceRecord) : Except DomainError AclEntry :=
  if record.accessMask < 0 ∨ 0xFFFFFFFF < record.accessMask then
    .error { message := s!"A rights mask must be an unsigned 32-bit value; received {record.accessMask}.", field := "value", raised := .rights }
  else if h : record.trusteeKey = "" then
    .error { message := "An ACL entry needs a trustee key.", field := "trustee_key" }
  else .ok {
    trusteeKey := record.trusteeKey
    trusteeSid := record.trusteeSid
    aceType := record.aceType
    mask := ⟨BitVec.ofInt 32 record.accessMask,.ntfs⟩
    flags := BitVec.ofInt 8 record.aceFlags
    source := record.source
    orderIndex := record.orderIndex
    aceKey := some record.aceKey
    inheritedFrom := record.inheritedFrom
    trustee_ne := h
    mask_observed := ntfs_observed _ }

/-- The fields of a record that make it evaluable. -/
def Evaluable (record : NtfsAceRecord) : Prop :=
  (0 ≤ record.accessMask ∧ record.accessMask ≤ 0xFFFFFFFF) ∧ record.trusteeKey ≠ ""

instance (record : NtfsAceRecord) : Decidable (Evaluable record) :=
  inferInstanceAs (Decidable (_ ∧ _))

theorem entryFrom_ok {record : NtfsAceRecord} {entry : AclEntry} (h : entryFrom record = .ok entry) :
    Evaluable record ∧ entry.aceType = record.aceType ∧ entry.source = record.source := by
  unfold entryFrom at h
  split_ifs at h with hmask hkey
  cases h
  exact ⟨⟨by omega,hkey⟩,rfl,rfl⟩

theorem entryFrom_evaluable {record : NtfsAceRecord} (h : Evaluable record) :
    ∃ entry, entryFrom record = .ok entry := by
  obtain ⟨hmask,hkey⟩ := h
  unfold entryFrom
  rw [if_neg (by omega), dif_neg hkey]
  exact ⟨_,rfl⟩

/-! ### Canonical order of records -/

/-- What order is judged by: the type of an entry and where it came from. -/
def standing (r : NtfsAceRecord) : AceType × AceSource := (r.aceType,r.source)

/-- What canonical order asks of what stands somewhere and what stands before it. -/
def Place (earlier later : AceType × AceSource) : Prop :=
  later.2 ≠ .inherited → earlier.2 ≠ .inherited ∧ (later.1 = .deny → earlier.1 = .deny)

/-- What canonical order asks of a record and one standing before it. -/
def RecordInPlace (earlier record : NtfsAceRecord) : Prop :=
  record.isInherited = false →
    earlier.isInherited = false ∧ (record.aceType = .deny → earlier.aceType = .deny)

instance (earlier record : NtfsAceRecord) : Decidable (RecordInPlace earlier record) :=
  inferInstanceAs (Decidable (_ → _))

theorem inPlace_standing (l : List NtfsAceRecord) :
    l.Pairwise RecordInPlace ↔ (l.map standing).Pairwise Place := by
  rw [List.pairwise_map]
  apply iff_of_eq
  congr 1
  funext r s
  unfold RecordInPlace NtfsAceRecord.isInherited
  simp [Place, standing]

/-- The entries of records are in canonical order when the records are. -/
theorem canonical_records {records : List NtfsAceRecord} {entries : List AclEntry}
    (h : records.mapM entryFrom = .ok entries) :
    canonicalOrderViolations entries = [] ↔ records.Pairwise RecordInPlace := by
  have hentries : entries.Pairwise InPlace ↔
      (entries.map fun e => (e.aceType,e.source)).Pairwise Place := by
    rw [List.pairwise_map]
    apply iff_of_eq
    congr 1
    funext e f
    unfold InPlace AclEntry.isInherited AclEntry.isAllow
    cases e.aceType <;> cases f.aceType <;> simp [Place]
  have hsame : entries.map (fun e => (e.aceType,e.source)) = records.map standing := by
    have hrows := mapM_forall₂.mp h
    clear h hentries
    induction hrows with
    | nil => rfl
    | cons hr _ ih =>
      obtain ⟨-,htype,hsource⟩ := entryFrom_ok hr
      rw [List.map_cons, List.map_cons, ih, htype, hsource]
      rfl
  rw [canonical_iff, hentries, hsame, inPlace_standing]

theorem entries_evaluable {records : List NtfsAceRecord} {entries : List AclEntry}
    (h : records.mapM entryFrom = .ok entries) : ∀ r ∈ records, Evaluable r := by
  intro r hr
  obtain ⟨e,he⟩ := mapM_each h r hr
  exact (entryFrom_ok he).1

theorem entries_exist {records : List NtfsAceRecord} (h : ∀ r ∈ records, Evaluable r) :
    ∃ entries, records.mapM entryFrom = .ok entries := by
  induction records with
  | nil => exact ⟨[],rfl⟩
  | cons r records ih =>
    obtain ⟨e,he⟩ := entryFrom_evaluable (h r List.mem_cons_self)
    obtain ⟨es,hes⟩ := ih fun s hs => h s (List.mem_cons_of_mem _ hs)
    refine ⟨e :: es,?_⟩
    rw [List.mapM_cons]
    exact bind_ok.mpr ⟨e,he,bind_ok.mpr ⟨es,hes,rfl⟩⟩

/-! ### Where an addition goes -/

section Placement
variable {α : Type} (bandOf : α → ℕ)

theorem canonicalPosition_concat (l : List α) (a : α) (own : ℕ) :
    canonicalPosition bandOf (l ++ [a]) own =
      if bandOf a ≤ own then l.length+1 else canonicalPosition bandOf l own := by
  rw [canonicalPosition, List.zipIdx_append, List.foldl_append]
  simp [canonicalPosition]

/-- An addition stands behind every entry of its band or of one before it, directly behind the
last of them. -/
theorem canonicalPosition_splits (l : List α) (own : ℕ) : ∃ front back, l = front ++ back ∧
    canonicalPosition bandOf l own = front.length ∧ (∀ b ∈ back, own < bandOf b) ∧
    ∀ z ∈ front.getLast?, bandOf z ≤ own := by
  induction l using List.reverseRecOn with
  | nil => exact ⟨[],[],rfl,rfl,by simp,by simp⟩
  | append_singleton l a ih =>
    rw [canonicalPosition_concat]
    split_ifs with ha
    · refine ⟨l ++ [a],[],by simp,by simp,by simp,?_⟩
      intro z hz
      rw [List.getLast?_concat] at hz
      rw [← Option.some.inj hz]
      exact ha
    · obtain ⟨front,back,hl,hposition,hback,hfront⟩ := ih
      refine ⟨front,back ++ [a],by rw [hl, List.append_assoc],hposition,?_,hfront⟩
      intro b hb
      rcases List.mem_append.mp hb with hb | hb
      · exact hback b hb
      · rw [List.mem_singleton.mp hb]
        omega

theorem insertIdx_length (front back : List α) (a : α) :
    (front ++ back).insertIdx front.length a = front ++ a :: back := by
  induction front with
  | nil => rfl
  | cons b front ih => rw [List.cons_append, List.length_cons, List.insertIdx_succ_cons, ih]; rfl

end Placement

/-- An explicit entry put where it belongs keeps canonical order. -/
theorem insert_in_place {l : List NtfsAceRecord} (hl : l.Pairwise RecordInPlace)
    {x : NtfsAceRecord} (hx : x.isInherited = false) :
    (l.insertIdx (insertionPoint NtfsAceRecord.band l x none) x).Pairwise RecordInPlace := by
  obtain ⟨front,back,hsplit,hposition,hback,hfront⟩ :=
    canonicalPosition_splits NtfsAceRecord.band l x.band
  rw [insertionPoint, hposition, hsplit, insertIdx_length]
  rw [hsplit, List.pairwise_append] at hl
  obtain ⟨hfronts,hbacks,hcross⟩ := hl
  have hbehind : ∀ b ∈ back, RecordInPlace x b := by
    intro b hb hexplicit
    refine ⟨hx,?_⟩
    intro hdeny
    have hlow := hback b hb
    unfold NtfsAceRecord.band SimulatedAcls.band at hlow
    rw [hexplicit, hdeny] at hlow
    simp at hlow
  have hlast : ∀ z ∈ front.getLast?, RecordInPlace z x := by
    intro z hz _
    have hlow := hfront z hz
    unfold NtfsAceRecord.band SimulatedAcls.band at hlow
    rw [hx] at hlow
    cases hi : z.isInherited with
    | true =>
      rw [hi] at hlow
      simp only [not_true_eq_false, if_false, Bool.false_eq_true, not_false_eq_true, if_true] at hlow
      split_ifs at hlow
      all_goals omega
    | false =>
      refine ⟨rfl,?_⟩
      intro hdeny
      rw [hi, hdeny] at hlow
      cases hz : z.aceType with
      | deny => rfl
      | allow =>
        rw [hz] at hlow
        simp at hlow
  have hbefore : ∀ a ∈ front, RecordInPlace a x := by
    intro a ha hexplicit
    obtain hnil | ⟨rest,z,hrest⟩ := List.eq_nil_or_concat front
    · rw [hnil] at ha
      cases ha
    rw [List.concat_eq_append] at hrest
    have hz := hlast z (by rw [hrest, List.getLast?_concat]; rfl) hexplicit
    rw [hrest, List.mem_append] at ha
    rcases ha with ha | ha
    · rw [hrest, List.pairwise_append] at hfronts
      have haz := hfronts.2.2 a ha z List.mem_cons_self hz.1
      exact ⟨haz.1,fun hdeny => haz.2 (hz.2 hdeny)⟩
    · rw [List.mem_singleton.mp ha]
      exact hz
  apply List.pairwise_append.mpr
  refine ⟨hfronts,List.pairwise_cons.mpr ⟨hbehind,hbacks⟩,?_⟩
  intro a ha b hb
  rcases List.mem_cons.mp hb with rfl | hb
  · exact hbefore a ha
  · exact hcross a ha b hb

/-! ### One addition, and all of them -/

/-- The fields that a permission is. -/
def permission (r : NtfsAceRecord) : String × AceType × ℤ × ℤ :=
  (r.trusteeKey,r.aceType,r.accessMask,r.aceFlags)

theorem sameNtfsAce_iff {r s : NtfsAceRecord} :
    sameNtfsAce r s = true ↔ permission r = permission s := by
  simp [sameNtfsAce, permission]

/-- The loop over additions that ask for no position. -/
def insertAll (result candidates : List NtfsAceRecord) : List NtfsAceRecord :=
  candidates.foldl
    (fun result candidate => insertNew sameNtfsAce NtfsAceRecord.band result candidate none) result

/-- One addition: order and the standing of the others are kept, and its permission is there. -/
structure Added (before : List NtfsAceRecord) (candidate : NtfsAceRecord)
    (after : List NtfsAceRecord) : Prop where
  ordered : before.Pairwise RecordInPlace → after.Pairwise RecordInPlace
  kept : before.Sublist after
  counted : ∀ π, (after.map permission).count π =
    if π = permission candidate then max 1 ((before.map permission).count π)
    else (before.map permission).count π
  only : ∀ r ∈ after, r ∈ before ∨ r = candidate

theorem insertNew_added (before : List NtfsAceRecord) {candidate : NtfsAceRecord}
    (hexplicit : candidate.isInherited = false) : Added before candidate
      (insertNew sameNtfsAce NtfsAceRecord.band before candidate none) := by
  unfold insertNew
  split_ifs with hthere
  · obtain ⟨r,hr,hsame⟩ := List.any_eq_true.mp hthere
    refine ⟨id,List.Sublist.refl _,?_,fun _ => Or.inl⟩
    intro π
    split_ifs with hπ
    · have hmem : π ∈ before.map permission := by
        rw [hπ, ← sameNtfsAce_iff.mp hsame]
        exact List.mem_map_of_mem hr
      have hpos := List.count_pos_iff.mpr hmem
      omega
    · rfl
  · have hnone : permission candidate ∉ before.map permission := by
      intro hmem
      obtain ⟨r,hr,hsame⟩ := List.mem_map.mp hmem
      exact hthere (List.any_eq_true.mpr ⟨r,hr,sameNtfsAce_iff.mpr hsame⟩)
    refine ⟨fun h => insert_in_place h hexplicit,List.sublist_insertIdx _ _ _,?_,?_⟩
    · intro π
      obtain ⟨front,back,hsplit,hposition,-,-⟩ :=
        canonicalPosition_splits NtfsAceRecord.band before candidate.band
      rw [insertionPoint, hposition, hsplit, insertIdx_length, List.map_append, List.map_append,
        List.map_cons, List.count_append, List.count_append, List.count_cons]
      rw [hsplit, List.map_append] at hnone
      split_ifs with heq hπ hπ
      · rw [beq_iff_eq] at heq
        rw [heq] at hnone
        have hzero := List.count_eq_zero_of_not_mem hnone
        rw [List.count_append] at hzero
        omega
      · exact absurd (beq_iff_eq.mp heq).symm hπ
      · exact absurd (beq_iff_eq.mpr hπ.symm) heq
      · omega
    · intro r hr
      rcases List.eq_or_mem_of_mem_insertIdx hr with rfl | hr
      · exact Or.inr rfl
      · exact Or.inl hr

theorem insertAll_added (before candidates : List NtfsAceRecord)
    (hexplicit : ∀ c ∈ candidates, c.isInherited = false) :
    (before.Pairwise RecordInPlace → (insertAll before candidates).Pairwise RecordInPlace) ∧
      before.Sublist (insertAll before candidates) ∧
      (∀ π, ((insertAll before candidates).map permission).count π =
        if π ∈ candidates.map permission then max 1 ((before.map permission).count π)
        else (before.map permission).count π) ∧
      ∀ r ∈ insertAll before candidates, r ∈ before ∨ r ∈ candidates := by
  induction candidates generalizing before with
  | nil => exact ⟨id,List.Sublist.refl _,by simp [insertAll],fun _ => Or.inl⟩
  | cons c candidates ih =>
    have hstep := insertNew_added before (hexplicit c List.mem_cons_self)
    obtain ⟨hordered,hkept,hcounted,honly⟩ := ih
      (insertNew sameNtfsAce NtfsAceRecord.band before c none)
      fun d hd => hexplicit d (List.mem_cons_of_mem _ hd)
    refine ⟨fun h => hordered (hstep.ordered h),hstep.kept.trans hkept,?_,?_⟩
    · intro π
      have hrun := hcounted π
      rw [hstep.counted π] at hrun
      rw [show insertAll before (c :: candidates) = insertAll
        (insertNew sameNtfsAce NtfsAceRecord.band before c none) candidates from rfl, hrun]
      by_cases hπ : π = permission c
      · have hmem : π ∈ (c :: candidates).map permission := by
          rw [hπ]
          exact List.mem_map_of_mem List.mem_cons_self
        rw [if_pos hπ, if_pos hmem]
        split_ifs <;> omega
      · rw [if_neg hπ]
        simp only [List.map_cons, List.mem_cons, hπ, false_or]
    · intro r hr
      rcases honly r hr with hr | hr
      · rcases hstep.only r hr with hr | rfl
        · exact Or.inl hr
        · exact Or.inr List.mem_cons_self
      · exact Or.inr (List.mem_cons_of_mem _ hr)

/-! ### Additions to a directory -/

section Overlays
variable (casefold : String → String)

/-- An addition that asks for no position. -/
def Unplaced (n : NtfsAceChange) : Prop :=
  n.check = .ok () ∧ n.kind = .addNtfsAce ∧ n.orderIndex = none

/-- What an addition to a directory of a server grants or denies. -/
def Grants (server : String) (n : NtfsAceChange) (π : String × AceType × ℤ × ℤ) : Prop :=
  ∃ sid aceType accessMask, Sid.parse (n.trusteeSid.getD "") = .ok sid ∧ n.aceType = some aceType ∧
    n.accessMask = some accessMask ∧
    π = (referencedPrincipalKey casefold sid server,aceType,accessMask,n.aceFlags.getD 0)

theorem parse_canonical {raw value : String} (h : canonicalizeSid raw = .ok value) :
    ∃ sid, Sid.parse raw = .ok sid := by
  unfold Sid.parse
  split
  · exact ⟨_,rfl⟩
  · next e herror =>
    rw [h] at herror
    cases herror

theorem sid_ne_empty (sid : Sid) : sid.value ≠ "" := by
  obtain ⟨raw,hraw⟩ := sid.canonical
  obtain ⟨parts,hparts⟩ := AclDocument.canonical_rendered hraw
  intro h
  rw [hparts] at h
  have hlist := congrArg String.toList h
  simp [renderSid] at hlist

theorem referenced_ne_empty (sid : Sid) (server : String) :
    referencedPrincipalKey casefold sid server ≠ "" := by
  unfold referencedPrincipalKey
  split_ifs
  · intro h
    have hlist := congrArg String.toList h
    simp at hlist
  · exact sid_ne_empty sid

/-- What the check of an addition leaves for the entry that it adds. -/
theorem unplaced_fields {n : NtfsAceChange} (h : Unplaced n) :
    ∃ sid aceType accessMask, n.trusteeSid = some (n.trusteeSid.getD "") ∧
      Sid.parse (n.trusteeSid.getD "") = .ok sid ∧ n.aceType = some aceType ∧
      n.accessMask = some accessMask ∧ 0 ≤ accessMask ∧ accessMask ≤ 0xFFFFFFFF := by
  obtain ⟨hcheck,hkind,-⟩ := h
  unfold NtfsAceChange.check at hcheck
  simp only [bind_ok, refuseWhen_ok, hkind, if_true] at hcheck
  obtain ⟨-,-,_,hmask,-,-,-,-,_,htrustee,value,hvalue,_,htype,hmissing⟩ := hcheck
  rw [refuseWhen_ok] at htrustee htype
  obtain ⟨aceType,htype⟩ := Option.ne_none_iff_exists'.mp htype
  obtain ⟨accessMask,haccess⟩ := Option.ne_none_iff_exists'.mp hmissing
  obtain ⟨sid,hsid⟩ := parse_canonical hvalue
  unfold validateMask at hmask
  rw [refuseWhen_ok, haccess] at hmask
  simp only [Option.any_some, is32Bit] at hmask
  refine ⟨sid,aceType,accessMask,?_,hsid,htype,haccess,by simp at hmask; omega⟩
  cases htext : n.trusteeSid with
  | none =>
    rw [htext] at htrustee
    exact absurd rfl htrustee
  | some text => rfl

/-- The entry that an addition adds. -/
theorem added_exists {n : NtfsAceChange} (h : Unplaced n) (resourceKey server : String) :
    ∃ candidate, addedNtfsEntry casefold n resourceKey server = .ok candidate ∧
      candidate.isInherited = false ∧ Evaluable candidate ∧
      Grants casefold server n (permission candidate) := by
  obtain ⟨sid,aceType,accessMask,htrustee,hsid,htype,haccess,hmin,hmax⟩ := unplaced_fields h
  unfold addedNtfsEntry
  rw [htrustee, htype, haccess]
  have hmask : validateAccessMask accessMask = .ok accessMask.toNat := by
    unfold validateAccessMask
    rw [if_neg (by omega)]
  simp only [simulatedNtfsKey, hsid, hmask]
  refine ⟨_,rfl,rfl,⟨⟨hmin,hmax⟩,referenced_ne_empty casefold sid server⟩,?_⟩
  exact ⟨sid,aceType,accessMask,hsid,htype,haccess,rfl⟩

/-- Additions that ask for no position are inserted one after the other. -/
theorem adds_fold (resourceKey server : String) {changes : List NtfsAceChange}
    (h : ∀ n ∈ changes, Unplaced n) (result : List NtfsAceRecord) :
    ∃ candidates, changes.foldlM (addNtfs casefold resourceKey server) result =
        .ok (insertAll result candidates) ∧
      (∀ c ∈ candidates, c.isInherited = false ∧ Evaluable c) ∧
      List.Forall₂ (Grants casefold server) changes (candidates.map permission) := by
  induction changes generalizing result with
  | nil =>
    refine ⟨[],rfl,?_,.nil⟩
    intro c hc
    cases hc
  | cons n changes ih =>
    have hn := h n List.mem_cons_self
    obtain ⟨c,hc,hexplicit,hevaluable,hgrants⟩ := added_exists casefold hn resourceKey server
    obtain ⟨cs,hfold,hcs,hall⟩ := ih (fun m hm => h m (List.mem_cons_of_mem _ hm))
      (insertNew sameNtfsAce NtfsAceRecord.band result c none)
    refine ⟨c :: cs,?_,?_,.cons hgrants hall⟩
    · have hstep : addNtfs casefold resourceKey server result n =
          .ok (insertNew sameNtfsAce NtfsAceRecord.band result c none) := by
        unfold addNtfs
        rw [if_neg (by simp [hn.2.1]), hc, hn.2.2]
        rfl
      rw [List.foldlM_cons]
      exact bind_ok.mpr ⟨_,hstep,hfold⟩
    · intro d hd
      rcases List.mem_cons.mp hd with rfl | hd
      · exact ⟨hexplicit,hevaluable⟩
      · exact hcs d hd

/-- Entries that no change names stay as they are. -/
theorem edited_unnamed {changes : List NtfsAceChange} {baseline : List NtfsAceRecord}
    (h : ∀ n ∈ changes, ∀ r ∈ baseline, n.aceKey ≠ some r.aceKey) :
    baseline.mapM (editedNtfs casefold changes) = .ok (baseline.map fun r => [r]) := by
  apply mapM_of_ok
  intro r hr
  have hnone : changes.filter (fun n => n.aceKey = some r.aceKey) = [] := by
    apply List.filter_eq_nil_iff.mpr
    intro n hn
    simpa using h n hn r hr
  unfold editedNtfs changeNaming
  rw [hnone]
  rfl

theorem flatten_singletons {α : Type} (l : List α) : (l.map fun a => [a]).flatten = l := by
  induction l with
  | nil => rfl
  | cons a l ih => rw [List.map_cons, List.flatten_cons, ih]; rfl

/-! ### Numbering -/

theorem renumbered_unnumbered (l : List NtfsAceRecord) (ordered : Bool) :
    (renumbered NtfsAceRecord.placedAt l ordered).map unnumbered = l.map unnumbered := by
  unfold renumbered
  cases ordered with
  | false => rfl
  | true =>
    apply List.ext_getElem
    · simp
    · intro i hi hj
      simp [unnumbered, NtfsAceRecord.placedAt]

theorem renumbered_places (l : List NtfsAceRecord) :
    (renumbered NtfsAceRecord.placedAt l true).map (·.orderIndex) =
      (List.range l.length).map fun i : ℕ => some (i : ℤ) := by
  unfold renumbered
  apply List.ext_getElem
  · simp
  · intro i hi hj
    simp [NtfsAceRecord.placedAt]

/-- What is the same of records without their positions is the same of the records. -/
theorem map_unnumbered {β : Type} {f : NtfsAceRecord → β} (hf : ∀ r, f (unnumbered r) = f r)
    {l m : List NtfsAceRecord} (h : l.map unnumbered = m.map unnumbered) : l.map f = m.map f := by
  have hmap := congrArg (List.map f) h
  rw [List.map_map, List.map_map] at hmap
  simpa [Function.comp_def, hf] using hmap

/-! ### The access list of a directory -/

/-- The server of a directory, as its additions read it. -/
def serverOf (resourceKey : String) : String :=
  match parseUncPath resourceKey with
  | .ok path => String.ofList path.server
  | .error _ => ""

/-- An overlay of unplaced additions, of which none names an entry that is there. -/
def OnlyAdds (overlay : SimulationOverlay) (baseline : List NtfsAceRecord) : Prop :=
  ∀ c ∈ overlay.changes, ∃ n, c = .ntfs n ∧ Unplaced n ∧
    ∀ r ∈ baseline, n.aceKey ≠ some r.aceKey

/-- An access list with additions: it is canonical, it has every entry of the baseline in the
baseline's order, it has every added permission and nothing else besides, and its numbering is
the baseline's when that was whole. -/
structure Extended (overlay : SimulationOverlay) (resourceKey : String)
    (baseline result : List NtfsAceRecord) : Prop where
  canonical : ∃ entries, result.mapM entryFrom = .ok entries ∧
    canonicalOrderViolations entries = []
  kept : (baseline.map unnumbered).Sublist (result.map unnumbered)
  added : ∃ added, List.Forall₂ (Grants casefold (serverOf (casefold resourceKey)))
      (ntfsChangesFor casefold overlay (casefold resourceKey)) added ∧
    ∀ π, (result.map permission).count π =
      if π ∈ added then max 1 ((baseline.map permission).count π)
      else (baseline.map permission).count π
  numbered : ntfsChangesFor casefold overlay (casefold resourceKey) ≠ [] →
    (∀ r ∈ baseline, r.orderIndex.isSome) →
    result.map (·.orderIndex) = (List.range result.length).map fun i : ℕ => some (i : ℤ)

theorem adds_ntfs {overlay : SimulationOverlay} {baseline : List NtfsAceRecord}
    (h : OnlyAdds overlay baseline) (resourceKey : String) :
    ∀ n ∈ ntfsChangesFor casefold overlay resourceKey,
      Unplaced n ∧ ∀ r ∈ baseline, n.aceKey ≠ some r.aceKey := by
  intro n hn
  have hmem : SimulationChange.ntfs n ∈ overlay.changes := by
    unfold SimulationOverlay.changes
    simp [(List.mem_filter.mp hn).1]
  obtain ⟨m,hm,hadds⟩ := h _ hmem
  cases hm
  exact hadds

theorem adds_no_inheritance {overlay : SimulationOverlay} {baseline : List NtfsAceRecord}
    (h : OnlyAdds overlay baseline) (resourceKey : String) :
    inheritanceChangeFor casefold overlay resourceKey = none := by
  apply List.find?_eq_none.mpr
  intro i hi
  have hmem : SimulationChange.inheritance i ∈ overlay.changes := by
    unfold SimulationOverlay.changes
    simp [hi]
  obtain ⟨m,hm,-⟩ := h _ hmem
  cases hm

/-- The additions of an overlay, as one run of the loop. -/
theorem overlay_adds {overlay : SimulationOverlay} {resourceKey : String}
    {baseline : List NtfsAceRecord} (h : OnlyAdds overlay baseline)
    (parentEntries : Option (List NtfsAceRecord)) (forContainer : Bool)
    (hchanges : ntfsChangesFor casefold overlay (casefold resourceKey) ≠ []) :
    ∃ candidates, (∀ c ∈ candidates, c.isInherited = false ∧ Evaluable c) ∧
      List.Forall₂ (Grants casefold (serverOf (casefold resourceKey)))
        (ntfsChangesFor casefold overlay (casefold resourceKey)) (candidates.map permission) ∧
      overlayNtfsAcl casefold overlay resourceKey baseline parentEntries forContainer =
        (fun _ => renumbered NtfsAceRecord.placedAt (insertAll baseline candidates)
          (baseline.all (·.orderIndex.isSome))) <$> parseUncPath (casefold resourceKey) := by
  have hadds := adds_ntfs casefold h (casefold resourceKey)
  obtain ⟨candidates,hfold,hcandidates,hgrants⟩ := adds_fold casefold (casefold resourceKey)
    (serverOf (casefold resourceKey)) (fun n hn => (hadds n hn).1) baseline
  refine ⟨candidates,hcandidates,hgrants,?_⟩
  have hedited := edited_unnamed casefold (fun n hn => (hadds n hn).2)
  simp only [overlayNtfsAcl]
  rw [if_neg (fun hnone => hchanges hnone.1), adds_no_inheritance casefold h, applyNtfsAceChanges,
    hedited]
  unfold serverOf at hfold
  cases hpath : parseUncPath (casefold resourceKey) with
  | error e => rfl
  | ok path =>
    rw [hpath] at hfold
    show (List.foldlM _ (baseline.map fun r => [r]).flatten _ >>= _) = _
    rw [flatten_singletons, hfold]
    rfl

/-- Unplaced additions to a directory whose list is canonical: the list is returned for every
directory whose key is a UNC path, and each list that is returned extends the baseline. -/
theorem additions_keep_order (overlay : SimulationOverlay) (resourceKey : String)
    (baseline : List NtfsAceRecord) (parentEntries : Option (List NtfsAceRecord))
    (forContainer : Bool) (entries : List AclEntry) (hadds : OnlyAdds overlay baseline)
    (hentries : baseline.mapM entryFrom = .ok entries)
    (hcanonical : canonicalOrderViolations entries = []) :
    ((∃ path, parseUncPath (casefold resourceKey) = .ok path) → ∃ result,
      overlayNtfsAcl casefold overlay resourceKey baseline parentEntries forContainer =
        .ok result) ∧
    ∀ result, overlayNtfsAcl casefold overlay resourceKey baseline parentEntries forContainer =
      .ok result → Extended casefold overlay resourceKey baseline result := by
  by_cases hchanges : ntfsChangesFor casefold overlay (casefold resourceKey) = []
  · have huntouched : overlayNtfsAcl casefold overlay resourceKey baseline parentEntries
        forContainer = .ok baseline := by
      simp only [overlayNtfsAcl]
      rw [if_pos ⟨hchanges,adds_no_inheritance casefold hadds _⟩]
    rw [huntouched]
    refine ⟨fun _ => ⟨baseline,rfl⟩,?_⟩
    intro result hresult
    cases hresult
    exact {
      canonical := ⟨entries,hentries,hcanonical⟩
      kept := List.Sublist.refl _
      added := ⟨[],by rw [hchanges]; exact .nil,by simp⟩
      numbered := fun hsome => absurd hchanges hsome }
  · obtain ⟨candidates,hcandidates,hgrants,hrun⟩ :=
      overlay_adds casefold hadds parentEntries forContainer hchanges
    rw [hrun]
    constructor
    · rintro ⟨path,hpath⟩
      rw [hpath]
      exact ⟨_,rfl⟩
    intro result hresult
    obtain ⟨path,-,rfl⟩ := map_ok.mp hresult
    obtain ⟨hordered,hkept,hcounted,honly⟩ :=
      insertAll_added baseline candidates fun c hc => (hcandidates c hc).1
    have hsame := renumbered_unnumbered (insertAll baseline candidates)
      (baseline.all (·.orderIndex.isSome))
    have hevaluable : ∀ r ∈ insertAll baseline candidates, Evaluable r := by
      intro r hr
      rcases honly r hr with hr | hr
      · exact entries_evaluable hentries r hr
      · exact (hcandidates r hr).2
    exact {
      canonical := by
        have hall : ∀ r ∈ renumbered NtfsAceRecord.placedAt (insertAll baseline candidates)
            (baseline.all (·.orderIndex.isSome)), Evaluable r := by
          intro r hr
          have hmem := List.mem_map_of_mem (f := unnumbered) hr
          rw [hsame] at hmem
          obtain ⟨s,hs,hrs⟩ := List.mem_map.mp hmem
          have hunnumbered : Evaluable (unnumbered r) := hrs ▸ hevaluable s hs
          exact hunnumbered
        obtain ⟨es,hes⟩ := entries_exist hall
        refine ⟨es,hes,(canonical_records hes).mpr ?_⟩
        apply (inPlace_standing _).mpr
        rw [map_unnumbered (fun _ => rfl) hsame]
        exact (inPlace_standing _).mp (hordered ((canonical_records hentries).mp hcanonical))
      kept := by
        rw [hsame]
        exact hkept.map _
      added := by
        refine ⟨_,hgrants,?_⟩
        intro π
        rw [map_unnumbered (fun _ => rfl) hsame]
        exact hcounted π
      numbered := by
        intro _ hall
        rw [List.all_eq_true.mpr hall, renumbered_places]
        simp [renumbered] }

end Overlays

/-! ### A directory with two entries -/

def folder : String := "\\\\fs\\s\\d"

/-- An entry of the folder for everyone. -/
def everyone (aceKey : String) (aceType : AceType) (source : AceSource) (orderIndex : ℤ) :
    NtfsAceRecord where
  aceKey := aceKey
  resourceKey := folder
  trusteeSid := "S-1-1-0"
  trusteeKey := "S-1-1-0"
  aceType := aceType
  accessMask := 1
  aceFlags := 0
  source := source
  inheritedFrom := none
  orderIndex := some orderIndex
  sourceKey := "collector"
  firstObservedAt := 0
  firstObservedRunId := "run"
  lastObservedAt := 0
  lastObservedRunId := "run"

/-- An unplaced addition for users that may carry a key. -/
def forUsers (aceKey : Option String) (aceType : AceType) : NtfsAceChange where
  kind := .addNtfsAce
  resourceKey := folder
  aceKey := aceKey
  trusteeSid := some "S-1-5-32-545"
  aceType := some aceType
  accessMask := some 2

theorem pair_bounded : ([] : List MembershipChange).length+
    [forUsers none .deny, forUsers none .allow].length+([] : List ShareAceChange).length+
    ([] : List InheritanceChange).length ≤ maxChanges := by decide

theorem pair_distinct : ((([] : List MembershipChange).map SimulationChange.membership ++
    [forUsers none .deny, forUsers none .allow].map SimulationChange.ntfs ++
    ([] : List ShareAceChange).map SimulationChange.share ++
    ([] : List InheritanceChange).map SimulationChange.inheritance).map (·.target)).Nodup := by
  decide

/-- A deny and an allow for users. -/
def usersPair : SimulationOverlay :=
  ⟨[],[forUsers none .deny, forUsers none .allow],[],[],pair_bounded,pair_distinct⟩

/-- What is there for everyone: a grant, and an inherited denial behind it. -/
def everyonePair : List NtfsAceRecord :=
  [everyone "a" .allow .explicit 0, everyone "b" .deny .inherited 1]

theorem users_added : ∃ result,
    overlayNtfsAcl String.toLower usersPair folder everyonePair none true = .ok result ∧
      Extended String.toLower usersPair folder everyonePair result := by
  have hadds : OnlyAdds usersPair everyonePair := by
    intro c hc
    have hcases : c = .ntfs (forUsers none .deny) ∨ c = .ntfs (forUsers none .allow) := by
      simpa [usersPair, SimulationOverlay.changes] using hc
    rcases hcases with rfl | rfl
    all_goals exact ⟨_,rfl,⟨by decide,rfl,rfl⟩,fun _ _ => nofun⟩
  obtain ⟨entries,hentries⟩ : ∃ entries, everyonePair.mapM entryFrom = .ok entries :=
    entries_exist (by decide)
  have hcanonical := (canonical_records hentries).mpr (by decide)
  have h := additions_keep_order String.toLower usersPair folder everyonePair none true entries
    hadds hentries hcanonical
  have hparsed : (parseUncPath (String.toLower folder)).toOption.isSome = true := by
    decide +kernel
  cases hpath : parseUncPath (String.toLower folder) with
  | error e =>
    rw [hpath] at hparsed
    cases hparsed
  | ok path =>
    obtain ⟨result,hresult⟩ := h.1 ⟨path,hpath⟩
    exact ⟨result,hresult,h.2 result hresult⟩

theorem keyed_bounded : ([] : List MembershipChange).length+
    [forUsers (some "a") .allow].length+([] : List ShareAceChange).length+
    ([] : List InheritanceChange).length ≤ maxChanges := by decide

theorem keyed_distinct : ((([] : List MembershipChange).map SimulationChange.membership ++
    [forUsers (some "a") .allow].map SimulationChange.ntfs ++
    ([] : List ShareAceChange).map SimulationChange.share ++
    ([] : List InheritanceChange).map SimulationChange.inheritance).map (·.target)).Nodup := by
  decide

/-- An addition that carries the key of an entry that is there. -/
def usersKeyed : SimulationOverlay :=
  ⟨[],[forUsers (some "a") .allow],[],[],keyed_bounded,keyed_distinct⟩

/-- A numbering with a gap stays on a directory that the overlay does not change, a permission
that is there twice stays there twice when it is added, and the entry whose key an addition
carries is rewritten. -/
theorem not_numbered_once_or_kept :
    ((overlayNtfsAcl String.toLower usersPair "\\\\fs\\s\\e"
      [everyone "a" .allow .explicit 3] none true).toOption.map fun r => r.map (·.orderIndex)) =
        some [some 3] ∧
    ((overlayNtfsAcl String.toLower usersPair folder
      [{ everyone "a" .allow .explicit 0 with
          trusteeKey := "S-1-5-32-545"
          accessMask := 2 },
       { everyone "b" .allow .explicit 1 with
          trusteeKey := "S-1-5-32-545"
          accessMask := 2 }] none true).toOption.map fun r =>
            (r.map permission).count ("S-1-5-32-545",.allow,2,0)) = some 2 ∧
    ((overlayNtfsAcl String.toLower usersKeyed folder
      [everyone "a" .allow .explicit 0] none true).toOption.map fun r =>
        r.map fun e => (e.trusteeSid,e.accessMask)) =
        some [("S-1-1-0",2), ("S-1-5-32-545",2)] := by
  decide +kernel

end Adg.CanonicalAdditions
