import Adg.Evaluation

/-!
# The closed form of the access check

The two accumulators of the walk settle each bit by the first entry that
applies, matches the token and names it. The three lists of applied entries
partition those entries, and the two masks never overlap.
-/

set_option autoImplicit false

namespace Adg.FirstMatch
open Adg.Observation Adg.AccessConditions Adg.RightsAlgebra Adg.AccessSubjects Adg.Evaluation

/-- An entry that applies to this object and names a key of the token. -/
def counts (token : SubjectToken) (ownerTokenSid : Option TokenSid) (e : AclEntry) : Bool :=
  e.appliesToThisObject && !e.namesSubstitutionPlaceholder &&
    (matchEntry e token ownerTokenSid).isSome

def settled (w : Walk) : OrderedRules.Settled 32 := ⟨w.granted,w.denied⟩

/-- Every applied entry the walk has recorded, whatever it did. -/
def filed (w : Walk) : List AppliedAce := w.grantedBy ++ w.deniedBy ++ w.superseded

def placed (a : AppliedAce) : AclEntry × ℕ := (a.entry,a.position)

@[simp] theorem settled_note (w : Walk) (fs : List AccessFinding) :
    settled (w.note fs) = settled w := rfl

@[simp] theorem filed_note (w : Walk) (fs : List AccessFinding) :
    filed (w.note fs) = filed w := rfl

@[simp] theorem settled_tally (w : Walk) (fs : List AccessFinding) :
    settled (w.tally fs) = settled w := rfl

@[simp] theorem filed_tally (w : Walk) (fs : List AccessFinding) :
    filed (w.tally fs) = filed w := rfl

@[simp] theorem applied_tally (w : Walk) (fs : List AccessFinding) (e : AclEntry)
    (matched : TokenSid) (i : ℕ) : (w.tally fs).applied e matched i = w.applied e matched i := rfl

theorem apply_skipped {token : SubjectToken} {owner : Option TokenSid} (w : Walk)
    {e : AclEntry} (i : ℕ) (h : counts token owner e = false) :
    ∃ fs, applyEntry token owner w (e,i) = w.note fs := by
  unfold applyEntry
  cases ha : e.appliesToThisObject with
  | false => exact ⟨[],by simp [Walk.note, ha]⟩
  | true =>
    cases hp : e.namesSubstitutionPlaceholder with
    | true => exact ⟨_,by simp only [ha, hp]; rfl⟩
    | false =>
      cases hm : matchEntry e token owner with
      | none => exact ⟨unmatchedFindings e i token,by simp [ha, hp, hm]⟩
      | some matched => simp [counts, ha, hp, hm] at h

theorem apply_counted {token : SubjectToken} {owner : Option TokenSid} (w : Walk)
    {e : AclEntry} (i : ℕ) (h : counts token owner e = true) :
    ∃ matched fs, matchEntry e token owner = some matched ∧
      applyEntry token owner w (e,i) = (w.tally fs).fold (w.applied e matched i) := by
  simp only [counts, Bool.and_eq_true, Bool.not_eq_true'] at h
  obtain ⟨⟨ha,hp⟩,hm⟩ := h
  obtain ⟨matched,hm⟩ := Option.isSome_iff_exists.mp hm
  exact ⟨matched,genericFindings e,hm,by simp [applyEntry, ha, hp, hm]⟩

theorem allow_settled (w : Walk) (a : AppliedAce) :
    settled (w.allow a) = ⟨w.granted ||| a.contributed.value,w.denied⟩ := by
  unfold Walk.allow settled
  split
  · rfl
  · next h =>
    rw [not_not] at h
    simp [h]

theorem refuse_settled (w : Walk) (a : AppliedAce) :
    settled (w.refuse a) = ⟨w.granted,w.denied ||| a.contributed.value⟩ := by
  unfold Walk.refuse settled
  split
  · rfl
  · next h =>
    rw [not_not] at h
    simp [h]

theorem fold_settled (w : Walk) (e : AclEntry) (matched : TokenSid) (i : ℕ)
    (fs : List AccessFinding) :
    settled ((w.tally fs).fold (w.applied e matched i)) =
      OrderedRules.settle AclEntry.isAllow AclEntry.expanded (settled w) e := by
  unfold Walk.fold OrderedRules.settle OrderedRules.contribution
  cases ha : e.isAllow with
  | true =>
    rw [if_pos (show (w.applied e matched i).entry.isAllow = true from ha), allow_settled]
    simp [Walk.applied, Walk.tally, settled, ha]
  | false =>
    have hn : ¬ (w.applied e matched i).entry.isAllow = true := by simp [Walk.applied, ha]
    rw [if_neg hn, refuse_settled]
    simp [Walk.applied, Walk.tally, settled, ha]

theorem fold_filed (w : Walk) (a : AppliedAce) : (filed (w.fold a)).Perm (a :: filed w) := by
  have hlast (xs : List AppliedAce) : (xs ++ [a]).Perm (a::xs) := List.perm_append_singleton a xs
  unfold Walk.fold Walk.allow Walk.refuse filed
  split
  · split
    · exact ((hlast _).append_right _).append_right _
    · rw [← List.append_assoc]
      exact hlast _
  · split
    · rw [← List.append_assoc]
      exact (hlast _).append_right _
    · rw [← List.append_assoc]
      exact hlast _

/-- The step lemma of the accumulators. -/
theorem apply_settled (token : SubjectToken) (owner : Option TokenSid) (w : Walk)
    (e : AclEntry) (i : ℕ) :
    settled (applyEntry token owner w (e,i)) =
      if counts token owner e then
        OrderedRules.settle AclEntry.isAllow AclEntry.expanded (settled w) e
      else settled w := by
  cases h : counts token owner e with
  | false =>
    obtain ⟨fs,hfs⟩ := apply_skipped w i h
    simp [hfs]
  | true =>
    obtain ⟨matched,fs,-,hfold⟩ := apply_counted w i h
    rw [hfold, fold_settled]
    rfl

/-- The step lemma of the three lists. -/
theorem apply_filed (token : SubjectToken) (owner : Option TokenSid) (w : Walk)
    (e : AclEntry) (i : ℕ) :
    ((filed (applyEntry token owner w (e,i))).map placed).Perm
      (if counts token owner e then (e,i) :: (filed w).map placed else (filed w).map placed) := by
  cases h : counts token owner e with
  | false =>
    obtain ⟨fs,hfs⟩ := apply_skipped w i h
    simp [hfs]
  | true =>
    obtain ⟨matched,fs,-,hfold⟩ := apply_counted w i h
    rw [hfold]
    exact (fold_filed _ _).map placed

/-- What the three lists say about the masks. -/
structure Sorted (w : Walk) : Prop where
  granted : ∀ a ∈ w.grantedBy, a.entry.isAllow = true ∧ a.contributed.value ≠ 0
  denied : ∀ a ∈ w.deniedBy, a.entry.isAllow = false ∧ a.contributed.value ≠ 0
  superseded : ∀ a ∈ w.superseded, a.contributed.value = 0
  bits : ∀ b, w.granted.getLsbD b = w.grantedBy.any (·.contributed.value.getLsbD b)

theorem allow_sorted {w : Walk} {a : AppliedAce} (h : Sorted w) (ha : a.entry.isAllow = true) :
    Sorted (w.allow a) := by
  unfold Walk.allow
  split
  · next hc =>
    refine ⟨fun x hx => ?_,h.denied,h.superseded,fun b => ?_⟩
    · rcases List.mem_append.mp hx with hx | hx
      · exact h.granted x hx
      · rw [List.mem_singleton.mp hx]
        exact ⟨ha,hc⟩
    · simp [h.bits b]
  · next hc =>
    refine ⟨h.granted,h.denied,fun x hx => ?_,h.bits⟩
    rcases List.mem_append.mp hx with hx | hx
    · exact h.superseded x hx
    · rw [List.mem_singleton.mp hx]
      exact not_not.mp hc

theorem refuse_sorted {w : Walk} {a : AppliedAce} (h : Sorted w) (ha : a.entry.isAllow = false) :
    Sorted (w.refuse a) := by
  unfold Walk.refuse
  split
  · next hc =>
    refine ⟨h.granted,fun x hx => ?_,h.superseded,h.bits⟩
    rcases List.mem_append.mp hx with hx | hx
    · exact h.denied x hx
    · rw [List.mem_singleton.mp hx]
      exact ⟨ha,hc⟩
  · next hc =>
    refine ⟨h.granted,h.denied,fun x hx => ?_,h.bits⟩
    rcases List.mem_append.mp hx with hx | hx
    · exact h.superseded x hx
    · rw [List.mem_singleton.mp hx]
      exact not_not.mp hc

theorem fold_sorted {w : Walk} {a : AppliedAce} (h : Sorted w) : Sorted (w.fold a) := by
  unfold Walk.fold
  split
  · next ha => exact allow_sorted h ha
  · next ha => exact refuse_sorted h (by simpa using ha)

/-- What one applied record says about the entry it was made from. -/
structure Faithful (token : SubjectToken) (owner : Option TokenSid) (a : AppliedAce) : Prop where
  matched : matchEntry a.entry token owner = some a.matched
  considered : a.considered = a.entry.normalized.normalized
  contributed : ∃ m, a.contributed.value = a.entry.expanded &&& m

theorem apply_sorted {token : SubjectToken} {owner : Option TokenSid} {w : Walk}
    (h : Sorted w) (row : AclEntry × ℕ) : Sorted (applyEntry token owner w row) := by
  obtain ⟨e,i⟩ := row
  cases hc : counts token owner e with
  | false =>
    obtain ⟨fs,hfs⟩ := apply_skipped w i hc
    rw [hfs]
    exact ⟨h.granted,h.denied,h.superseded,h.bits⟩
  | true =>
    obtain ⟨matched,fs,-,hfold⟩ := apply_counted w i hc
    rw [hfold]
    exact fold_sorted ⟨h.granted,h.denied,h.superseded,h.bits⟩

theorem apply_faithful {token : SubjectToken} {owner : Option TokenSid} {w : Walk}
    (h : ∀ a ∈ filed w, Faithful token owner a) (row : AclEntry × ℕ) :
    ∀ a ∈ filed (applyEntry token owner w row), Faithful token owner a := by
  obtain ⟨e,i⟩ := row
  cases hc : counts token owner e with
  | false =>
    obtain ⟨fs,hfs⟩ := apply_skipped w i hc
    rwa [hfs]
  | true =>
    obtain ⟨matched,fs,hm,hfold⟩ := apply_counted w i hc
    rw [hfold]
    intro a ha
    rcases List.mem_cons.mp ((fold_filed _ _).mem_iff.mp ha) with rfl | hold
    · exact ⟨hm,rfl,_,rfl⟩
    · exact h a hold

section Run
variable (token : SubjectToken) (owner : Option TokenSid)

/-- The run lemma of the accumulators: the walk settles the counted entries. -/
theorem run_settled (rows : List (AclEntry × ℕ)) (w : Walk) :
    settled (rows.foldl (applyEntry token owner) w) =
      OrderedRules.settleAll AclEntry.isAllow AclEntry.expanded (settled w)
        ((rows.map Prod.fst).filter (counts token owner)) := by
  induction rows generalizing w with
  | nil => rfl
  | cons row rows ih =>
    obtain ⟨e,i⟩ := row
    rw [List.foldl_cons, ih, apply_settled, List.map_cons]
    cases hc : counts token owner e with
    | true => rw [List.filter_cons_of_pos hc, OrderedRules.settleAll_cons, if_pos rfl]
    | false => rw [List.filter_cons_of_neg (by simp [hc])]; rfl

/-- The run lemma of the lists: each counted row is filed once. -/
theorem run_filed (rows : List (AclEntry × ℕ)) (w : Walk) :
    ((filed (rows.foldl (applyEntry token owner) w)).map placed).Perm
      (rows.filter (fun row => counts token owner row.1) ++ (filed w).map placed) := by
  induction rows generalizing w with
  | nil => exact List.Perm.refl _
  | cons row rows ih =>
    obtain ⟨e,i⟩ := row
    rw [List.foldl_cons]
    refine (ih _).trans ?_
    have hstep := apply_filed token owner w e i
    cases hc : counts token owner e with
    | true =>
      rw [hc] at hstep
      rw [List.filter_cons_of_pos (by exact hc)]
      exact (hstep.append_left _).trans List.perm_middle
    | false =>
      rw [hc] at hstep
      rw [List.filter_cons_of_neg (by simp [hc])]
      exact hstep.append_left _

theorem run_sorted (rows : List (AclEntry × ℕ)) {w : Walk} (h : Sorted w) :
    Sorted (rows.foldl (applyEntry token owner) w) := by
  induction rows generalizing w with
  | nil => exact h
  | cons row rows ih => exact ih (apply_sorted h row)

theorem run_faithful (rows : List (AclEntry × ℕ)) {w : Walk}
    (h : ∀ a ∈ filed w, Faithful token owner a) :
    ∀ a ∈ filed (rows.foldl (applyEntry token owner) w), Faithful token owner a := by
  induction rows generalizing w with
  | nil => exact h
  | cons row rows ih => exact ih (apply_faithful h row)

end Run

section WalkOver
variable (entries : List AclEntry) (token : SubjectToken) (layer : RightsLayer) (facts : DaclFacts)

/-- The entries of a DACL that decide anything for this token. -/
def counted : List AclEntry := entries.filter (counts token (ownerTokenSidOf token facts))

theorem walkOver_settled :
    settled (walkOver entries token layer facts) =
      OrderedRules.settleAll AclEntry.isAllow AclEntry.expanded {} (counted entries token facts) := by
  unfold walkOver
  rw [run_settled, List.zipIdx_map_fst]
  rfl

theorem walkOver_filed :
    ((filed (walkOver entries token layer facts)).map placed).Perm
      (entries.zipIdx.filter fun row => counts token (ownerTokenSidOf token facts) row.1) := by
  have h := run_filed token (ownerTokenSidOf token facts) entries.zipIdx
    (({ layer } : Walk).note (ownerRightsOf (ownerTokenSidOf token facts) facts entries).2)
  have hstart : filed (({ layer } : Walk).note
      (ownerRightsOf (ownerTokenSidOf token facts) facts entries).2) = [] := rfl
  rwa [hstart, List.map_nil, List.append_nil] at h

theorem walkOver_sorted : Sorted (walkOver entries token layer facts) :=
  run_sorted _ _ _ ⟨by simp [Walk.note],by simp [Walk.note],by simp [Walk.note],
    by simp [Walk.note]⟩

theorem walkOver_faithful :
    ∀ a ∈ filed (walkOver entries token layer facts),
      Faithful token (ownerTokenSidOf token facts) a :=
  run_faithful _ _ _ (by simp [filed, Walk.note])

theorem walkOver_disjoint :
    OrderedRules.Disjoint (settled (walkOver entries token layer facts)) := by
  rw [walkOver_settled]
  exact OrderedRules.settleAll_disjoint _ _ _ _ OrderedRules.empty_disjoint

/-- The first entry that counts and names the bit. -/
def decidingEntry (b : ℕ) : Option AclEntry :=
  entries.find? fun e =>
    counts token (ownerTokenSidOf token facts) e && e.expanded.getLsbD b

theorem decidingEntry_eq (b : ℕ) :
    decidingEntry entries token facts b =
      OrderedRules.decider AclEntry.expanded b (counted entries token facts) := by
  unfold decidingEntry OrderedRules.decider counted
  rw [List.find?_filter]
  simp

theorem walkOver_granted_iff (b : ℕ) :
    (walkOver entries token layer facts).granted.getLsbD b = true ↔
      ∃ e, decidingEntry entries token facts b = some e ∧ e.isAllow = true := by
  have h := OrderedRules.granted_iff AclEntry.isAllow AclEntry.expanded
    (counted entries token facts) b
  rw [← walkOver_settled entries token layer facts, ← decidingEntry_eq] at h
  exact h

end WalkOver

section Evaluated
variable (supplied : List AclEntry) (token : SubjectToken) (layer : RightsLayer)
  (facts : DaclFacts)

/-- The owner's implicit rights as a mask: nothing when they do not apply. -/
def ownerGrant : AccessMask :=
  match (ownerRightsOf (ownerTokenSidOf token facts) facts supplied).1 with
  | none => 0
  | some owner => owner.value

/-- What `evaluateAcl` reports of a walk over a present DACL. -/
structure WalkResult (ev : AclEvaluation) : Prop where
  layer_eq : ev.layer = layer
  rights : ev.rights = ⟨(walkOver supplied token layer facts).granted |||
    ownerGrant supplied token facts,layer⟩
  grantedBy : ev.grantedBy = (walkOver supplied token layer facts).grantedBy
  deniedBy : ev.deniedBy = (walkOver supplied token layer facts).deniedBy
  superseded : ev.superseded = (walkOver supplied token layer facts).superseded
  ownerRights : ev.ownerRights =
    (ownerRightsOf (ownerTokenSidOf token facts) facts supplied).1

end Evaluated

theorem withOwner_ok (v : AccessMask) (layer : RightsLayer) (owner : Option RightsMask) :
    withOwner ⟨v,layer⟩ owner =
      .ok ⟨v ||| (match owner with | none => 0 | some o => o.value),layer⟩ := by
  cases owner <;> simp [withOwner]

/-- The layers agree exactly when the scan for a foreign entry finds none. -/
theorem layers_agree {supplied : List AclEntry} {layer : RightsLayer} :
    supplied.find? (·.layer ≠ layer) = none ↔ ∀ e ∈ supplied, e.layer = layer := by
  simp [List.find?_eq_none]

theorem evaluateAcl_present {supplied : List AclEntry} {token : SubjectToken}
    {layer : RightsLayer} {facts : DaclFacts} (hl : layer ≠ .effective)
    (hs : ∀ e ∈ supplied, e.layer = layer) (hp : facts.daclPresent = true) :
    ∃ ev, evaluateAcl supplied token layer facts = .ok ev ∧
      WalkResult (supplied.take maxAclEntries) token layer facts ev := by
  unfold evaluateAcl
  rw [if_neg hl, layers_agree.mpr hs]
  simp only [hp, withOwner_ok]
  exact ⟨_,rfl,⟨rfl,rfl,rfl,rfl,rfl,rfl⟩⟩

theorem evaluateAcl_null {supplied : List AclEntry} {token : SubjectToken}
    {layer : RightsLayer} {facts : DaclFacts} (hl : layer ≠ .effective)
    (hs : ∀ e ∈ supplied, e.layer = layer) (hp : facts.daclPresent = false) :
    evaluateAcl supplied token layer facts = .ok (nullDacl layer facts supplied.length) := by
  unfold evaluateAcl
  rw [if_neg hl, layers_agree.mpr hs]
  simp only [hp]
  rfl

/-- An evaluation that returns was asked about one ACL layer throughout. -/
theorem evaluateAcl_layers {supplied : List AclEntry} {token : SubjectToken}
    {layer : RightsLayer} {facts : DaclFacts} {ev : AclEvaluation}
    (h : evaluateAcl supplied token layer facts = .ok ev) :
    layer ≠ .effective ∧ ∀ e ∈ supplied, e.layer = layer := by
  unfold evaluateAcl at h
  by_cases hl : layer = .effective
  · rw [if_pos hl] at h
    cases h
  · refine ⟨hl,?_⟩
    rw [if_neg hl] at h
    rw [← layers_agree]
    cases hf : supplied.find? (·.layer ≠ layer) with
    | none => rfl
    | some e => rw [hf] at h; cases h

/-- The token holds the key the object's owner is stored under. -/
def HoldsOwner (token : SubjectToken) (facts : DaclFacts) : Prop :=
  ∃ key, facts.ownerKey = some key ∧ token.contains key = true

/-- Some OWNER RIGHTS entry applies to the object itself. -/
def OwnerRightsPresent (entries : List AclEntry) : Prop :=
  ∃ e ∈ entries, e.namesOwnerRights = true ∧ e.appliesToThisObject = true

instance (entries : List AclEntry) : Decidable (OwnerRightsPresent entries) := by
  unfold OwnerRightsPresent
  infer_instance

theorem holdsOwner_iff {token : SubjectToken} {facts : DaclFacts} :
    HoldsOwner token facts ↔ (ownerTokenSidOf token facts).isSome = true := by
  unfold HoldsOwner ownerTokenSidOf SubjectToken.contains
  cases facts.ownerKey with
  | none => simp
  | some key => simp

/-- The owner's bits are granted to an owner the descriptor names by SID. -/
theorem ownerGrant_bit (entries : List AclEntry) (token : SubjectToken) (facts : DaclFacts)
    (b : ℕ) :
    (ownerGrant entries token facts).getLsbD b = true ↔
      HoldsOwner token facts ∧ facts.ownerSid ≠ none ∧ ¬ OwnerRightsPresent entries ∧
        ownerImplicitRights.value.getLsbD b = true := by
  rw [holdsOwner_iff]
  unfold ownerGrant ownerRightsOf
  cases facts.ownerSid with
  | none => simp
  | some owner =>
    cases ho : ownerTokenSidOf token facts with
    | none => simp
    | some entry =>
      by_cases hr : OwnerRightsPresent entries
      · have hany : entries.any (fun e => e.namesOwnerRights && e.appliesToThisObject) = true := by
          simpa [OwnerRightsPresent] using hr
        simp [hany, hr]
      · have hany : entries.any (fun e => e.namesOwnerRights && e.appliesToThisObject) = false := by
          simpa [OwnerRightsPresent] using hr
        simp [hany, hr]

/-- The walk after the first `n` entries. -/
def walkPrefix (entries : List AclEntry) (token : SubjectToken) (layer : RightsLayer)
    (facts : DaclFacts) (n : ℕ) : Walk :=
  (entries.zipIdx.take n).foldl (applyEntry token (ownerTokenSidOf token facts))
    (({ layer } : Walk).note (ownerRightsOf (ownerTokenSidOf token facts) facts entries).2)

theorem walkPrefix_disjoint (entries : List AclEntry) (token : SubjectToken)
    (layer : RightsLayer) (facts : DaclFacts) (n : ℕ) :
    OrderedRules.Disjoint (settled (walkPrefix entries token layer facts n)) := by
  unfold walkPrefix
  rw [run_settled]
  exact OrderedRules.settleAll_disjoint _ _ _ _ OrderedRules.empty_disjoint

/-- The access check is first match: a bit is held by an owner the descriptor
names, or because the first counting entry that names it is an allow. -/
theorem evaluate_acl_first_match (entries : List AclEntry) (token : SubjectToken)
    (layer : RightsLayer) (facts : DaclFacts) (hl : layer ≠ .effective)
    (hs : ∀ e ∈ entries, e.layer = layer) (hlen : entries.length ≤ maxAclEntries)
    (hp : facts.daclPresent = true) :
    ∃ ev, evaluateAcl entries token layer facts = .ok ev ∧
      (∀ b, ev.rights.value.getLsbD b = true ↔
        (HoldsOwner token facts ∧ facts.ownerSid ≠ none ∧ ¬ OwnerRightsPresent entries ∧
          (NtfsRight.readControl ||| NtfsRight.writeDac).getLsbD b = true) ∨
        ∃ e, decidingEntry entries token facts b = some e ∧ e.isAllow = true) ∧
      ((ev.grantedBy ++ ev.deniedBy ++ ev.superseded).map placed).Perm
        (entries.zipIdx.filter fun row => counts token (ownerTokenSidOf token facts) row.1) ∧
      (∀ n, (walkPrefix entries token layer facts n).granted &&&
        (walkPrefix entries token layer facts n).denied = 0) ∧
      ∀ a ∈ ev.grantedBy ++ ev.deniedBy, a.contributed.value ≠ 0 := by
  obtain ⟨ev,hev,hw⟩ := evaluateAcl_present hl hs hp
  rw [List.take_of_length_le hlen] at hw
  have hsorted := walkOver_sorted entries token layer facts
  refine ⟨ev,hev,fun b => ?_,?_,fun n => walkPrefix_disjoint entries token layer facts n,?_⟩
  · rw [hw.rights, BitVec.getLsbD_or, Bool.or_eq_true, or_comm, ownerGrant_bit]
    rw [walkOver_granted_iff]
    rfl
  · rw [hw.grantedBy, hw.deniedBy, hw.superseded]
    exact walkOver_filed entries token layer facts
  · rw [hw.grantedBy, hw.deniedBy]
    intro a ha
    rcases List.mem_append.mp ha with hg | hd
    · exact (hsorted.granted a hg).2
    · exact (hsorted.denied a hd).2

namespace Sample

def aliceSid : String := "S-1-5-21-1-1-1-1001"
def financeSid : String := "S-1-5-21-1-1-1-2001"

theorem aliceSid_ne : aliceSid ≠ "" := by decide

theorem financeSid_ne : financeSid ≠ "" := by decide

def alice : SubjectFacts :=
  { key := aliceSid, sid := aliceSid, kind := some .user, key_ne := aliceSid_ne }

def finance : TokenSid :=
  { key := financeSid, sid := financeSid, origin := .groupMembership, depth := 1
    path := [aliceSid, financeSid], key_ne := financeSid_ne }

/-- Alice at the console, in one group. -/
def aliceToken : SubjectToken := buildToken alice [finance] .localPath none true []

/-- One entry of a DACL, allowing or denying a mask to a SID. -/
def ace (aceType : AceType) (sid : String) (value : AccessMask) (h : sid ≠ "") :
    AclEntry :=
  { trusteeKey := sid, trusteeSid := sid, aceType := aceType, mask := ⟨value,.ntfs⟩
    trustee_ne := h, mask_observed := by simp }

def mixedDacl : List AclEntry :=
  [ace .deny financeSid NtfsRight.genericWrite financeSid_ne,
    ace .allow everyoneSid NtfsRight.genericAll everyoneSid_ne]

end Sample

theorem first_match_on_mixed_dacl :
    ∃ ev, evaluateAcl Sample.mixedDacl Sample.aliceToken .ntfs {} = .ok ev ∧
      ∀ a ∈ ev.grantedBy ++ ev.deniedBy, a.contributed.value ≠ 0 := by
  obtain ⟨ev,hev,-,-,-,hne⟩ := evaluate_acl_first_match Sample.mixedDacl Sample.aliceToken .ntfs {}
    (by decide) (by decide) (by decide) rfl
  exact ⟨ev,hev,hne⟩

/-- A descriptor that records the owner's key and no owner SID. The token
holds the key and no entry is present, and no implicit right is granted. -/
theorem owner_key_without_sid :
    ¬ ∀ (entries : List AclEntry) (token : SubjectToken) (layer : RightsLayer)
      (facts : DaclFacts), layer ≠ .effective → (∀ e ∈ entries, e.layer = layer) →
      entries.length ≤ maxAclEntries → facts.daclPresent = true →
      ∃ ev, evaluateAcl entries token layer facts = .ok ev ∧
        ∀ b, ev.rights.value.getLsbD b = true ↔
          (HoldsOwner token facts ∧ ¬ OwnerRightsPresent entries ∧
            (NtfsRight.readControl ||| NtfsRight.writeDac).getLsbD b = true) ∨
          ∃ e, decidingEntry entries token facts b = some e ∧ e.isAllow = true := by
  intro h
  obtain ⟨ev,hev,hbits⟩ := h [] Sample.aliceToken .ntfs { ownerKey := some Sample.aliceSid }
    (by decide) (by decide) (by decide) rfl
  have hheld : ev.rights.value.getLsbD 17 = true :=
    (hbits 17).mpr (.inl ⟨⟨_,rfl,by decide⟩,by decide,by decide⟩)
  have hnone : (evaluateAcl [] Sample.aliceToken .ntfs
      { ownerKey := some Sample.aliceSid }).map (·.rights.value) = .ok 0 := by decide
  rw [hev] at hnone
  have hzero : ev.rights.value = 0 := Except.ok.inj hnone
  rw [hzero] at hheld
  exact absurd hheld (by decide)

end Adg.FirstMatch
