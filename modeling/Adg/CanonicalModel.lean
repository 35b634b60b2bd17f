import Adg.FirstMatch

/-!
# The canonical model beside the walk

Beside the walk an evaluation reports what "every allow, less every deny"
would have granted. On a DACL without order violations the two differ exactly
when an inherited deny of a bit stands behind an allow that had settled it.
-/

set_option autoImplicit false

namespace Adg.CanonicalModel
open Adg.Observation Adg.AccessConditions Adg.RightsAlgebra Adg.AccessSubjects Adg.Evaluation
open Adg.FirstMatch

/-- What canonical order asks of an entry and one standing before it. -/
def InPlace (earlier entry : AclEntry) : Prop :=
  entry.isInherited = false →
    earlier.isInherited = false ∧ (entry.isAllow = false → earlier.isAllow = false)

/-- What the rows already seen leave an entry to do to stay in order. -/
def Admits (scan : OrderScan) (entry : AclEntry) : Prop :=
  entry.isInherited = false →
    scan.firstInherited = none ∧ (entry.isAllow = false → scan.firstExplicitAllow = none)

theorem violationAt_nil (kind : OrderViolationKind) (entry : AclEntry × ℕ)
    (earlier : Option (AclEntry × ℕ)) : violationAt kind entry earlier = [] ↔ earlier = none := by
  cases earlier <;> simp [violationAt]

theorem scanEntry_clean (scan : OrderScan) (row : AclEntry × ℕ) :
    (scanEntry scan row).violations = [] ↔ scan.violations = [] ∧ Admits scan row.1 := by
  unfold scanEntry Admits
  cases hi : row.1.isInherited <;> cases ha : row.1.isAllow <;>
    simp [violationAt_nil]

theorem scanEntry_admits (scan : OrderScan) (row : AclEntry × ℕ) (e : AclEntry) :
    Admits (scanEntry scan row) e ↔ Admits scan e ∧ InPlace row.1 e := by
  unfold scanEntry Admits InPlace
  cases row.1.isInherited <;> cases row.1.isAllow <;> cases e.isInherited <;>
    cases e.isAllow <;> cases scan.firstInherited <;> cases scan.firstExplicitAllow <;> simp

theorem scan_clean (rows : List (AclEntry × ℕ)) (scan : OrderScan) :
    (rows.foldl scanEntry scan).violations = [] ↔
      scan.violations = [] ∧ (∀ row ∈ rows, Admits scan row.1) ∧
        (rows.map Prod.fst).Pairwise InPlace := by
  induction rows generalizing scan with
  | nil => simp
  | cons row rows ih =>
    rw [List.foldl_cons, ih, scanEntry_clean]
    simp only [scanEntry_admits, List.map_cons, List.pairwise_cons, List.forall_mem_map,
      List.forall_mem_cons, forall_and]
    constructor
    · rintro ⟨⟨hclean,hrow⟩,⟨hrows,hplace⟩,hrest⟩
      exact ⟨hclean,⟨hrow,hrows⟩,hplace,hrest⟩
    · rintro ⟨hclean,⟨hrow,hrows⟩,hplace,hrest⟩
      exact ⟨⟨hclean,hrow⟩,⟨hrows,hplace⟩,hrest⟩

/-- No violation is reported exactly when every two entries are in place. -/
theorem canonical_iff (entries : List AclEntry) :
    canonicalOrderViolations entries = [] ↔ entries.Pairwise InPlace := by
  unfold canonicalOrderViolations
  rw [scan_clean, List.zipIdx_map_fst]
  simp [Admits]

/-- The bits the two unions of a walk hold. -/
structure Gathered (w : Walk) (rows : List AclEntry) : Prop where
  allowed : ∀ b, w.allowUnion.getLsbD b =
    OrderedRules.named AclEntry.isAllow AclEntry.expanded true b rows
  refused : ∀ b, w.denyUnion.getLsbD b =
    OrderedRules.named AclEntry.isAllow AclEntry.expanded false b rows

theorem named_snoc (kind : Bool) (b : ℕ) (rows : List AclEntry) (e : AclEntry) :
    OrderedRules.named AclEntry.isAllow AclEntry.expanded kind b (rows ++ [e]) =
      (OrderedRules.named AclEntry.isAllow AclEntry.expanded kind b rows ||
        (e.isAllow == kind && e.expanded.getLsbD b)) := by
  simp [OrderedRules.named]

theorem fold_gathered {w : Walk} {rows : List AclEntry} (h : Gathered w rows) (e : AclEntry)
    (matched : TokenSid) (i : ℕ) (fs : List AccessFinding) :
    Gathered ((w.tally fs).fold (w.applied e matched i)) (rows ++ [e]) := by
  cases ha : e.isAllow with
  | true =>
    have hallow : ((w.tally fs).fold (w.applied e matched i)).allowUnion =
        w.allowUnion ||| e.expanded ∧
        ((w.tally fs).fold (w.applied e matched i)).denyUnion = w.denyUnion := by
      unfold Walk.fold
      rw [if_pos (show (w.applied e matched i).entry.isAllow = true from ha)]
      unfold Walk.allow
      split <;> exact ⟨rfl,rfl⟩
    constructor
    · intro b
      rw [hallow.1, named_snoc, ← h.allowed b, ha]
      simp
    · intro b
      rw [hallow.2, named_snoc, ← h.refused b, ha]
      simp
  | false =>
    have hrefuse : ((w.tally fs).fold (w.applied e matched i)).allowUnion = w.allowUnion ∧
        ((w.tally fs).fold (w.applied e matched i)).denyUnion = w.denyUnion ||| e.expanded := by
      have hn : ¬ (w.applied e matched i).entry.isAllow = true := by simp [Walk.applied, ha]
      unfold Walk.fold
      rw [if_neg hn]
      unfold Walk.refuse
      split <;> exact ⟨rfl,rfl⟩
    constructor
    · intro b
      rw [hrefuse.1, named_snoc, ← h.allowed b, ha]
      simp
    · intro b
      rw [hrefuse.2, named_snoc, ← h.refused b, ha]
      simp

theorem apply_gathered {token : SubjectToken} {owner : Option TokenSid} {w : Walk}
    {rows : List AclEntry} (h : Gathered w rows) (e : AclEntry) (i : ℕ) :
    Gathered (applyEntry token owner w (e,i))
      (rows ++ [e].filter (counts token owner)) := by
  cases hc : counts token owner e with
  | false =>
    obtain ⟨fs,hfs⟩ := apply_skipped w i hc
    rw [hfs, List.filter_cons_of_neg (by simp [hc]), List.filter_nil, List.append_nil]
    exact ⟨h.allowed,h.refused⟩
  | true =>
    obtain ⟨matched,fs,-,hfold⟩ := apply_counted w i hc
    rw [hfold, List.filter_cons_of_pos hc, List.filter_nil]
    exact fold_gathered h e matched i fs

theorem run_gathered (token : SubjectToken) (owner : Option TokenSid)
    (rows : List (AclEntry × ℕ)) {w : Walk} {done : List AclEntry} (h : Gathered w done) :
    Gathered (rows.foldl (applyEntry token owner) w)
      (done ++ (rows.map Prod.fst).filter (counts token owner)) := by
  induction rows generalizing w done with
  | nil => simpa using h
  | cons row rows ih =>
    have hrow : Gathered (applyEntry token owner w (row.1,row.2))
        (done ++ [row.1].filter (counts token owner)) := apply_gathered h row.1 row.2
    have hstep := ih hrow
    rwa [List.append_assoc, ← List.filter_append] at hstep

section Evaluated
variable (entries : List AclEntry) (token : SubjectToken) (layer : RightsLayer) (facts : DaclFacts)

/-- The two unions hold what the counting entries name, in any order. -/
theorem walkOver_gathered :
    Gathered (walkOver entries token layer facts) (counted entries token facts) := by
  have hstart : Gathered (({ layer } : Walk).note
      (ownerRightsOf (ownerTokenSidOf token facts) facts entries).2) [] := by
    constructor <;> intro b <;> simp [Walk.note, OrderedRules.named]
  have h := run_gathered token (ownerTokenSidOf token facts) entries.zipIdx hstart
  rwa [List.zipIdx_map_fst] at h

/-- The canonical rights of the walk, before the owner's are added. -/
def canonicalGrant : AccessMask :=
  (walkOver entries token layer facts).allowUnion &&&
    ~~~(walkOver entries token layer facts).denyUnion

theorem canonicalGrant_bit {b : ℕ} (hb : b < 32) :
    (canonicalGrant entries token layer facts).getLsbD b =
      OrderedRules.subtracted AclEntry.isAllow AclEntry.expanded b
        (counted entries token facts) := by
  have h := walkOver_gathered entries token layer facts
  unfold canonicalGrant OrderedRules.subtracted
  rw [BitVec.getLsbD_and, BitVec.getLsbD_not, h.allowed b, h.refused b]
  simp [hb]

/-- An inherited deny that takes no hold, because an allow before it had
settled one of its bits; rights held by ownership are not in question. -/
def InheritedDenyOvertaken : Prop :=
  ∃ b d, d.isInherited = true ∧ (ownerGrant entries token facts).getLsbD b = false ∧
    OrderedRules.Overtaken AclEntry.isAllow AclEntry.expanded b (counted entries token facts) d

/-- In canonical order no explicit deny is overtaken. -/
theorem overtaken_inherited {entries : List AclEntry} {token : SubjectToken} {facts : DaclFacts}
    (hcanonical : entries.Pairwise InPlace) {b : ℕ} {d : AclEntry}
    (h : OrderedRules.Overtaken AclEntry.isAllow AclEntry.expanded b
      (counted entries token facts) d) : d.isInherited = true := by
  obtain ⟨before,after,heq,hd,-,e,hdecides,ha⟩ := h
  have hplaced : (before ++ d :: after).Pairwise InPlace := by
    rw [← heq]
    exact hcanonical.filter _
  cases hi : d.isInherited with
  | true => rfl
  | false =>
    have hpair := (List.pairwise_append.mp hplaced).2.2 e (OrderedRules.decider_mem hdecides) d
      (by simp)
    have hdeny := (hpair hi).2 hd
    rw [ha] at hdeny
    cases hdeny

theorem grants_agree_iff (hcanonical : entries.Pairwise InPlace) :
    canonicalGrant entries token layer facts ||| ownerGrant entries token facts =
        (walkOver entries token layer facts).granted ||| ownerGrant entries token facts ↔
      ¬ InheritedDenyOvertaken entries token facts := by
  have hbit : ∀ b, b < 32 →
      ((canonicalGrant entries token layer facts).getLsbD b =
        (walkOver entries token layer facts).granted.getLsbD b ↔
      ∀ d, ¬ OrderedRules.Overtaken AclEntry.isAllow AclEntry.expanded b
        (counted entries token facts) d) := by
    intro b hb
    have hgranted := OrderedRules.settleAll_granted_bit AclEntry.isAllow AclEntry.expanded {}
      (counted entries token facts) b hb
    rw [← walkOver_settled entries token layer facts] at hgranted
    rw [canonicalGrant_bit entries token layer facts hb, ← OrderedRules.readings_agree_iff]
    have hplain : (walkOver entries token layer facts).granted.getLsbD b =
        (OrderedRules.decider AclEntry.expanded b (counted entries token facts)).any
          AclEntry.isAllow := by
      simpa [settled] using hgranted
    rw [hplain]
    exact eq_comm
  constructor
  · rintro heq ⟨b,d,-,howner,hover⟩
    have hb : b < 32 := by
      obtain ⟨-,-,-,-,hnamed,-⟩ := hover
      by_contra hge
      rw [BitVec.getLsbD_of_ge _ b (by omega)] at hnamed
      cases hnamed
    have hsame := congrArg (fun v => v.getLsbD b) heq
    simp only [BitVec.getLsbD_or, howner, Bool.or_false] at hsame
    exact (hbit b hb).mp hsame d hover
  · intro hnone
    apply BitVec.eq_of_getLsbD_eq
    intro b hb
    rw [BitVec.getLsbD_or, BitVec.getLsbD_or]
    cases howner : (ownerGrant entries token facts).getLsbD b with
    | true => simp
    | false =>
      rw [(hbit b hb).mpr]
      intro d hover
      exact hnone ⟨b,d,overtaken_inherited hcanonical hover,howner,hover⟩

end Evaluated

/-- No finding says that the order decided the result. -/
def Quiet (fs : List AccessFinding) : Prop := ∀ f ∈ fs, f.condition ≠ .orderDependentResult

theorem quiet_append {fs gs : List AccessFinding} : Quiet (fs ++ gs) ↔ Quiet fs ∧ Quiet gs := by
  unfold Quiet
  exact List.forall_mem_append

theorem quiet_nil : Quiet [] := by
  intro f hf
  cases hf

theorem quiet_one {f : AccessFinding} (h : f.condition ≠ .orderDependentResult) : Quiet [f] := by
  intro g hg
  rwa [List.mem_singleton.mp hg]

theorem quiet_ite {c : Prop} [Decidable c] {f : AccessFinding}
    (h : f.condition ≠ .orderDependentResult) : Quiet (if c then [f] else []) := by
  split
  · exact quiet_one h
  · exact quiet_nil

theorem unmatched_quiet (entry : AclEntry) (i : ℕ) (token : SubjectToken) :
    Quiet (unmatchedFindings entry i token) := by
  unfold unmatchedFindings
  exact quiet_ite (by simp)

theorem generic_quiet (entry : AclEntry) : Quiet (genericFindings entry) := by
  unfold genericFindings
  exact quiet_ite (by simp)

theorem fold_findings (w : Walk) (a : AppliedAce) : (w.fold a).findings = w.findings := by
  unfold Walk.fold Walk.allow Walk.refuse
  split <;> split <;> rfl

theorem apply_quiet {token : SubjectToken} {owner : Option TokenSid} {w : Walk}
    (h : Quiet w.findings) (row : AclEntry × ℕ) :
    Quiet (applyEntry token owner w row).findings := by
  obtain ⟨e,i⟩ := row
  simp only [applyEntry]
  split
  · exact h
  · split
    · exact quiet_append.mpr ⟨h,quiet_one (by simp)⟩
    · split
      · exact quiet_append.mpr ⟨h,unmatched_quiet _ _ _⟩
      · rw [fold_findings]
        exact quiet_append.mpr ⟨h,generic_quiet _⟩

theorem run_quiet {token : SubjectToken} {owner : Option TokenSid} (rows : List (AclEntry × ℕ))
    {w : Walk} (h : Quiet w.findings) :
    Quiet (rows.foldl (applyEntry token owner) w).findings := by
  induction rows generalizing w with
  | nil => exact h
  | cons row rows ih => exact ih (apply_quiet h row)

theorem ownerRights_quiet (owner : Option TokenSid) (facts : DaclFacts)
    (entries : List AclEntry) : Quiet (ownerRightsOf owner facts entries).2 := by
  unfold ownerRightsOf
  split
  · exact quiet_nil
  · split
    · exact quiet_nil
    · split <;> exact quiet_one (by simp)

theorem walkOver_quiet (entries : List AclEntry) (token : SubjectToken) (layer : RightsLayer)
    (facts : DaclFacts) : Quiet (walkOver entries token layer facts).findings := by
  apply run_quiet
  exact quiet_append.mpr ⟨quiet_nil,ownerRights_quiet _ _ _⟩

/-- The closing findings speak of the order exactly when the two masks differ. -/
theorem closing_quiet_iff (facts : DaclFacts) (supplied considered : List AclEntry)
    (violations : List OrderViolation) (rights canonical : RightsMask) :
    Quiet (closingFindings facts supplied considered violations rights canonical) ↔
      canonical = rights := by
  unfold closingFindings rightsConditions
  simp only [quiet_append]
  constructor
  · rintro ⟨⟨-,hdiffer⟩,-⟩
    by_contra hne
    rw [if_pos hne] at hdiffer
    exact hdiffer _ List.mem_cons_self rfl
  · intro heq
    rw [if_neg (not_not.mpr heq)]
    refine ⟨⟨⟨⟨⟨⟨?_,?_⟩,?_⟩,?_⟩,?_⟩,quiet_nil⟩,?_,?_⟩
    · exact quiet_ite (by simp)
    · exact quiet_ite (by simp)
    · exact quiet_ite (by simp)
    · split
      · exact quiet_nil
      · exact quiet_ite (by simp)
    · split
      · exact quiet_nil
      · exact quiet_one (by simp)
    · exact quiet_ite (by simp)
    · exact quiet_ite (by simp)

/-- What an evaluation of a present DACL reports about the two models. -/
theorem evaluated_models {supplied : List AclEntry} {token : SubjectToken} {layer : RightsLayer}
    {facts : DaclFacts} {ev : AclEvaluation} (h : evaluateAcl supplied token layer facts = .ok ev)
    (hp : facts.daclPresent = true) :
    ∃ canonical : RightsMask,
      canonical = ⟨canonicalGrant (supplied.take maxAclEntries) token layer facts |||
        ownerGrant (supplied.take maxAclEntries) token facts,layer⟩ ∧
      ev.rights = ⟨(walkOver (supplied.take maxAclEntries) token layer facts).granted |||
        ownerGrant (supplied.take maxAclEntries) token facts,layer⟩ ∧
      ev.canonicalRights = some canonical ∧ (Quiet ev.findings ↔ canonical = ev.rights) := by
  obtain ⟨hl,hs⟩ := evaluateAcl_layers h
  unfold evaluateAcl at h
  rw [if_neg hl, layers_agree.mpr hs] at h
  simp only [hp, withOwner_ok] at h
  cases h
  refine ⟨_,rfl,rfl,rfl,?_⟩
  rw [quiet_append, closing_quiet_iff]
  exact and_iff_right (walkOver_quiet _ _ _ _)

/-- On a DACL in canonical order the canonical model is the walk, and nothing
is said about the order, exactly when no inherited deny is overtaken. -/
theorem canonical_model_exact_iff (supplied : List AclEntry) (token : SubjectToken)
    (layer : RightsLayer) (facts : DaclFacts) (ev : AclEvaluation)
    (hcanonical : canonicalOrderViolations supplied = [])
    (h : evaluateAcl supplied token layer facts = .ok ev) :
    (∀ canonical, ev.canonicalRights = some canonical → canonical = ev.rights) ∧
        .orderDependentResult ∉ ev.findings.map (·.condition) ↔
      (facts.daclPresent = true →
        ¬ InheritedDenyOvertaken (supplied.take maxAclEntries) token facts) := by
  have hquiet : .orderDependentResult ∉ ev.findings.map (·.condition) ↔ Quiet ev.findings := by
    simp [Quiet, eq_comm]
  rw [hquiet]
  cases hp : facts.daclPresent with
  | false =>
    obtain ⟨hl,hs⟩ := evaluateAcl_layers h
    rw [evaluateAcl_null hl hs hp] at h
    cases h
    have hnull : Quiet (nullDacl layer facts supplied.length).findings := by
      unfold nullDacl
      split
      · exact quiet_append.mpr ⟨quiet_one (by simp),quiet_one (by simp)⟩
      · exact quiet_one (by simp)
    constructor
    · rintro - hfalse
      cases hfalse
    · intro _
      refine ⟨?_,hnull⟩
      intro c hc
      cases hc
  | true =>
    obtain ⟨canonical,hcanon,hrights,hsome,hsilent⟩ := evaluated_models h hp
    have hplaced : (supplied.take maxAclEntries).Pairwise InPlace :=
      ((canonical_iff supplied).mp hcanonical).sublist (List.take_sublist _ _)
    have hmasks : canonical = ev.rights ↔
        ¬ InheritedDenyOvertaken (supplied.take maxAclEntries) token facts := by
      rw [← grants_agree_iff (supplied.take maxAclEntries) token layer facts hplaced, hcanon,
        hrights]
      simp
    rw [hsome, hsilent, ← hmasks]
    constructor
    · rintro ⟨-,heq⟩ -
      exact heq
    · intro heq
      have hsame := heq rfl
      refine ⟨?_,hsame⟩
      rintro c hc
      rwa [← Option.some.inj hc]

namespace Sample
open Adg.FirstMatch.Sample

/-- An allow set on the object and a deny it inherits, in the order kept. -/
def overriddenDacl : List AclEntry :=
  [ace .allow financeSid NtfsRight.readData financeSid_ne,
    { ace .deny financeSid NtfsRight.readData financeSid_ne with source := .inherited }]

end Sample

theorem canonical_model_on_overridden_dacl :
    ∃ ev, evaluateAcl Sample.overriddenDacl FirstMatch.Sample.aliceToken .ntfs {} = .ok ev ∧
      ((∀ canonical, ev.canonicalRights = some canonical → canonical = ev.rights) ∧
          .orderDependentResult ∉ ev.findings.map (·.condition) ↔
        ((({} : DaclFacts).daclPresent = true) →
          ¬ InheritedDenyOvertaken (Sample.overriddenDacl.take maxAclEntries)
            FirstMatch.Sample.aliceToken {})) := by
  have hok : ∃ ev, evaluateAcl Sample.overriddenDacl FirstMatch.Sample.aliceToken .ntfs {} = .ok ev := by
    obtain ⟨ev,hev,-⟩ : ∃ ev, _ ∧ WalkResult _ FirstMatch.Sample.aliceToken .ntfs {} ev :=
      evaluateAcl_present (by decide)
        (show ∀ e ∈ Sample.overriddenDacl, e.layer = .ntfs by decide) rfl
    exact ⟨ev,hev⟩
  obtain ⟨ev,hev⟩ := hok
  exact ⟨ev,hev,canonical_model_exact_iff Sample.overriddenDacl FirstMatch.Sample.aliceToken .ntfs {}
    ev (by decide) hev⟩

/-- An allow set on the object stands before the deny it inherits, which is
the order Windows keeps: the read is granted, and the model says it is not. -/
theorem inherited_deny_behind_allow :
    ¬ ∀ (supplied : List AclEntry) (token : SubjectToken) (layer : RightsLayer)
      (facts : DaclFacts) (ev : AclEvaluation), canonicalOrderViolations supplied = [] →
      evaluateAcl supplied token layer facts = .ok ev →
      (∀ canonical, ev.canonicalRights = some canonical → canonical = ev.rights) ∧
        .orderDependentResult ∉ ev.findings.map (·.condition) := by
  intro h
  have hmasks : (evaluateAcl Sample.overriddenDacl FirstMatch.Sample.aliceToken .ntfs {}).map
      (fun ev => (ev.rights,ev.canonicalRights)) =
      .ok (⟨NtfsRight.readData,.ntfs⟩,some ⟨0,.ntfs⟩) := by
    decide +kernel
  cases hev : evaluateAcl Sample.overriddenDacl FirstMatch.Sample.aliceToken .ntfs {} with
  | error e =>
    rw [hev] at hmasks
    cases hmasks
  | ok ev =>
    rw [hev] at hmasks
    obtain ⟨hrights,hcanon⟩ := Prod.mk.inj (Except.ok.inj hmasks)
    have hsame := (h Sample.overriddenDacl FirstMatch.Sample.aliceToken .ntfs {} ev (by decide)
      hev).1 _ hcanon
    rw [hrights] at hsame
    exact absurd hsame (by decide)

end Adg.CanonicalModel
