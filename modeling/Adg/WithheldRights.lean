import Adg.NovelEntries

/-!
# What a deny path claims to withhold

A deny is credited with the rights it is the first to name. The owner's
implicit rights do not pass through the walk, so a deny that names them first
is credited with rights the owner holds all the same.
-/

set_option autoImplicit false

namespace Adg.WithheldRights
open Adg.Observation Adg.RightsAlgebra Adg.AccessConditions Adg.AccessSubjects Adg.Evaluation
open Adg.FirstMatch Adg.AccessResolver Adg.ResolvedRights Adg.LowerBound Adg.MembershipGraph
open Adg.AccessCausality Adg.RemovalAnalysis Adg.Decomposition Adg.NovelEntries
open Adg.Fallible (bind_ok mapped_ok)

/-- The rights a path claims are all withheld, and a path that changes the
answer claims one at least. -/
def Withheld (access : EffectiveAccess) (p : CausalPath) : Prop :=
  p.effectiveRights.value &&& access.rights.value = 0 ∧
    (p.effect = .contributes → ∃ b, p.effectiveRights.value.getLsbD b = true ∧
      access.rights.value.getLsbD b = false)

section Layer
variable {token : SubjectToken} {supplied : List AclEntry} {layer : RightsLayer}
  {facts : DaclFacts} {ev : AclEvaluation}

/-- What a layer permits of a bit its settler refuses: nothing but ownership. -/
theorem refused_bit (hw : WalkResult supplied token layer facts ev) {b : ℕ}
    {row : AclEntry × ℕ} (hrow : settler supplied token facts b = some row)
    (hdeny : row.1.isAllow = false) :
    ev.rights.value.getLsbD b = (ownerGrant supplied token facts).getLsbD b := by
  have hdecides : decidingEntry supplied token facts b = some row.1 := by
    rw [← settler_entry, hrow]
    rfl
  have hgranted : (walkOver supplied token layer facts).granted.getLsbD b = false := by
    rw [← Bool.not_eq_true, walkOver_granted_iff]
    rintro ⟨e,he,ha⟩
    rw [hdecides] at he
    cases he
    rw [hdeny] at ha
    cases ha
  rw [hw.rights, BitVec.getLsbD_or, hgranted, Bool.false_or]

/-- An evaluation with matched entries walked a DACL that was there. -/
theorem applied_walk {entries : List AclEntry}
    (h : evaluateAcl entries token layer facts = .ok ev) {a : AppliedAce}
    (ha : a ∈ appliedEntries ev) : facts.daclPresent = true := by
  cases hp : facts.daclPresent with
  | true => rfl
  | false =>
    obtain ⟨hl,hs⟩ := evaluateAcl_layers h
    rw [evaluateAcl_null hl hs hp] at h
    cases h
    cases ha

end Layer

theorem zero_iff_bits (v : AccessMask) : v = 0 ↔ ∀ b, v.getLsbD b = false := by
  constructor
  · rintro rfl b
    exact BitVec.getLsbD_zero
  · intro h
    apply BitVec.eq_of_getLsbD_eq
    intro b _
    rw [h b]
    exact BitVec.getLsbD_zero.symm

theorem meets_iff_bits (v w : AccessMask) :
    v &&& w ≠ 0 ↔ ∃ b, v.getLsbD b = true ∧ w.getLsbD b = true := by
  rw [Ne, zero_iff_bits]
  simp [BitVec.getLsbD_and]

section Path
variable {q : Question} {layer : RightsLayer} {ev : AclEvaluation} {a : AppliedAce}
  {p : CausalPath}

theorem effective_bit (h : EntryPath q layer ev a p) (b : ℕ) :
    p.effectiveRights.value.getLsbD b = true ↔
      (novelAt (novelContributions ev) a.position).getLsbD b = true ∧
        ((otherLayer q layer).getD (BitVec.allOnes 32)).getLsbD b = true := by
  have heffective : p.effectiveRights = (crossing q (novelAt (novelContributions ev) a.position)
      layer).1 := congrArg Prod.fst h.crossed
  rw [heffective, crossing_value, BitVec.getLsbD_and, Bool.and_eq_true]

/-- What the entry settled and the path does not deliver, the other layer withholds. -/
theorem constrained_bit (h : EntryPath q layer ev a p) {b : ℕ}
    (hnovel : (novelAt (novelContributions ev) a.position).getLsbD b = true)
    (hstopped : p.effectiveRights.value.getLsbD b = false) :
    p.constrainedRights.value.getLsbD b = true := by
  have hb : b < 32 := BitVec.lt_of_getLsbD hnovel
  have hcrossed := h.crossed
  unfold crossing at hcrossed
  cases hother : otherLayer q layer with
  | none =>
    rw [hother] at hcrossed
    rw [(Prod.mk.inj hcrossed).1, hnovel] at hstopped
    cases hstopped
  | some other =>
    rw [hother] at hcrossed
    rw [(Prod.mk.inj hcrossed).1, BitVec.getLsbD_and, hnovel, Bool.true_and] at hstopped
    rw [(Prod.mk.inj hcrossed).2, BitVec.getLsbD_and, BitVec.getLsbD_not, hnovel, hstopped]
    simp [hb]

/-- A path that changes the answer delivers something. -/
theorem contributes_delivers (h : EntryPath q layer ev a p) (hc : p.effect = .contributes) :
    ∃ b, p.effectiveRights.value.getLsbD b = true := by
  have heffect := h.effect
  rw [hc] at heffect
  unfold effectOf at heffect
  by_contra hnone
  have hdelivered : ∀ b, p.effectiveRights.value.getLsbD b = false := by
    intro b
    rw [← Bool.not_eq_true]
    exact fun hb => hnone ⟨b,hb⟩
  have hempty : p.effectiveRights.isEmpty = true := by
    unfold RightsMask.isEmpty
    rw [decide_eq_true_eq]
    exact (zero_iff_bits _).mpr hdelivered
  split at heffect
  · cases heffect
  · next hnovel =>
    have hbit : ∃ b, (novelAt (novelContributions ev) a.position).getLsbD b = true := by
      by_contra hnobit
      apply hnovel
      rw [zero_iff_bits]
      intro b
      rw [← Bool.not_eq_true]
      exact fun hb => hnobit ⟨b,hb⟩
    obtain ⟨b,hb⟩ := hbit
    have hconstrained : p.constrainedRights.isEmpty = false := by
      unfold RightsMask.isEmpty
      rw [decide_eq_false_iff_not, zero_iff_bits]
      intro hzero
      have hc := constrained_bit h hb (hdelivered b)
      rw [hzero b] at hc
      cases hc
    rw [hempty, hconstrained] at heffect
    cases heffect

/-- A deny path claims held rights only where its entry settles a bit that
ownership grants past it and the other layer lets through. -/
theorem overlap_iff {token : SubjectToken} {supplied : List AclEntry} {facts : DaclFacts}
    {answer : AccessMask} (hw : WalkResult supplied token layer facts ev)
    (hanswer : answer = ev.rights.value &&& (otherLayer q layer).getD (BitVec.allOnes 32))
    (ha : a ∈ appliedEntries ev) (hdeny : a.entry.isAllow = false) (h : EntryPath q layer ev a p) :
    p.effectiveRights.value &&& answer ≠ 0 ↔
      ∃ b, settler supplied token facts b = some (a.entry,a.position) ∧
        (ownerGrant supplied token facts).getLsbD b = true ∧
        ((otherLayer q layer).getD (BitVec.allOnes 32)).getLsbD b = true := by
  rw [meets_iff_bits]
  apply exists_congr
  intro b
  have hnovel (hb : b < 32) : (novelAt (novelContributions ev) a.position).getLsbD b = true ↔
      settler supplied token facts b = some (a.entry,a.position) := by
    rw [novel_bit hw ha hb]
    simp [hdeny]
  rw [effective_bit h, hanswer, BitVec.getLsbD_and, Bool.and_eq_true]
  constructor
  · rintro ⟨⟨hn,ho⟩,hr,-⟩
    have hsettles := (hnovel (BitVec.lt_of_getLsbD hn)).mp hn
    rw [refused_bit hw hsettles hdeny] at hr
    exact ⟨hsettles,hr,ho⟩
  · rintro ⟨hsettles,hown,ho⟩
    have hn := (hnovel (BitVec.lt_of_getLsbD hown)).mpr hsettles
    rw [← refused_bit hw hsettles hdeny] at hown
    exact ⟨⟨hn,ho⟩,hown,ho⟩

/-- A path that claims nothing held and changes the answer claims something withheld. -/
theorem withheld_iff_disjoint {access : EffectiveAccess} (h : EntryPath q layer ev a p) :
    Withheld access p ↔ p.effectiveRights.value &&& access.rights.value = 0 := by
  constructor
  · intro hp
    exact hp.1
  · intro hdisjoint
    refine ⟨hdisjoint,fun hc => ?_⟩
    obtain ⟨b,hb⟩ := contributes_delivers h hc
    have hclear := (zero_iff_bits _).mp hdisjoint b
    rw [BitVec.getLsbD_and, hb, Bool.true_and] at hclear
    exact ⟨b,hb,hclear⟩

end Path

/-- The share, where it was read, lets a bit through. -/
def SharePasses (token : SubjectToken) (share : Option ShareDacl) (b : ℕ) : Prop :=
  ∀ s, share = some s → s.observed = true →
    LetsThrough (s.entries.take maxAclEntries) token unownedPresentDacl b

/-- The entry at a position of the file system's DACL is the first to name a
right that ownership grants past it and the share lets through. -/
def NamesOwnersRight (token : SubjectToken) (resource : ResourceDacl) (share : Option ShareDacl)
    (position : ℤ) : Prop :=
  resource.daclPresent = true ∧ ∃ b e i,
    settler (resource.entries.take maxAclEntries) token resource.facts b = some (e,i) ∧
      (i : ℤ) = position ∧
      (ownerGrant (resource.entries.take maxAclEntries) token resource.facts).getLsbD b = true ∧
      SharePasses token share b

/-- No deny is the first to name a right of the owner that the share lets through. -/
def OwnersRightsUndenied (token : SubjectToken) (resource : ResourceDacl)
    (share : Option ShareDacl) : Prop :=
  resource.daclPresent = true → ∀ b,
    (ownerGrant (resource.entries.take maxAclEntries) token resource.facts).getLsbD b = true →
    SharePasses token share b → ∀ e,
      decidingEntry (resource.entries.take maxAclEntries) token resource.facts b = some e →
        e.isAllow = true

section Answer
variable {token : SubjectToken} {resource : ResourceDacl} {share : Option ShareDacl}
  {fs : List AccessFinding} {access : EffectiveAccess} {q : Question}

theorem answer_expanded (hacc : resolveAccess token resource share fs = .ok access) :
    access.rights.expandGenerics.value = access.rights.value := by
  have hres := resolveAccess_spec hacc
  rw [hres.rights]
  exact congrArg RightsMask.value
    (RightsMask.expand_specific ⟨_,.effective⟩ (resolvedMask_specific token resource share))

/-- What the share's mask lets through, read off its evaluation. -/
theorem otherLayer_ntfs (hacc : resolveAccess token resource share fs = .ok access)
    (hq : q.access = access) {b : ℕ} (hb : b < 32) :
    ((otherLayer q .ntfs).getD (BitVec.allOnes 32)).getLsbD b = true ↔
      SharePasses token share b := by
  have hres := resolveAccess_spec hacc
  rcases share_evaluation hres with ⟨hnone,hunread⟩ | ⟨s,ev,rfl,ho,hev,heval⟩
  · have hother : otherLayer q .ntfs = none := by simp [otherLayer, hq, hnone]
    rw [hother]
    constructor
    · intro _ s hs hobs
      rw [hunread s hs] at hobs
      cases hobs
    · intro _
      show (BitVec.allOnes 32).getLsbD b = true
      rw [BitVec.getLsbD_allOnes, decide_eq_true_eq]
      exact hb
  · have hother : otherLayer q .ntfs =
        some (aclRights s.entries token .smbShare unownedPresentDacl) := by
      simp only [otherLayer, hq, hev, if_true, evaluateAcl_rights heval]
      exact congrArg some (congrArg RightsMask.value (aclRights_expanded _ _ _ _ _))
    have hpresent : unownedPresentDacl.daclPresent = true := rfl
    rw [hother]
    show (aclRights s.entries token .smbShare unownedPresentDacl).getLsbD b = true ↔ _
    rw [aclRights_bit hpresent s.entries token .smbShare b]
    constructor
    · intro h s' hs' _
      cases hs'
      exact h
    · intro h
      exact h s rfl ho

theorem unowned_grants_nothing (token : SubjectToken) (entries : List AclEntry) (b : ℕ) :
    (ownerGrant entries token unownedPresentDacl).getLsbD b = false := by
  rw [← Bool.not_eq_true, ownerGrant_bit]
  rintro ⟨-,howner,-⟩
  exact howner rfl

/-- The rows of one position are one row. -/
theorem settler_same {entries : List AclEntry} {facts : DaclFacts} {b i : ℕ} {e : AclEntry}
    {a : AppliedAce} {layer : RightsLayer} {ev : AclEvaluation}
    (hw : WalkResult entries token layer facts ev) (ha : a ∈ appliedEntries ev)
    (hsettles : settler entries token facts b = some (e,i)) (hi : (i : ℤ) = a.position) :
    settler entries token facts b = some (a.entry,a.position) := by
  have hplace : i = a.position := by exact_mod_cast hi
  subst hplace
  obtain ⟨before,after,hsplit,-⟩ := applied_exact hw ha
  have hmem : (e,a.position) ∈ entries.zipIdx := List.mem_of_find?_eq_some hsettles
  have hmem' : (a.entry,a.position) ∈ entries.zipIdx := by
    rw [hsplit]
    simp
  rw [List.mem_zipIdx_iff_getElem?] at hmem hmem'
  have hsame : e = a.entry := Option.some.inj (hmem.symm.trans hmem')
  rw [hsettles, hsame]

/-- A deny path is right about what it withholds exactly when its entry does
not name a right of the owner first. -/
theorem deny_withheld_iff (hacc : resolveAccess token resource share fs = .ok access)
    (hq : q.access = access) {row : RightsLayer × AclEvaluation}
    (hrow : row ∈ evaluations access) {a : AppliedAce} (ha : a ∈ appliedEntries row.2)
    {p : CausalPath} (h : EntryPath q row.1 row.2 a p) (hdeny : p.isGrant = false) :
    Withheld access p ↔
      ¬ (p.layer = .ntfs ∧ NamesOwnersRight token resource share p.acePosition) := by
  rw [isGrant_entry h] at hdeny
  have heval := evaluation_row hacc hrow
  have hpresent := applied_walk heval ha
  have hw := walk_of_evaluation heval hpresent
  have hanswer := answer_row hacc hq hrow
  rw [answer_expanded hacc] at hanswer
  rw [withheld_iff_disjoint h, ← not_ne_iff, not_iff_not, overlap_iff hw hanswer ha hdeny h,
    h.layer_eq, h.position]
  unfold evaluations at hrow
  rcases List.mem_cons.mp hrow with rfl | hshare
  · constructor
    · rintro ⟨b,hsettles,hown,ho⟩
      have hb := BitVec.lt_of_getLsbD hown
      exact ⟨rfl,hpresent,b,a.entry,a.position,hsettles,rfl,hown,(otherLayer_ntfs hacc hq hb).mp ho⟩
    · rintro ⟨-,-,b,e,i,hsettles,hi,hown,hpass⟩
      have hb := BitVec.lt_of_getLsbD hown
      exact ⟨b,settler_same hw ha hsettles hi,hown,(otherLayer_ntfs hacc hq hb).mpr hpass⟩
  · have hlayer : row.1 = .smbShare := by
      cases hs : access.share with
      | none =>
        rw [hs] at hshare
        cases hshare
      | some ev =>
        rw [hs] at hshare
        rw [List.mem_singleton.mp hshare]
    rw [hlayer]
    constructor
    · rintro ⟨b,-,hown,-⟩
      rw [show layerFacts resource .smbShare = unownedPresentDacl from rfl,
        unowned_grants_nothing] at hown
      cases hown
    · rintro ⟨hno,-⟩
      cases hno

/-- A path to a refusing entry comes of one matched entry of one layer. -/
theorem deny_path_entry {row : RightsLayer × AclEvaluation} {p : CausalPath}
    (h : FromLayer q row p) (hdeny : p.isGrant = false) :
    ∃ a ∈ appliedEntries row.2, EntryPath q row.1 row.2 a p := by
  rcases h with ⟨-,howner⟩ | hentry
  · unfold CausalPath.isGrant at hdeny
    rw [howner.relation] at hdeny
    cases hdeny
  · exact hentry

/-- An undenied owner leaves no position that names one of the owner's rights. -/
theorem undenied_no_position (h : OwnersRightsUndenied token resource share) {a : AppliedAce}
    (hdeny : a.entry.isAllow = false) {ev : AclEvaluation}
    (hw : WalkResult (resource.entries.take maxAclEntries) token .ntfs resource.facts ev)
    (ha : a ∈ appliedEntries ev) : ¬ NamesOwnersRight token resource share a.position := by
  rintro ⟨hpresent,b,e,i,hsettles,hi,hown,hpass⟩
  have hsame := settler_same hw ha hsettles hi
  have hdecides : decidingEntry (resource.entries.take maxAclEntries) token resource.facts b =
      some a.entry := by
    rw [← settler_entry, hsame]
    rfl
  have hallow := h hpresent b hown hpass a.entry hdecides
  rw [hdeny] at hallow
  cases hallow

end Answer

/-- A deny path of an explanation claims only withheld rights, and one at least
when it changes the answer, exactly when its entry is not the first to name a
right of the owner that the share lets through. Where no path was cut, all deny
paths do so exactly when no deny is the first to name such a right. -/
theorem deny_paths_withheld_iff (token : SubjectToken) (resource : ResourceDacl)
    (share : Option ShareDacl) (fs : List AccessFinding) (access : EffectiveAccess)
    (edges : List GraphEdge) (limits : ExplanationLimits) (exp : AccessExplanation)
    (hacc : resolveAccess token resource share fs = .ok access)
    (hexp : explainAccess access resource share edges limits = .ok exp) :
    (∀ p ∈ exp.paths, p.isGrant = false → (Withheld access p ↔
      ¬ (p.layer = .ntfs ∧ NamesOwnersRight token resource share p.acePosition))) ∧
    (.maxPaths ∉ exp.truncation →
      ((∀ p ∈ exp.paths, p.isGrant = false → Withheld access p) ↔
        OwnersRightsUndenied token resource share)) := by
  obtain ⟨b,b',hbuild,htargets,-,hpaths,-,htrunc⟩ := explainAccess_ok hexp
  obtain ⟨hfrom,hshown⟩ := build_spec hbuild
  have heach : ∀ p ∈ exp.paths, p.isGrant = false → (Withheld access p ↔
      ¬ (p.layer = .ntfs ∧ NamesOwnersRight token resource share p.acePosition)) := by
    intro p hp hdeny
    rw [hpaths] at hp
    obtain ⟨row,hrow,hlayer⟩ := hfrom p hp
    obtain ⟨a,ha,hentry⟩ := deny_path_entry hlayer hdeny
    exact deny_withheld_iff hacc rfl hrow ha hentry hdeny
  refine ⟨heach,fun hcut => ?_⟩
  have hkept : .maxPaths ∉ b.truncation := fun h =>
    hcut ((htrunc _).mpr (measureAll_truncation htargets _ h))
  have hntfsRow : (RightsLayer.ntfs,access.ntfs) ∈ evaluations access := List.mem_cons_self
  constructor
  · intro hall hpresent b hown hpass e hdecides
    by_contra hdeny
    rw [Bool.not_eq_true] at hdeny
    have hw : WalkResult (resource.entries.take maxAclEntries) token .ntfs resource.facts
        access.ntfs := walk_of_evaluation (evaluation_row hacc hntfsRow) hpresent
    rw [← settler_entry, Option.map_eq_some_iff] at hdecides
    obtain ⟨⟨_,i⟩,hsettles,rfl⟩ := hdecides
    have hfound := List.find?_some hsettles
    rw [Bool.and_eq_true] at hfound
    obtain ⟨a,ha,hentry,hposition⟩ :=
      row_applied hw (List.mem_of_find?_eq_some hsettles) hfound.1
    obtain ⟨p,hp,hpath⟩ := (hshown hkept _ hntfsRow).entries a ha
    rw [← hpaths] at hp
    have hrefuses : p.isGrant = false := by
      rw [isGrant_entry hpath, hentry]
      exact hdeny
    have hlayer : p.layer = .ntfs := hpath.layer_eq
    have hplace : p.acePosition = i := by
      rw [hpath.position, hposition]
    refine (heach p hp hrefuses).mp (hall p hp hrefuses) ⟨hlayer,hpresent,b,_,i,hsettles,?_⟩
    exact ⟨hplace.symm,hown,hpass⟩
  · intro hundenied p hp hdeny
    apply (heach p hp hdeny).mpr
    rintro ⟨hlayer,hnames⟩
    rw [hpaths] at hp
    obtain ⟨row,hrow,hfromLayer⟩ := hfrom p hp
    obtain ⟨a,ha,hentry⟩ := deny_path_entry hfromLayer hdeny
    have hsame : row = (.ntfs,access.ntfs) :=
      evaluations_distinct hrow hntfsRow (hentry.layer_eq.symm.trans hlayer)
    subst hsame
    rw [isGrant_entry hentry] at hdeny
    rw [hentry.position] at hnames
    have hw : WalkResult (resource.entries.take maxAclEntries) token .ntfs resource.facts
        access.ntfs := walk_of_evaluation (evaluation_row hacc hrow) hnames.1
    exact undenied_no_position hundenied hdeny hw ha hnames

namespace Sample
open Adg.FirstMatch.Sample

theorem folderKey_ne : "folder" ≠ "" := by decide

theorem alice_keyed : some aliceSid ≠ none → some aliceSid ≠ none := id

/-- A folder Alice owns, whose only entry denies her reading its DACL. -/
def ownFolder : ResourceDacl :=
  { ResourceDacl.stored "folder" [ace .deny aliceSid NtfsRight.readControl aliceSid_ne]
      folderKey_ne with
    ownerSid := some aliceSid
    ownerKey := some aliceSid
    owner_keyed := alice_keyed }

end Sample

theorem own_folder_paths :
    ∃ access exp, resolveAccess FirstMatch.Sample.aliceToken Sample.ownFolder none [] = .ok access ∧
      explainAccess access Sample.ownFolder none [] {} = .ok exp ∧
      ∃ p ∈ exp.paths, p.isGrant = false ∧ (Withheld access p ↔
        ¬ (p.layer = .ntfs ∧
          NamesOwnersRight FirstMatch.Sample.aliceToken Sample.ownFolder none p.acePosition)) := by
  have hruns : (resolveAccess FirstMatch.Sample.aliceToken Sample.ownFolder none [] >>= fun access =>
      explainAccess access Sample.ownFolder none [] {}).map
        (fun exp => exp.paths.any fun p => !p.isGrant) = .ok true := by decide +kernel
  obtain ⟨exp,hexp,hdenies⟩ := mapped_ok.mp hruns
  obtain ⟨access,hacc,hexp⟩ := bind_ok.mp hexp
  obtain ⟨p,hp,hdeny⟩ := List.any_eq_true.mp hdenies
  have hrefuses : p.isGrant = false := by simpa using hdeny
  have hall := (deny_paths_withheld_iff FirstMatch.Sample.aliceToken Sample.ownFolder none []
    access [] {} exp hacc hexp).1
  exact ⟨access,exp,hacc,hexp,p,hp,hrefuses,hall p hp hrefuses⟩

/-- The owner may read the DACL whatever it says, and the deny's path claims
that right as withheld. -/
theorem owner_reads_past_deny :
    ¬ ∀ (token : SubjectToken) (resource : ResourceDacl) (share : Option ShareDacl)
      (fs : List AccessFinding) (access : EffectiveAccess) (edges : List GraphEdge)
      (limits : ExplanationLimits) (exp : AccessExplanation),
      resolveAccess token resource share fs = .ok access →
      explainAccess access resource share edges limits = .ok exp →
      ∀ p ∈ exp.paths, p.isGrant = false → Withheld access p := by
  intro hall
  have hruns : (resolveAccess FirstMatch.Sample.aliceToken Sample.ownFolder none [] >>= fun access =>
      (explainAccess access Sample.ownFolder none [] {}).map fun exp => (access,exp)).map
        (fun r => r.2.paths.any fun p =>
          !p.isGrant && p.effectiveRights.value &&& r.1.rights.value ≠ 0) = .ok true := by
    decide +kernel
  obtain ⟨⟨access,exp⟩,hboth,hclaims⟩ := mapped_ok.mp hruns
  obtain ⟨access',hacc,hexp⟩ := bind_ok.mp hboth
  obtain ⟨exp',hexp,hsame⟩ := mapped_ok.mp hexp
  cases hsame
  obtain ⟨p,hp,hclaim⟩ := List.any_eq_true.mp hclaims
  rw [Bool.and_eq_true, decide_eq_true_eq] at hclaim
  have hdeny : p.isGrant = false := by simpa using hclaim.1
  exact hclaim.2 (hall _ _ _ _ _ _ _ _ hacc hexp p hp hdeny).1

end Adg.WithheldRights
