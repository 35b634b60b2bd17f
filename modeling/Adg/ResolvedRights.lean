import Adg.AccessResolver

/-!
# The rights of a resolution as a function

Everything later modules need from the evaluator and the resolver: which mask
a DACL yields for a token, which mask a resolution yields, when both return,
and that a token matters only through the keys it holds.
-/

set_option autoImplicit false

namespace Adg.ResolvedRights
open Adg.Observation Adg.RightsAlgebra Adg.AccessConditions Adg.AccessSubjects
open Adg.Evaluation Adg.FirstMatch Adg.AccessResolver
open Adg.Fallible (bind_ok)

/-- The mask one ACL yields for a token. -/
def aclRights (entries : List AclEntry) (token : SubjectToken) (layer : RightsLayer)
    (facts : DaclFacts) : AccessMask :=
  if facts.daclPresent then
    (walkOver (entries.take maxAclEntries) token layer facts).granted |||
      ownerGrant (entries.take maxAclEntries) token facts
  else fileAllAccess

def resolvedMask (token : SubjectToken) (resource : ResourceDacl) (share : Option ShareDacl) :
    AccessMask :=
  let ntfs := aclRights resource.entries token .ntfs resource.facts
  match share with
  | none => ntfs
  | some s =>
    if s.observed then aclRights s.entries token .smbShare unownedPresentDacl &&& ntfs else ntfs

theorem evaluateAcl_rights {entries : List AclEntry} {token : SubjectToken}
    {layer : RightsLayer} {facts : DaclFacts} {ev : AclEvaluation}
    (h : evaluateAcl entries token layer facts = .ok ev) :
    ev.rights = ⟨aclRights entries token layer facts,layer⟩ := by
  obtain ⟨hl,hs⟩ := evaluateAcl_layers h
  cases hp : facts.daclPresent with
  | true =>
    obtain ⟨ev',hev,hw⟩ := evaluateAcl_present hl hs hp
    rw [h] at hev
    cases hev
    simp [aclRights, hp, hw.rights]
  | false =>
    rw [evaluateAcl_null hl hs hp] at h
    cases h
    simp [aclRights, hp, nullDacl]

theorem evaluateAcl_returns {entries : List AclEntry} (token : SubjectToken)
    {layer : RightsLayer} (facts : DaclFacts) (hl : layer ≠ .effective)
    (hs : ∀ e ∈ entries, e.layer = layer) : ∃ ev, evaluateAcl entries token layer facts = .ok ev := by
  cases hp : facts.daclPresent with
  | true => exact (evaluateAcl_present hl hs hp).imp fun _ h => h.1
  | false => exact ⟨_,evaluateAcl_null hl hs hp⟩

/-- Bit by bit, on a DACL that is present. -/
theorem aclRights_bit {facts : DaclFacts} (hp : facts.daclPresent = true)
    (entries : List AclEntry) (token : SubjectToken) (layer : RightsLayer) (b : ℕ) :
    (aclRights entries token layer facts).getLsbD b = true ↔
      (ownerGrant (entries.take maxAclEntries) token facts).getLsbD b = true ∨
      ∃ e, decidingEntry (entries.take maxAclEntries) token facts b = some e ∧
        e.isAllow = true := by
  rw [aclRights, if_pos hp, BitVec.getLsbD_or, Bool.or_eq_true, walkOver_granted_iff, or_comm]

theorem specific_of_bits {v : AccessMask}
    (h : ∀ b, v.getLsbD b = true → ∃ m : AccessMask, Specific m ∧ m.getLsbD b = true) :
    Specific v := by
  apply BitVec.eq_of_getLsbD_eq
  intro b _
  rw [BitVec.getLsbD_and]
  cases hv : v.getLsbD b with
  | false => simp
  | true =>
    obtain ⟨m,hm,hb⟩ := h b hv
    have hclear := congrArg (fun x => BitVec.getLsbD x b) hm
    simp only [BitVec.getLsbD_and, hb, Bool.true_and] at hclear ⊢
    exact hclear

theorem ownerGrant_specific (entries : List AclEntry) (token : SubjectToken) (facts : DaclFacts) :
    Specific (ownerGrant entries token facts) := by
  apply specific_of_bits
  intro b hb
  exact ⟨ownerImplicitRights.value,by decide,((ownerGrant_bit entries token facts b).mp hb).2.2.2⟩

theorem granted_specific (entries : List AclEntry) (token : SubjectToken) (layer : RightsLayer)
    (facts : DaclFacts) : Specific (walkOver entries token layer facts).granted := by
  apply specific_of_bits
  intro b hb
  obtain ⟨e,he,-⟩ := (walkOver_granted_iff entries token layer facts b).mp hb
  rw [decidingEntry_eq] at he
  exact ⟨e.expanded,e.expanded_specific,OrderedRules.decider_names he⟩

theorem aclRights_specific (entries : List AclEntry) (token : SubjectToken)
    (layer : RightsLayer) (facts : DaclFacts) : Specific (aclRights entries token layer facts) := by
  unfold aclRights
  split
  · exact specific_or (granted_specific _ _ _ _) (ownerGrant_specific _ _ _)
  · decide

/-- An evaluated mask has no generic bit left to expand. -/
theorem aclRights_expanded (entries : List AclEntry) (token : SubjectToken)
    (layer l : RightsLayer) (facts : DaclFacts) :
    (RightsMask.mk (aclRights entries token layer facts) l).expandGenerics =
      ⟨aclRights entries token layer facts,l⟩ :=
  RightsMask.expand_specific _ (aclRights_specific entries token layer facts)

theorem resolvedMask_specific (token : SubjectToken) (resource : ResourceDacl)
    (share : Option ShareDacl) : Specific (resolvedMask token resource share) := by
  have hn := aclRights_specific resource.entries token .ntfs resource.facts
  unfold resolvedMask
  cases share with
  | none => exact hn
  | some s =>
    cases ho : s.observed
    · simpa [ho] using hn
    · simpa [ho] using specific_and_left _ (aclRights_specific s.entries token .smbShare _)

/-- Every entry of both ACLs carries a mask of its own layer. -/
structure Layered (resource : ResourceDacl) (share : Option ShareDacl) : Prop where
  ntfs : ∀ e ∈ resource.entries, e.layer = .ntfs
  share : ∀ s ∈ share, ∀ e ∈ s.entries, e.layer = .smbShare

/-- A remote resolution has a share in front of it, and a local one does not. -/
def PathFits (token : SubjectToken) (share : Option ShareDacl) : Prop :=
  token.accessPath = .remoteSmb ↔ share.isSome = true

/-- What a resolution that returned was made of. -/
structure Resolution (token : SubjectToken) (resource : ResourceDacl) (share : Option ShareDacl)
    (findings : List AccessFinding) (access : EffectiveAccess) : Prop where
  layered : Layered resource share
  fits : PathFits token share
  token_eq : access.token = token
  resourceKey : access.resourceKey = resource.resourceKey
  shareKey : access.shareKey = share.map (·.shareKey)
  path : access.path = token.accessPath
  rights : access.rights = ⟨resolvedMask token resource share,.effective⟩
  provenance : access.provenance = resource.provenance
  ntfs : evaluateAcl resource.entries token .ntfs resource.facts = .ok access.ntfs
  shareRead : ∀ s, share = some s → s.observed = true → ∃ ev, access.share = some ev ∧
    evaluateAcl s.entries token .smbShare unownedPresentDacl = .ok ev
  shareUnread : (∀ s, share = some s → s.observed = false) → access.share = none
  certainty : access.certainty = certaintyOf access.findings

theorem effectiveRights_local (v : AccessMask) (h : Specific v) :
    ∃ e, effectiveRights ⟨v,.ntfs⟩ .localPath none = .ok e ∧ e.rights = ⟨v,.effective⟩ := by
  refine ⟨_,by simp only [effectiveRights, dif_pos]; rfl,?_⟩
  rw [RightsMask.expand_specific ⟨v,.ntfs⟩ h]

theorem effectiveRights_remote (v s : AccessMask) (hv : Specific v) (hs : Specific s) :
    ∃ e, effectiveRights ⟨v,.ntfs⟩ .remoteSmb (some ⟨s,.smbShare⟩) = .ok e ∧
      e.rights = ⟨s &&& v,.effective⟩ := by
  refine ⟨_,by simp only [effectiveRights, dif_pos]; rfl,?_⟩
  rw [RightsMask.expand_specific ⟨v,.ntfs⟩ hv, RightsMask.expand_specific ⟨s,.smbShare⟩ hs]

/-- What the share side adds, on the path the token was built for. -/
theorem crossShare_spec {token : SubjectToken} {resource : ResourceDacl} {ntfs : AclEvaluation}
    {share : Option ShareDacl}
    (hn : ntfs.rights = ⟨aclRights resource.entries token .ntfs resource.facts,.ntfs⟩)
    (hfit : PathFits token share) (hs : ∀ s ∈ share, ∀ e ∈ s.entries, e.layer = .smbShare) :
    ∃ c, crossShare ntfs token share = .ok c ∧
      c.rights = ⟨resolvedMask token resource share,.effective⟩ ∧
      (∀ s, share = some s → s.observed = true → ∃ ev, c.share = some ev ∧
        evaluateAcl s.entries token .smbShare unownedPresentDacl = .ok ev) ∧
      ((∀ s, share = some s → s.observed = false) → c.share = none) := by
  have hspec := aclRights_specific resource.entries token .ntfs resource.facts
  cases share with
  | none =>
    have hpath : token.accessPath = .localPath := by
      cases hp : token.accessPath with
      | localPath => rfl
      | remoteSmb => simpa using hfit.mp hp
    obtain ⟨e,he,hr⟩ := effectiveRights_local _ hspec
    refine ⟨_,by rw [crossShare, hn, hpath, he]; rfl,hr,by simp,fun _ => rfl⟩
  | some s =>
    cases ho : s.observed with
    | false =>
      refine ⟨_,by rw [crossShare, ho]; rfl,?_,by simp [ho],fun _ => rfl⟩
      simp only [hn, aclRights_expanded, resolvedMask, ho]
      rfl
    | true =>
      obtain ⟨ev,hev⟩ := evaluateAcl_returns token unownedPresentDacl (by decide) (hs s rfl)
      obtain ⟨e,he,hr⟩ := effectiveRights_remote _ _ hspec
        (aclRights_specific s.entries token .smbShare unownedPresentDacl)
      have hcross : crossShare ntfs token (some s) = .ok
          { rights := e.rights, share := some ev, crossed := some e
            limiting := limitingLayerOf e, findings := ev.findings } := by
        rw [crossShare_observed ntfs token ho]
        refine bind_ok.mpr ⟨ev,hev,bind_ok.mpr ⟨e,?_,rfl⟩⟩
        rw [evaluateAcl_rights hev, hn, hfit.mpr rfl]
        exact he
      refine ⟨_,hcross,?_,?_,?_⟩
      · rw [hr]
        simp [resolvedMask, ho]
      · rintro s' hs' -
        cases hs'
        exact ⟨ev,rfl,hev⟩
      · intro h
        simp [ho] at h

theorem pathFits_iff {token : SubjectToken} {share : Option ShareDacl} :
    PathFits token share ↔ ¬ (token.accessPath = .remoteSmb ∧ share.isNone) ∧
      ¬ (token.accessPath = .localPath ∧ share.isSome) := by
  unfold PathFits
  cases token.accessPath <;> cases share <;> simp

/-- A resolution is the two evaluations and the crossing, in that order. -/
theorem resolveAccess_ok {token : SubjectToken} {resource : ResourceDacl}
    {share : Option ShareDacl} {findings : List AccessFinding} {access : EffectiveAccess} :
    resolveAccess token resource share findings = .ok access ↔
      PathFits token share ∧
      ∃ ntfs, evaluateAcl resource.entries token .ntfs resource.facts = .ok ntfs ∧
      ∃ c, crossShare ntfs token share = .ok c ∧
        assembled token resource share findings ntfs c = access := by
  rw [pathFits_iff]
  unfold resolveAccess
  by_cases h1 : token.accessPath = .remoteSmb ∧ share.isNone
  · rw [if_pos h1]
    simp [h1, bind, Except.bind, throw, throwThe, MonadExceptOf.throw]
  · by_cases h2 : token.accessPath = .localPath ∧ share.isSome
    · rw [if_neg h1, if_pos h2]
      simp [h2, bind, Except.bind, throw, throwThe, MonadExceptOf.throw]
    · rw [if_neg h1, if_neg h2]
      simp only [h1, h2, not_false_eq_true, true_and]
      simp only [bind_ok]
      simp [pure, Except.pure]

theorem resolveAccess_returns {token : SubjectToken} {resource : ResourceDacl}
    {share : Option ShareDacl} (findings : List AccessFinding) (hfit : PathFits token share)
    (hl : Layered resource share) :
    ∃ access, resolveAccess token resource share findings = .ok access := by
  obtain ⟨ntfs,hn⟩ := evaluateAcl_returns token resource.facts (by decide) hl.ntfs
  obtain ⟨c,hc,-⟩ := crossShare_spec (evaluateAcl_rights hn) hfit hl.share
  exact ⟨_,resolveAccess_ok.mpr ⟨hfit,ntfs,hn,c,hc,rfl⟩⟩

theorem crossShare_layered {token : SubjectToken} {ntfs : AclEvaluation}
    {share : Option ShareDacl} {c : Crossing} (h : crossShare ntfs token share = .ok c) :
    ∀ s ∈ share, ∀ e ∈ s.entries, e.layer = .smbShare := by
  rintro s rfl e he
  cases ho : s.observed with
  | false => simp [s.unread_empty ho] at he
  | true =>
    rw [crossShare_observed ntfs token ho] at h
    obtain ⟨ev,hev,-⟩ := bind_ok.mp h
    exact (evaluateAcl_layers hev).2 e he

theorem resolveAccess_spec {token : SubjectToken} {resource : ResourceDacl}
    {share : Option ShareDacl} {findings : List AccessFinding} {access : EffectiveAccess}
    (h : resolveAccess token resource share findings = .ok access) :
    Resolution token resource share findings access := by
  obtain ⟨hfit,ntfs,hn,c,hc,rfl⟩ := resolveAccess_ok.mp h
  have hl : Layered resource share := ⟨(evaluateAcl_layers hn).2,crossShare_layered hc⟩
  obtain ⟨c',hc',hrights,hread,hunread⟩ := crossShare_spec (evaluateAcl_rights hn) hfit hl.share
  rw [hc] at hc'
  cases hc'
  exact ⟨hl,hfit,rfl,rfl,rfl,rfl,hrights,rfl,hn,hread,hunread,rfl⟩

section Congruence
variable {token token' : SubjectToken}

theorem counts_congr {facts : DaclFacts} {e : AclEntry}
    (he : token.contains e.trusteeKey = token'.contains e.trusteeKey)
    (ho : (ownerTokenSidOf token facts).isSome = (ownerTokenSidOf token' facts).isSome) :
    counts token (ownerTokenSidOf token facts) e =
      counts token' (ownerTokenSidOf token' facts) e := by
  unfold counts matchEntry
  cases e.namesOwnerRights with
  | true => simp [ho]
  | false =>
    unfold SubjectToken.contains at he
    simp [he]

theorem owner_congr {facts : DaclFacts}
    (ho : ∀ key, facts.ownerKey = some key → token.contains key = token'.contains key) :
    (ownerTokenSidOf token facts).isSome = (ownerTokenSidOf token' facts).isSome := by
  unfold ownerTokenSidOf
  cases hk : facts.ownerKey with
  | none => rfl
  | some key => simpa [SubjectToken.contains] using ho key hk

/-- A token matters to an ACL only through the trustees it names and the owner. -/
theorem aclRights_congr {entries : List AclEntry} (facts : DaclFacts) (layer : RightsLayer)
    (he : ∀ e ∈ entries, token.contains e.trusteeKey = token'.contains e.trusteeKey)
    (ho : ∀ key, facts.ownerKey = some key → token.contains key = token'.contains key) :
    aclRights entries token layer facts = aclRights entries token' layer facts := by
  unfold aclRights
  cases hp : facts.daclPresent with
  | false => rfl
  | true =>
    have howner := owner_congr ho
    apply BitVec.eq_of_getLsbD_eq
    intro b _
    have hdecide : decidingEntry (entries.take maxAclEntries) token facts b =
        decidingEntry (entries.take maxAclEntries) token' facts b := by
      unfold decidingEntry
      apply List.find?_congr
      intro e hmem
      rw [counts_congr (he e (List.mem_of_mem_take hmem)) howner]
    rw [Bool.eq_iff_iff]
    simp only [BitVec.getLsbD_or, Bool.or_eq_true, if_true, walkOver_granted_iff, ownerGrant_bit,
      holdsOwner_iff, hdecide, howner]

theorem resolvedMask_congr {resource : ResourceDacl} {share : Option ShareDacl}
    (he : ∀ e ∈ resource.entries, token.contains e.trusteeKey = token'.contains e.trusteeKey)
    (ho : ∀ key, resource.ownerKey = some key → token.contains key = token'.contains key)
    (hs : ∀ s ∈ share, ∀ e ∈ s.entries,
      token.contains e.trusteeKey = token'.contains e.trusteeKey) :
    resolvedMask token resource share = resolvedMask token' resource share := by
  have hn := aclRights_congr resource.facts .ntfs he ho
  cases share with
  | none => exact hn
  | some s =>
    have hshare : aclRights s.entries token .smbShare unownedPresentDacl =
        aclRights s.entries token' .smbShare unownedPresentDacl :=
      aclRights_congr unownedPresentDacl .smbShare (hs s rfl) (by simp [unownedPresentDacl])
    simp only [resolvedMask, hn, hshare]

end Congruence

end Adg.ResolvedRights
