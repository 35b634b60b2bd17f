import Adg.WithheldRights

/-!
# Removing an entry that settled nothing

An entry no bit was settled by can go without moving any other bit. What can
move is ownership: the only OWNER RIGHTS entry of a DACL also keeps the
owner's implicit rights away, whatever it settles itself.
-/

set_option autoImplicit false

namespace Adg.RedundantEntries
open Adg.Observation Adg.RightsAlgebra Adg.AccessConditions Adg.AccessSubjects Adg.Evaluation
open Adg.FirstMatch Adg.AccessResolver Adg.ResolvedRights Adg.LowerBound Adg.MembershipGraph
open Adg.AccessCausality Adg.RemovalAnalysis Adg.Decomposition Adg.NovelEntries Adg.WithheldRights
open Adg.Fallible (bind_ok mapped_ok)

/-- The object with one entry taken from its DACL, when the entry is its own. -/
def dropFrom (resource : ResourceDacl) (place : RightsLayer × ℕ) : ResourceDacl :=
  { resource with entries := without resource.entries (some place) .ntfs }

theorem without_unread (share : ShareDacl) (place : RightsLayer × ℕ) :
    share.observed = false → without share.entries (some place) .smbShare = [] := by
  intro h
  rw [share.unread_empty h]
  simp [without]

def dropFromShare (place : RightsLayer × ℕ) (share : ShareDacl) : ShareDacl :=
  { share with
    entries := without share.entries (some place) .smbShare
    unread_empty := without_unread share place }

theorem without_subset {entries : List AclEntry} {place : RightsLayer × ℕ} {layer : RightsLayer}
    {e : AclEntry} (h : e ∈ without entries (some place) layer) : e ∈ entries := by
  unfold without at h
  split at h
  · exact h
  · split at h
    · exact List.mem_of_mem_eraseIdx h
    · exact h

section Erase
variable {entries : List AclEntry} {token : SubjectToken} {facts : DaclFacts} {layer : RightsLayer}
  {ev : AclEvaluation} {a : AppliedAce} {b : ℕ}

/-- An entry that is not the one to settle a bit can go without moving it. -/
theorem erase_keeps_decider {i : ℕ} {e : AclEntry} (he : entries[i]? = some e)
    (hno : settler entries token facts b ≠ some (e,i)) :
    decidingEntry (entries.eraseIdx i) token facts b = decidingEntry entries token facts b := by
  obtain ⟨hi,rfl⟩ := List.getElem?_eq_some_iff.mp he
  have hsplit : entries = entries.take i ++ entries[i] :: entries.drop (i+1) := by simp
  have hrows : entries.zipIdx =
      (entries.take i).zipIdx ++ (entries[i],i) :: (entries.drop (i+1)).zipIdx (i+1) := by
    conv_lhs => rw [hsplit]
    rw [List.zipIdx_append, List.zipIdx_cons, List.length_take, Nat.min_eq_left hi.le]
    simp
  rw [List.eraseIdx_eq_take_drop_succ]
  unfold decidingEntry
  conv_rhs => rw [hsplit]
  rw [List.find?_append, List.find?_append, List.find?_cons]
  cases hbefore : (entries.take i).find? fun e =>
      counts token (ownerTokenSidOf token facts) e && e.expanded.getLsbD b with
  | some d => rfl
  | none =>
    cases hpred : counts token (ownerTokenSidOf token facts) entries[i] &&
        entries[i].expanded.getLsbD b with
    | false => rfl
    | true =>
      exfalso
      apply hno
      unfold settler
      rw [hrows, List.find?_append, List.find?_cons, hpred]
      have hnone : (entries.take i).zipIdx.find? (fun row =>
          counts token (ownerTokenSidOf token facts) row.1 && row.1.expanded.getLsbD b) = none := by
        rw [← Option.map_eq_none_iff (f := Prod.fst), ← hbefore]
        exact settler_entry (entries.take i) token facts b
      rw [hnone]
      rfl

/-- Ownership only ever gains from a removal. -/
theorem ownerGrant_erase {i : ℕ} (h : (ownerGrant entries token facts).getLsbD b = true) :
    (ownerGrant (entries.eraseIdx i) token facts).getLsbD b = true := by
  rw [ownerGrant_bit] at h ⊢
  refine ⟨h.1,h.2.1,?_,h.2.2.2⟩
  rintro ⟨e,he,hnames⟩
  exact h.2.2.1 ⟨e,List.mem_of_mem_eraseIdx he,hnames⟩

/-- Without a redundant entry a layer lets through what it did, and what
ownership then grants. -/
theorem erase_redundant_bit (hw : WalkResult entries token layer facts ev)
    (ha : a ∈ appliedEntries ev) (hnone : novelAt (novelContributions ev) a.position = 0) :
    LetsThrough (entries.eraseIdx a.position) token facts b ↔
      LetsThrough entries token facts b ∨
        (ownerGrant (entries.eraseIdx a.position) token facts).getLsbD b = true := by
  obtain ⟨before,after,hsplit,-⟩ := applied_exact hw ha
  have hmem : (a.entry,a.position) ∈ entries.zipIdx := by
    rw [hsplit]
    simp
  have hplace : entries[a.position]? = some a.entry := List.mem_zipIdx_iff_getElem?.mp hmem
  by_cases hsettles : settler entries token facts b = some (a.entry,a.position)
  · -- what a redundant entry settles, ownership had granted before it
    have hb : b < 32 := by
      have hnamed := List.find?_some hsettles
      rw [Bool.and_eq_true] at hnamed
      exact BitVec.lt_of_getLsbD hnamed.2
    have hbit := novel_bit hw ha hb
    rw [hnone] at hbit
    have hown : (ownerGrant entries token facts).getLsbD b = true := by
      rw [← ownerSeed_eq hw, ← Bool.not_eq_false]
      intro hseed
      have hno := hbit.mpr ⟨hsettles,fun _ => hseed⟩
      rw [(zero_iff_bits 0).mp rfl b] at hno
      cases hno
    constructor
    · intro _
      exact .inl (.inl hown)
    · intro _
      exact .inl (ownerGrant_erase hown)
  · have hsame := erase_keeps_decider hplace hsettles
    unfold LetsThrough
    rw [hsame]
    constructor
    · rintro (hown | hallowed)
      · exact .inr hown
      · exact .inl (.inr hallowed)
    · rintro ((hown | hallowed) | hown)
      · exact .inl (ownerGrant_erase hown)
      · exact .inr hallowed
      · exact .inl hown

end Erase

/-- The entry is the only OWNER RIGHTS entry of a DACL the subject owns, and
without it the owner gains a right that both layers let through. -/
structure FreesOwner (token : SubjectToken) (resource : ResourceDacl) (share : Option ShareDacl)
    (position : ℕ) : Prop where
  holds : HoldsOwner token resource.facts
  recorded : resource.ownerSid ≠ none
  present : OwnerRightsPresent resource.entries
  alone : ¬ OwnerRightsPresent (resource.entries.eraseIdx position)
  gains : ∃ b, ownerImplicitRights.value.getLsbD b = true ∧
    ¬ LetsThrough resource.entries token resource.facts b ∧ SharePasses token share b

section Removed
variable {token : SubjectToken} {resource : ResourceDacl} {share : Option ShareDacl}
  {position : ℕ}

theorem freesOwner_iff :
    FreesOwner token resource share position ↔ ∃ b,
      (ownerGrant (resource.entries.eraseIdx position) token resource.facts).getLsbD b = true ∧
        ¬ LetsThrough resource.entries token resource.facts b ∧ SharePasses token share b := by
  constructor
  · rintro ⟨hholds,hrecorded,-,halone,b,hb,hstopped,hpass⟩
    exact ⟨b,(ownerGrant_bit _ _ _ b).mpr ⟨hholds,hrecorded,halone,hb⟩,hstopped,hpass⟩
  · rintro ⟨b,hown,hstopped,hpass⟩
    obtain ⟨hholds,hrecorded,halone,hb⟩ := (ownerGrant_bit _ _ _ b).mp hown
    refine ⟨hholds,hrecorded,?_,halone,b,hb,hstopped,hpass⟩
    by_contra hnone
    exact hstopped (.inl ((ownerGrant_bit _ _ _ b).mpr ⟨hholds,hrecorded,hnone,hb⟩))

/-- The layers of an answer, one by one. -/
theorem unstopped_iff (token : SubjectToken) (resource : ResourceDacl)
    (share : Option ShareDacl) (b : ℕ) :
    Unstopped token resource share b ↔
      (resource.daclPresent = false → fileAllAccess.getLsbD b = true) ∧
      (resource.daclPresent = true →
        LetsThrough (resource.entries.take maxAclEntries) token resource.facts b) ∧
      SharePasses token share b := by
  unfold Unstopped crossedAcls SharePasses
  apply and_congr_right
  intro _
  rw [List.forall_mem_append]
  apply and_congr
  · cases resource.daclPresent <;> simp
  · cases share with
    | none => simp
    | some s => cases hs : s.observed <;> simp [hs]

theorem take_erase {entries : List AclEntry} (h : entries.length ≤ maxAclEntries) (i : ℕ) :
    (entries.eraseIdx i).take maxAclEntries = entries.eraseIdx i :=
  List.take_of_length_le ((List.length_eraseIdx_le entries i).trans h)

/-- A redundant entry of the file system's DACL, taken out. -/
theorem drop_ntfs {ev : AclEvaluation} {a : AppliedAce} {b : ℕ}
    (hlen : resource.entries.length ≤ maxAclEntries) (hpresent : resource.daclPresent = true)
    (hw : WalkResult resource.entries token .ntfs resource.facts ev)
    (ha : a ∈ appliedEntries ev) (hnone : novelAt (novelContributions ev) a.position = 0) :
    Unstopped token (dropFrom resource (.ntfs,a.position))
        (share.map (dropFromShare (.ntfs,a.position))) b ↔
      Unstopped token resource share b ∨
        ((ownerGrant (resource.entries.eraseIdx a.position) token resource.facts).getLsbD b = true ∧
          SharePasses token share b) := by
  have hshare : share.map (dropFromShare (.ntfs,a.position)) = share := by
    cases share <;> rfl
  have herase := erase_redundant_bit (b := b) hw ha hnone
  have hentries : (dropFrom resource (.ntfs,a.position)).entries =
      resource.entries.eraseIdx a.position := rfl
  have hfacts : (dropFrom resource (.ntfs,a.position)).facts = resource.facts := rfl
  have hdacl : (dropFrom resource (.ntfs,a.position)).daclPresent = true := hpresent
  rw [unstopped_iff, unstopped_iff, hshare, hentries, hfacts, hdacl, hpresent,
    take_erase hlen, List.take_of_length_le hlen, herase]
  simp only [reduceCtorEq, false_implies, true_and, true_implies]
  rw [or_and_right]

/-- A redundant entry of the share's ACL, taken out: nobody owns a share. -/
theorem drop_share {s : ShareDacl} {ev : AclEvaluation} {a : AppliedAce} {b : ℕ}
    (hlen : s.entries.length ≤ maxAclEntries)
    (hw : WalkResult s.entries token .smbShare unownedPresentDacl ev)
    (ha : a ∈ appliedEntries ev) (hnone : novelAt (novelContributions ev) a.position = 0) :
    Unstopped token (dropFrom resource (.smbShare,a.position))
        ((some s).map (dropFromShare (.smbShare,a.position))) b ↔
      Unstopped token resource (some s) b := by
  have herase := erase_redundant_bit (b := b) hw ha hnone
  rw [unowned_grants_nothing, or_iff_left Bool.false_ne_true] at herase
  have hshare : SharePasses token ((some s).map (dropFromShare (.smbShare,a.position))) b ↔
      SharePasses token (some s) b := by
    have hentries : (dropFromShare (.smbShare,a.position) s).entries =
        s.entries.eraseIdx a.position := rfl
    unfold SharePasses
    constructor
    · intro h s' hs' ho
      cases hs'
      have hpass := h _ rfl ho
      rw [hentries, take_erase hlen, herase] at hpass
      rwa [List.take_of_length_le hlen]
    · intro h s' hs' ho
      cases hs'
      have hpass := h s rfl ho
      rw [List.take_of_length_le hlen] at hpass
      rwa [hentries, take_erase hlen, herase]
  rw [unstopped_iff, unstopped_iff, hshare]
  rfl

theorem drop_layered (place : RightsLayer × ℕ) (h : Layered resource share) :
    Layered (dropFrom resource place) (share.map (dropFromShare place)) := by
  constructor
  · intro e he
    exact h.ntfs e (without_subset he)
  · intro s hs e he
    obtain ⟨s',hs',rfl⟩ := Option.map_eq_some_iff.mp hs
    exact h.share s' hs' e (without_subset he)

theorem drop_fits (place : RightsLayer × ℕ) (h : PathFits token share) :
    PathFits token (share.map (dropFromShare place)) := by
  unfold PathFits at *
  rw [Option.isSome_map]
  exact h

/-- Two resolutions answer alike exactly when no bit is let through by one only. -/
theorem rights_eq_iff {fs fs' : List AccessFinding} {resource' : ResourceDacl}
    {share' : Option ShareDacl} {access access' : EffectiveAccess}
    (h : resolveAccess token resource share fs = .ok access)
    (h' : resolveAccess token resource' share' fs' = .ok access') :
    access'.rights = access.rights ↔
      ∀ b, Unstopped token resource' share' b ↔ Unstopped token resource share b := by
  rw [(resolveAccess_spec h).rights, (resolveAccess_spec h').rights]
  constructor
  · intro hsame b
    have hmask : resolvedMask token resource' share' = resolvedMask token resource share :=
      congrArg RightsMask.value hsame
    rw [← resolvedMask_bit, ← resolvedMask_bit, hmask]
  · intro hsame
    have hmask : resolvedMask token resource' share' = resolvedMask token resource share := by
      apply BitVec.eq_of_getLsbD_eq
      intro b _
      rw [Bool.eq_iff_iff, resolvedMask_bit, resolvedMask_bit]
      exact hsame b
    rw [hmask]

end Removed

/-- The position a path names, in the DACL of its layer. -/
def placeOf (p : CausalPath) : RightsLayer × ℕ := (p.layer,p.acePosition.toNat)

theorem effect_redundant_iff (novel : AccessMask) (delivered constrained : RightsMask) :
    effectOf novel delivered constrained = .redundant ↔ novel = 0 := by
  unfold effectOf
  split
  · next h => simp [h]
  · next h => split <;> simpa using h

/-- Taking a redundant path's entry out of its DACL, and nothing else, leaves
the rights alone exactly when that does not free the owner's implicit rights. -/
theorem redundant_removal_iff (token : SubjectToken) (resource : ResourceDacl)
    (share : Option ShareDacl) (fs : List AccessFinding) (access : EffectiveAccess)
    (edges : List GraphEdge) (limits : ExplanationLimits) (exp : AccessExplanation)
    (hacc : resolveAccess token resource share fs = .ok access)
    (hexp : explainAccess access resource share edges limits = .ok exp)
    (hlen : resource.entries.length ≤ maxAclEntries)
    (hshareLen : ∀ s ∈ share, s.entries.length ≤ maxAclEntries) :
    ∀ p ∈ exp.paths, p.effect = .redundant → ∃ access',
      resolveAccess token (dropFrom resource (placeOf p)) (share.map (dropFromShare (placeOf p)))
        fs = .ok access' ∧
      (access'.rights = access.rights ↔
        ¬ (p.layer = .ntfs ∧ FreesOwner token resource share (placeOf p).2)) := by
  intro p hp hredundant
  have hres := resolveAccess_spec hacc
  obtain ⟨b,b',hbuild,-,-,hpaths,-,-⟩ := explainAccess_ok hexp
  rw [hpaths] at hp
  obtain ⟨row,hrow,hfrom⟩ := (build_spec hbuild).1 p hp
  obtain ⟨access',hacc'⟩ := resolveAccess_returns fs (drop_fits (placeOf p) hres.fits)
    (drop_layered (placeOf p) hres.layered)
  refine ⟨access',hacc',?_⟩
  rw [rights_eq_iff hacc hacc']
  rcases hfrom with ⟨hseed,howner⟩ | ⟨a,ha,hentry⟩
  · rw [howner.effect, effect_redundant_iff] at hredundant
    exact absurd hredundant hseed
  · rw [hentry.effect, effect_redundant_iff] at hredundant
    have hplace : placeOf p = (row.1,a.position) := by
      unfold placeOf
      rw [hentry.layer_eq, hentry.position]
      rfl
    rw [hplace, hentry.layer_eq]
    have heval := evaluation_row hacc hrow
    have hpresent := applied_walk heval ha
    have hw := walk_of_evaluation heval hpresent
    unfold evaluations at hrow
    rcases List.mem_cons.mp hrow with rfl | hshare
    · have hw' : WalkResult resource.entries token .ntfs resource.facts access.ntfs := by
        rwa [show layerEntries resource share .ntfs = resource.entries from rfl,
          List.take_of_length_le hlen] at hw
      simp only [drop_ntfs hlen hpresent hw' ha hredundant, true_and, freesOwner_iff]
      constructor
      · rintro hsame ⟨b,hown,hstopped,hpass⟩
        have hthrough := (hsame b).mp (.inr ⟨hown,hpass⟩)
        have hlets := ((unstopped_iff _ _ _ _).mp hthrough).2.1 hpresent
        rw [List.take_of_length_le hlen] at hlets
        exact hstopped hlets
      · intro hnone b
        rw [or_iff_left_iff_imp]
        rintro ⟨hown,hpass⟩
        have hlets : LetsThrough resource.entries token resource.facts b := by
          by_contra hstopped
          exact hnone ⟨b,hown,hstopped,hpass⟩
        rw [unstopped_iff, List.take_of_length_le hlen]
        refine ⟨fun hno => ?_,fun _ => hlets,hpass⟩
        rw [show resource.daclPresent = true from hpresent] at hno
        cases hno
    · rcases share_evaluation hres with ⟨hnone,-⟩ | ⟨s,ev,rfl,-,hev,-⟩
      · rw [hnone] at hshare
        cases hshare
      · rw [hev] at hshare
        obtain rfl := List.mem_singleton.mp hshare
        have hlayer : ¬ ((RightsLayer.smbShare,ev).1 = .ntfs ∧
            FreesOwner token resource (some s) ((RightsLayer.smbShare,ev).1,a.position).2) := by
          rintro ⟨hno,-⟩
          cases hno
        have hw' : WalkResult s.entries token .smbShare unownedPresentDacl ev := by
          have hwalk := hw
          rwa [show layerEntries resource (some s) .smbShare = s.entries from rfl,
            List.take_of_length_le (hshareLen s rfl)] at hwalk
        simp only [hlayer, not_false_eq_true, iff_true]
        intro b
        exact drop_share (hshareLen s rfl) hw' ha hredundant

namespace Sample
open Adg.FirstMatch.Sample Adg.WithheldRights.Sample

theorem ownerRightsSid_ne : ownerRightsSid ≠ "" := by decide

/-- A folder Alice owns: she may read its DACL by name, and OWNER RIGHTS says
the same again. -/
def repeatedFolder : ResourceDacl :=
  { ResourceDacl.stored "folder"
      [ace .allow aliceSid NtfsRight.readControl aliceSid_ne,
        ace .allow ownerRightsSid NtfsRight.readControl ownerRightsSid_ne] folderKey_ne with
    ownerSid := some aliceSid
    ownerKey := some aliceSid
    owner_keyed := alice_keyed }

end Sample

theorem repeated_entry_removed :
    ∃ access exp p access', resolveAccess FirstMatch.Sample.aliceToken Sample.repeatedFolder none
        [] = .ok access ∧
      explainAccess access Sample.repeatedFolder none [] {} = .ok exp ∧
      p ∈ exp.paths ∧ p.effect = .redundant ∧
      resolveAccess FirstMatch.Sample.aliceToken (dropFrom Sample.repeatedFolder (placeOf p)) none
        [] = .ok access' ∧
      (access'.rights = access.rights ↔ ¬ (p.layer = .ntfs ∧
        FreesOwner FirstMatch.Sample.aliceToken Sample.repeatedFolder none (placeOf p).2)) := by
  have hruns : (resolveAccess FirstMatch.Sample.aliceToken Sample.repeatedFolder none [] >>=
      fun access => explainAccess access Sample.repeatedFolder none [] {}).map
        (fun exp => exp.paths.any fun p => p.effect = .redundant) = .ok true := by decide +kernel
  obtain ⟨exp,hexp,hredundant⟩ := mapped_ok.mp hruns
  obtain ⟨access,hacc,hexp⟩ := bind_ok.mp hexp
  obtain ⟨p,hp,heffect⟩ := List.any_eq_true.mp hredundant
  rw [decide_eq_true_eq] at heffect
  obtain ⟨access',hacc',hiff⟩ := redundant_removal_iff FirstMatch.Sample.aliceToken
    Sample.repeatedFolder none [] access [] {} exp hacc hexp (by decide) (by simp) p hp heffect
  exact ⟨access,exp,p,access',hacc,hexp,hp,heffect,hacc',hiff⟩

/-- The second entry settles nothing, and taking it out gives Alice WRITE_DAC. -/
theorem repeated_entry_kept_owner_out :
    ¬ ∀ (token : SubjectToken) (resource : ResourceDacl) (share : Option ShareDacl)
      (fs : List AccessFinding) (access access' : EffectiveAccess) (edges : List GraphEdge)
      (limits : ExplanationLimits) (exp : AccessExplanation),
      resolveAccess token resource share fs = .ok access →
      explainAccess access resource share edges limits = .ok exp →
      resource.entries.length ≤ maxAclEntries →
      (∀ s ∈ share, s.entries.length ≤ maxAclEntries) →
      ∀ p ∈ exp.paths, p.effect = .redundant →
      resolveAccess token (dropFrom resource (placeOf p)) (share.map (dropFromShare (placeOf p)))
        fs = .ok access' → access'.rights = access.rights := by
  intro hall
  have hruns : (resolveAccess FirstMatch.Sample.aliceToken Sample.repeatedFolder none [] >>=
      fun access => (explainAccess access Sample.repeatedFolder none [] {}).map
        fun exp => (access,exp)).map
        (fun r => r.2.paths.any fun p => p.effect = .redundant && placeOf p = (.ntfs,1) &&
          r.1.rights.value = NtfsRight.readControl) = .ok true := by
    decide +kernel
  have hafter : (resolveAccess FirstMatch.Sample.aliceToken
      (dropFrom Sample.repeatedFolder (.ntfs,1)) none []).map (fun access => access.rights.value) =
        .ok ownerImplicitRights.value := by
    decide +kernel
  obtain ⟨⟨access,exp⟩,hboth,hfound⟩ := mapped_ok.mp hruns
  obtain ⟨access1,hacc,hexp⟩ := bind_ok.mp hboth
  obtain ⟨exp1,hexp,hsame⟩ := mapped_ok.mp hexp
  cases hsame
  obtain ⟨access',hacc',hrights⟩ := mapped_ok.mp hafter
  obtain ⟨p,hp,hclaim⟩ := List.any_eq_true.mp hfound
  simp only [Bool.and_eq_true, decide_eq_true_eq] at hclaim
  obtain ⟨⟨hredundant,hplace⟩,hbefore⟩ := hclaim
  have hkept := hall _ _ _ _ _ access' _ _ _ hacc hexp (by decide) (by simp) p hp hredundant
    (by rw [hplace]; exact hacc')
  rw [hkept, hbefore] at hrights
  revert hrights
  decide

end Adg.RedundantEntries
