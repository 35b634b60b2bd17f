import Adg.ExplanationGraph
import Adg.LowerBound

/-!
# A measured removal is the access check on the edited estate

A removal is measured with a restricted token and a reduced ACL. For an entry
that is the check on the edited ACL. For a membership row it is the check for
the token rebuilt without the row, exactly when no assumed SID is lost with
the row.
-/

set_option autoImplicit false

namespace Adg.RemovalExactness
open Adg.Observation Adg.RightsAlgebra Adg.AccessConditions Adg.AccessSubjects Adg.Evaluation
open Adg.AccessResolver Adg.ResolvedRights Adg.LowerBound Adg.MembershipGraph Adg.CycleSearch
open Adg.Reachability Adg.AccessCausality Adg.RemovalAnalysis Adg.ExplanationGraph Adg.Decomposition
open Adg.Fallible (bind_ok mapped_ok)

/-- The DACL with one entry deleted, when the exclusion is about this layer. -/
def editedResource (resource : ResourceDacl) (excluded : Option (RightsLayer × ℕ)) :
    ResourceDacl :=
  { resource with entries := without resource.entries excluded .ntfs }

theorem without_nil (excluded : Option (RightsLayer × ℕ)) (layer : RightsLayer) :
    without [] excluded layer = [] := by
  unfold without
  cases excluded with
  | none => rfl
  | some e => simp

def editedShare (excluded : Option (RightsLayer × ℕ)) (share : ShareDacl) : ShareDacl :=
  { share with
    entries := without share.entries excluded .smbShare
    unread_empty := fun h => by rw [share.unread_empty h, without_nil] }

theorem mem_without {entries : List AclEntry} {excluded : Option (RightsLayer × ℕ)}
    {layer : RightsLayer} {e : AclEntry} (h : e ∈ without entries excluded layer) :
    e ∈ entries := by
  unfold without at h
  split at h
  · exact h
  · split at h
    · exact List.mem_of_mem_eraseIdx h
    · exact h

theorem edited_layered {resource : ResourceDacl} {share : Option ShareDacl}
    (h : Layered resource share) (excluded : Option (RightsLayer × ℕ)) :
    Layered (editedResource resource excluded) (share.map (editedShare excluded)) := by
  refine ⟨fun e he => h.ntfs e (mem_without he),fun s hs e he => ?_⟩
  obtain ⟨s',hs',rfl⟩ := Option.mem_map.mp hs
  exact h.share s' hs' e (mem_without he)

section Measured
variable {q : Question}

/-- A question about a resolved answer, over the ACLs it was resolved with. -/
structure Resolved (q : Question) : Prop where
  path : q.access.path = q.access.token.accessPath
  fits : PathFits q.access.token q.share
  layered : Layered q.resource q.share
  rights : q.access.rights = ⟨resolvedMask q.access.token q.resource q.share,.effective⟩

theorem resolved_of_access {token : SubjectToken} {resource : ResourceDacl}
    {share : Option ShareDacl} {fs : List AccessFinding} {access : EffectiveAccess}
    (h : resolveAccess token resource share fs = .ok access) (limits : ExplanationLimits)
    (edges : List GraphEdge) : Resolved ⟨access,resource,share,limits,edges⟩ := by
  have hres := resolveAccess_spec h
  have ht := hres.token_eq
  exact ⟨ht ▸ hres.path,ht ▸ hres.fits,hres.layered,ht ▸ hres.rights⟩

theorem restricted_path {token token' : SubjectToken} {keys : List String}
    (h : restricted token keys = .ok token') : token'.accessPath = token.accessPath := by
  unfold restricted at h
  split at h
  · cases h
    rfl
  · cases h

/-- The measurement is the resolution of the restricted token over the edited ACLs. -/
theorem reevaluate_spec (hq : Resolved q) {keys : List String} {token' : SubjectToken}
    (ht : restricted q.access.token keys = .ok token') (excluded : Option (RightsLayer × ℕ)) :
    reevaluate q keys excluded = .ok ⟨resolvedMask token' (editedResource q.resource excluded)
      (q.share.map (editedShare excluded)),.effective⟩ := by
  have hlayered := edited_layered hq.layered excluded
  have hpath := restricted_path ht
  obtain ⟨ntfs,hn⟩ := evaluateAcl_returns token' q.resource.facts (by decide) hlayered.ntfs
  have hrights := evaluateAcl_rights hn
  have hspec := aclRights_specific (editedResource q.resource excluded).entries token' .ntfs
    q.resource.facts
  have hntfs : evaluateAcl (without q.resource.entries excluded .ntfs) token' .ntfs
      q.resource.facts = .ok ntfs := hn
  refine bind_ok.mpr ⟨token',ht,bind_ok.mpr ⟨ntfs,hntfs,?_⟩⟩
  cases hs : q.share with
  | none =>
    have hlocal : q.access.path = .localPath := by
      rw [hq.path]
      cases hp : q.access.token.accessPath with
      | localPath => rfl
      | remoteSmb => simpa [hs] using hq.fits.mp hp
    obtain ⟨e,he,her⟩ := effectiveRights_local _ hspec
    refine bind_ok.mpr ⟨e,?_,congrArg Except.ok her⟩
    rw [hrights, hlocal]
    exact he
  | some s =>
    have hremote : q.access.path = .remoteSmb := by
      rw [hq.path]
      exact hq.fits.mpr (by simp [hs])
    cases ho : s.observed with
    | false =>
      simp only [ho, Bool.not_false, if_true, pure, Except.pure]
      rw [hrights, aclRights_expanded]
      simp [resolvedMask, editedShare, ho]
      rfl
    | true =>
      obtain ⟨ev,hev⟩ := evaluateAcl_returns token' unownedPresentDacl (by decide)
        (hlayered.share (editedShare excluded s) (by simp [hs]))
      obtain ⟨e,he,her⟩ := effectiveRights_remote _ _ hspec
        (aclRights_specific (editedShare excluded s).entries token' .smbShare unownedPresentDacl)
      have hshare : evaluateAcl (without s.entries excluded .smbShare) token' .smbShare
          unownedPresentDacl = .ok ev := hev
      simp only [ho, Bool.not_true, Bool.false_eq_true, if_false]
      refine bind_ok.mpr ⟨ev,hshare,bind_ok.mpr ⟨e,?_,?_⟩⟩
      · rw [evaluateAcl_rights hev, hrights, hremote]
        exact he
      · refine congrArg Except.ok (her.trans ?_)
        have hobs : (editedShare excluded s).observed = true := ho
        simp only [Option.map_some, resolvedMask, hobs, if_true]
        rfl

end Measured

theorem restricted_all (token : SubjectToken) : restricted token token.keys = .ok token := by
  have hall : token.entries.filter (·.key ∈ token.keys) = token.entries :=
    List.filter_eq_self.mpr fun e he => by
      simpa [SubjectToken.keys] using ⟨e,he,rfl⟩
  unfold restricted
  rw [dif_pos (by rw [hall]; exact token.entries_ne)]
  simp only [hall]

/-- Reachable upward in at least one hop. -/
def UpReach (edges : List GraphEdge) (x y : String) : Prop :=
  Relation.TransGen (Hop edges .up) x y

theorem mem_reachableUpward {edges : List GraphEdge} {root key : String} :
    key ∈ reachableUpward edges root ↔ UpReach edges root key := by
  have hV : ∀ x, ∀ y ∈ groupsOf edges x, y ∈ edges.map (·.groupKey) := by
    intro x y hy
    exact (List.filter_sublist.map _).subset hy
  have hhop : (fun u v => v ∈ groupsOf edges u) = Hop edges .up := by
    funext u v
    simp [groupsOf, Hop, GraphEdge.origin, GraphEdge.endpoint, and_assoc]
  unfold reachableUpward UpReach
  rw [mem_reachedFrom hV (by simp), hhop]

theorem upReach_withoutRow {edges : List GraphEdge} {row x y : String}
    (h : UpReach (withoutRow edges row) x y) : UpReach edges x y := by
  refine Relation.TransGen.mono (fun u v huv => ?_) _ _ h
  obtain ⟨e,he,hov⟩ := huv
  exact ⟨e,List.mem_of_mem_filter he,hov⟩

/-- The groups of a token are the keys a subject reaches upward. Whether its
own key is among them makes no difference, since a token holds it anyway. -/
structure UpwardGroups (edges : List GraphEdge) (subject : SubjectFacts)
    (groups : List TokenSid) : Prop where
  origin : ∀ g ∈ groups, g.origin = .groupMembership
  keys : ∀ k, k ≠ subject.key → (k ∈ groups.map (·.key) ↔ UpReach edges subject.key k)

/-- What survives the loss of a membership row. -/
def survives (edges : List GraphEdge) (row root : String) (e : TokenSid) : Bool :=
  e.origin ≠ .groupMembership || e.key ∈ reachableUpward (withoutRow edges row) root

theorem survivingKeys_row {q : Question} {edge : ExplanationEdge} {row : String}
    (hk : edge.kind = .membership) (hrow : edge.membershipEdgeKey = some row) :
    survivingKeys q edge = (q.access.token.entries.filter
      (survives q.subgraph row q.access.token.subject.key)).map (·.key) := by
  unfold survivingKeys survives
  rw [hk, hrow]

theorem survivingKeys_trustee {q : Question} {edge : ExplanationEdge}
    (hk : edge.kind = .trustee) : survivingKeys q edge = q.access.token.keys := by
  unfold survivingKeys
  rw [hk]

/-- Restricting a token to the keys of some of its entries keeps those entries. -/
theorem filter_keys {entries : List TokenSid} (hn : (entries.map (·.key)).Nodup)
    (p : TokenSid → Bool) :
    entries.filter (·.key ∈ (entries.filter p).map (·.key)) = entries.filter p := by
  apply List.filter_congr
  intro e he
  rw [Bool.eq_iff_iff, decide_eq_true_eq]
  constructor
  · intro hin
    obtain ⟨f,hf,hkey⟩ := List.mem_map.mp hin
    obtain ⟨hfe,hp⟩ := List.mem_filter.mp hf
    have hsame : f = e := List.inj_on_of_nodup_map hn hfe he hkey
    exact hsame ▸ hp
  · intro hp
    exact List.mem_map_of_mem (List.mem_filter.mpr ⟨he,hp⟩)

theorem restricted_contains {token : SubjectToken} {p : TokenSid → Bool}
    (hne : ∃ e ∈ token.entries, p e = true) :
    ∃ token', restricted token ((token.entries.filter p).map (·.key)) = .ok token' ∧
      ∀ k, token'.contains k = true ↔ ∃ e ∈ token.entries, p e = true ∧ e.key = k ∧
        (e.origin = .subject → token.subjectPresented = true) := by
  have hkeep := filter_keys token.keys_nodup p
  have hne' : token.entries.filter (·.key ∈ (token.entries.filter p).map (·.key)) ≠ [] := by
    rw [hkeep]
    obtain ⟨e,he,hp⟩ := hne
    exact List.ne_nil_of_mem (List.mem_filter.mpr ⟨he,hp⟩)
  refine ⟨_,by unfold restricted; rw [dif_pos hne'],fun k => ?_⟩
  rw [SubjectToken.contains_iff]
  simp only [hkeep, List.mem_filter, and_assoc]

section Rebuilt
variable {edges : List GraphEdge} {row : String} {subject : SubjectFacts}
  {groups groups' : List TokenSid} {path : AccessPath} {assumption : Option TokenAssumption}
  {complete complete' : Bool} {fs fs' : List AccessFinding}

/-- No assumed SID is observed as a group that only the row leads to. -/
def KeepsAssumed (edges : List GraphEdge) (row : String) (subject : SubjectFacts)
    (path : AccessPath) (assumption : Option TokenAssumption) : Prop :=
  presentsSubject subject path = true →
    ∀ k ∈ assumedKeys (assumption.getD (defaultAssumption subject)) path, k ≠ subject.key →
      UpReach edges subject.key k → UpReach (withoutRow edges row) subject.key k

theorem entry_cases {e : TokenSid}
    (h : e ∈ (buildToken subject groups path assumption complete fs).entries) :
    e = subjectEntry subject ∨
      (presentsSubject subject path = true ∧ e ∈ groups ∧ e.key ≠ subject.key) ∨
      (e.key ∈ assumedKeys (assumption.getD (defaultAssumption subject)) path ∧
        e.origin ≠ .groupMembership ∧ (observedEntries subject groups path).holds e.key = false) := by
  rcases Collected.mem_addAll h with hobserved | ⟨hassumed,hfresh⟩
  · unfold observedEntries at hobserved
    split at hobserved
    · next hp =>
      rcases Collected.mem_addAll hobserved with hstart | ⟨hgroup,hfresh⟩
      · exact .inl (by simpa [startOf] using hstart)
      · refine .inr (.inl ⟨hp,hgroup,fun he => ?_⟩)
        rw [← Bool.not_eq_true, holds_start] at hfresh
        exact hfresh he
    · exact .inl (by simpa [startOf] using hobserved)
  · obtain ⟨r,hr,rfl⟩ := List.mem_map.mp hassumed
    exact .inr (.inr ⟨List.mem_map_of_mem hr,(assumed_origin hr).2,hfresh⟩)

theorem observed_holds (hp : presentsSubject subject path = true) (k : String) :
    (observedEntries subject groups path).holds k = true ↔
      k = subject.key ∨ k ∈ groups.map (·.key) := by
  have heq : observedEntries subject groups path =
      groups.foldl Collected.add (startOf subject) := by simp [observedEntries, hp]
  rw [heq, Collected.holds_addAll, holds_start]

variable (assumption complete fs) in
/-- What the measured token holds once a row is gone. -/
theorem survivors_contain (hg : UpwardGroups edges subject groups)
    (hp : presentsSubject subject path = true) (k : String) :
    (∃ e ∈ (buildToken subject groups path assumption complete fs).entries,
        survives edges row subject.key e = true ∧ e.key = k) ↔
      k = subject.key ∨ UpReach (withoutRow edges row) subject.key k ∨
        (k ∈ assumedKeys (assumption.getD (defaultAssumption subject)) path ∧
          ¬ UpReach edges subject.key k) := by
  have hsurvives (e : TokenSid) : survives edges row subject.key e = true ↔
      e.origin ≠ .groupMembership ∨ UpReach (withoutRow edges row) subject.key e.key := by
    simp [survives, mem_reachableUpward]
  have hheld (key : String) (hne : key ≠ subject.key) :
      (observedEntries subject groups path).holds key = true ↔ UpReach edges subject.key key := by
    rw [observed_holds hp, or_iff_right hne]
    exact hg.keys key hne
  constructor
  · rintro ⟨e,he,hs,rfl⟩
    by_cases hself : e.key = subject.key
    · exact .inl hself
    · rcases entry_cases he with rfl | ⟨-,hgroup,-⟩ | ⟨hassumed,-,hfresh⟩
      · exact .inl rfl
      · exact .inr (.inl (((hsurvives e).mp hs).resolve_left (not_not.mpr (hg.origin e hgroup))))
      · refine .inr (.inr ⟨hassumed,fun hreach => ?_⟩)
        rw [(hheld e.key hself).mpr hreach] at hfresh
        cases hfresh
  · have hcarried (key : String) (h : (carriedEntries subject groups path
        (assumption.getD (defaultAssumption subject))).holds key = true) :
        ∃ e ∈ (buildToken subject groups path assumption complete fs).entries, e.key = key := by
      have hin : ∃ e ∈ (carriedEntries subject groups path
          (assumption.getD (defaultAssumption subject))).entries, e.key = key := by
        simpa [Collected.holds] using h
      exact hin
    have hself : ∃ e ∈ (buildToken subject groups path assumption complete fs).entries,
        survives edges row subject.key e = true ∧ e.key = subject.key :=
      ⟨_,subject_carried subject groups path _,(hsurvives _).mpr (.inl (by simp [subjectEntry])),rfl⟩
    by_cases hk : k = subject.key
    · exact fun _ => hk ▸ hself
    · rintro (hsame | hreach | ⟨hassumed,hout⟩)
      · exact absurd hsame hk
      · obtain ⟨e,he,rfl⟩ := hcarried k ((carried_holds _ _ _ _ k).mpr
          (.inl ((hheld k hk).mpr (upReach_withoutRow hreach))))
        exact ⟨e,he,(hsurvives e).mpr (.inr hreach),rfl⟩
      · obtain ⟨e,he,rfl⟩ := hcarried k ((carried_holds _ _ _ _ k).mpr (.inr hassumed))
        refine ⟨e,he,(hsurvives e).mpr (.inl ?_),rfl⟩
        rcases entry_cases he with rfl | ⟨-,hgroup,hne⟩ | ⟨-,horigin,-⟩
        · exact absurd rfl hk
        · exact absurd ((hg.keys e.key hne).mp (List.mem_map_of_mem hgroup)) hout
        · exact horigin

variable (assumption complete fs) in
theorem rebuilt_contains (hg : UpwardGroups edges subject groups)
    (hp : presentsSubject subject path = true) (k : String) :
    (buildToken subject groups path assumption complete fs).contains k = true ↔
      k = subject.key ∨ UpReach edges subject.key k ∨
        k ∈ assumedKeys (assumption.getD (defaultAssumption subject)) path := by
  rw [buildToken_contains _ _ _ _ _ _ hp]
  by_cases hk : k = subject.key
  · simp [hk]
  · rw [hg.keys k hk]

/-- A subject that is not presented carries no group to lose. -/
theorem unpresented_survives (hp : presentsSubject subject path = false) {e : TokenSid}
    (he : e ∈ (buildToken subject groups path assumption complete fs).entries) :
    survives edges row subject.key e = true := by
  rcases entry_cases he with rfl | ⟨hp',-⟩ | ⟨-,horigin,-⟩
  · simp [survives, subjectEntry]
  · rw [hp] at hp'
    cases hp'
  · simp [survives, horigin]

variable (path assumption complete complete' fs fs') in
/-- The measured token and the rebuilt one hold the same keys exactly when no
assumed SID is lost with the row. -/
theorem measured_agrees_iff (hg : UpwardGroups edges subject groups)
    (hg' : UpwardGroups (withoutRow edges row) subject groups') :
    ∃ token', restricted (buildToken subject groups path assumption complete fs)
        (((buildToken subject groups path assumption complete fs).entries.filter
          (survives edges row subject.key)).map (·.key)) = .ok token' ∧
      ((∀ k, token'.contains k =
          (buildToken subject groups' path assumption complete' fs').contains k) ↔
        KeepsAssumed edges row subject path assumption) ∧
      ∀ k, token'.contains k = true →
        (buildToken subject groups' path assumption complete' fs').contains k = true := by
  have hne : ∃ e ∈ (buildToken subject groups path assumption complete fs).entries,
      survives edges row subject.key e = true :=
    ⟨_,subject_carried subject groups path _,by simp [survives, subjectEntry]⟩
  obtain ⟨token',hok,hcontains⟩ := restricted_contains hne
  refine ⟨token',hok,?_⟩
  cases hp : presentsSubject subject path with
  | false =>
    have hsame (k : String) : token'.contains k = true ↔
        (buildToken subject groups' path assumption complete' fs').contains k = true := by
      have hentries := (buildToken_unpresented subject groups path assumption complete fs hp).trans
        (buildToken_unpresented subject groups' path assumption complete' fs' hp).symm
      have hpresented : ∀ gs c xs,
          (buildToken subject gs path assumption c xs).subjectPresented = false := by
        intro gs c xs
        simp [buildToken, hp]
      rw [hcontains, SubjectToken.contains_iff, hpresented, hpresented, ← hentries]
      refine exists_congr fun e => and_congr_right fun he => ?_
      simp [unpresented_survives hp he]
    refine ⟨⟨fun _ h => ?_,fun _ k => Bool.eq_iff_iff.mpr (hsame k)⟩,fun k => (hsame k).mp⟩
    rw [hp] at h
    cases h
  | true =>
    have hmeasured (k : String) : token'.contains k = true ↔
        k = subject.key ∨ UpReach (withoutRow edges row) subject.key k ∨
          (k ∈ assumedKeys (assumption.getD (defaultAssumption subject)) path ∧
            ¬ UpReach edges subject.key k) := by
      have hpresented : (buildToken subject groups path assumption complete fs).subjectPresented =
          true := by simp [buildToken, hp]
      rw [hcontains, hpresented, ← survivors_contain assumption complete fs hg hp k]
      simp
    have hrebuilt := rebuilt_contains assumption complete' fs' hg' hp
    have hwithin (k : String) (h : token'.contains k = true) :
        (buildToken subject groups' path assumption complete' fs').contains k = true := by
      rw [hrebuilt k]
      rcases (hmeasured k).mp h with hself | hreach | ⟨hassumed,-⟩
      · exact .inl hself
      · exact .inr (.inl hreach)
      · exact .inr (.inr hassumed)
    refine ⟨⟨fun hsame _ k hassumed hne hreach => ?_,fun hkeeps k => ?_⟩,hwithin⟩
    · have hheld : token'.contains k = true := by
        rw [hsame k, hrebuilt k]
        exact .inr (.inr hassumed)
      rcases (hmeasured k).mp hheld with hself | hleft | ⟨-,hout⟩
      · exact absurd hself hne
      · exact hleft
      · exact absurd hreach hout
    · refine Bool.eq_iff_iff.mpr ⟨hwithin k,fun h => (hmeasured k).mpr ?_⟩
      rcases (hrebuilt k).mp h with hself | hreach | hassumed
      · exact .inl hself
      · exact .inr (.inl hreach)
      · by_cases hself : k = subject.key
        · exact .inl hself
        · by_cases hreach : UpReach edges subject.key k
          · exact .inr (.inl (hkeeps hp k hassumed hself hreach))
          · exact .inr (.inr ⟨hassumed,hreach⟩)

end Rebuilt

/-- An entry that allows one key everything. -/
def allowAll (key : String) (h : key ≠ "") : AclEntry where
  trusteeKey := key
  trusteeSid := everyoneSid
  aceType := .allow
  mask := ⟨fileAllAccess,.ntfs⟩
  trustee_ne := h

/-- A DACL with one allow-all entry lets bit 0 through to its trustee alone. -/
theorem allowAll_bit (token : SubjectToken) (key : String) (h : key ≠ "") :
    (aclRights [allowAll key h] token .ntfs {}).getLsbD 0 = true ↔ token.contains key = true := by
  have hbit : (allowAll key h).expanded.getLsbD 0 = true := by
    show (RightsMask.mk fileAllAccess .ntfs).expandGenerics.value.getLsbD 0 = true
    decide
  have hcounts : FirstMatch.counts token (ownerTokenSidOf token {}) (allowAll key h) =
      token.contains key := by
    have happlies : (allowAll key h).appliesToThisObject = true := by
      simp [AclEntry.appliesToThisObject, allowAll]
    have hplain : (allowAll key h).namesSubstitutionPlaceholder = false := by
      show decide (everyoneSid ∈ [creatorOwnerSid, creatorGroupSid]) = false
      decide
    have hnamed : (allowAll key h).namesOwnerRights = false := by
      show decide (everyoneSid = ownerRightsSid) = false
      decide
    have hkey : (allowAll key h).trusteeKey = key := rfl
    simp [FirstMatch.counts, matchEntry, happlies, hplain, hnamed, SubjectToken.contains, hkey]
  rw [aclRights_bit rfl, FirstMatch.ownerGrant_bit]
  constructor
  · rintro (⟨⟨k,hk,-⟩,-⟩ | ⟨e,he,-⟩)
    · cases hk
    · have hmem := List.mem_of_find?_eq_some he
      have hcount := List.find?_some he
      obtain rfl : e = allowAll key h := List.mem_singleton.mp (List.mem_of_mem_take hmem)
      rw [hcounts, Bool.and_eq_true] at hcount
      exact hcount.1
  · intro hc
    refine .inr ⟨allowAll key h,?_,rfl⟩
    show [allowAll key h].find? _ = _
    rw [List.find?_cons_of_pos]
    rw [hcounts, hc, hbit]
    rfl

/-- The groups a traversal of a subgraph puts in a token. -/
def upwardGroupsOf (edges : List GraphEdge) (root : String) : List TokenSid :=
  (edges.filter (·.groupKey ∈ reachableUpward edges root)).map fun e =>
    { key := e.groupKey, sid := e.groupKey, origin := .groupMembership, key_ne := e.group_ne }

theorem upwardGroupsOf_spec (edges : List GraphEdge) (subject : SubjectFacts) :
    UpwardGroups edges subject (upwardGroupsOf edges subject.key) := by
  refine ⟨fun g hg => ?_,fun k _ => ?_⟩
  · obtain ⟨e,-,rfl⟩ := List.mem_map.mp hg
    rfl
  · have hmem : k ∈ (upwardGroupsOf edges subject.key).map (·.key) ↔
        ∃ e ∈ edges, UpReach edges subject.key e.groupKey ∧ e.groupKey = k := by
      simp [upwardGroupsOf, mem_reachableUpward, and_assoc]
    rw [hmem]
    constructor
    · rintro ⟨e,-,hreach,rfl⟩
      exact hreach
    · intro hreach
      obtain ⟨e,he,hend⟩ : ∃ e ∈ edges, e.groupKey = k := by
        rcases Relation.TransGen.tail'_iff.mp hreach with ⟨x,-,e,he,-,hk⟩
        exact ⟨e,he,hk⟩
      exact ⟨e,he,hend ▸ hreach,hend⟩

section Exactness
variable (edges : List GraphEdge) (row : String) (subject : SubjectFacts) (groups : List TokenSid)
  (path : AccessPath) (assumption : Option TokenAssumption) (complete : Bool)
  (fs : List AccessFinding)

/-- For every pair of ACLs, what is measured for an edge backed by the row is
what the token rebuilt without the row resolves to. -/
def RowMeasuredExactly : Prop :=
  ∀ resource share notes access limits,
    resolveAccess (buildToken subject groups path assumption complete fs) resource share notes =
      .ok access →
    ∀ (b : Builder) edgeId edge, b.edge edgeId = some edge → edge.kind = .membership →
      edge.membershipEdgeKey = some row →
    ∀ groups', UpwardGroups (withoutRow edges row) subject groups' →
      ∃ t access', RemovalAnalysis.measure ⟨access,resource,share,limits,edges⟩ b edgeId = .ok (some t) ∧
        resolveAccess (buildToken subject groups' path assumption complete fs) resource share
          notes = .ok access' ∧ t.rightsAfter = access'.rights

variable {edges row subject groups path assumption complete fs}

/-- The measured mask for the loss of a row, as a resolution of the survivors. -/
theorem measure_row {resource : ResourceDacl} {share : Option ShareDacl}
    {notes : List AccessFinding} {access : EffectiveAccess} (limits : ExplanationLimits)
    (hacc : resolveAccess (buildToken subject groups path assumption complete fs) resource share
      notes = .ok access)
    {token' : SubjectToken} (ht : restricted (buildToken subject groups path assumption complete fs)
      (((buildToken subject groups path assumption complete fs).entries.filter
        (survives edges row subject.key)).map (·.key)) = .ok token')
    {b : Builder} {edgeId : String} {edge : ExplanationEdge} (he : b.edge edgeId = some edge)
    (hk : edge.kind = .membership) (hrow : edge.membershipEdgeKey = some row) :
    RemovalAnalysis.measure ⟨access,resource,share,limits,edges⟩ b edgeId =
      .ok (some (targetOf ⟨access,resource,share,limits,edges⟩ b edge edgeId
        ⟨resolvedMask token' resource share,.effective⟩)) := by
  have hq := resolved_of_access hacc limits edges
  have htoken := (resolveAccess_spec hacc).token_eq
  have hkeys := survivingKeys_row (q := ⟨access,resource,share,limits,edges⟩) hk hrow
  have hace : aceBehind b edge = none := by simp [aceBehind, hk]
  have hshare : share.map (editedShare none) = share := by cases share <;> rfl
  have hrestricted : restricted access.token
      (survivingKeys ⟨access,resource,share,limits,edges⟩ edge) = .ok token' := by
    rw [hkeys]
    simp only [htoken]
    exact ht
  have hmeasured := reevaluate_spec hq hrestricted none
  unfold RemovalAnalysis.measure
  rw [he]
  refine bind_ok.mpr ⟨_,by rw [hace]; exact hmeasured,?_⟩
  simp only [hshare]
  rfl

theorem resolve_rebuilt {resource : ResourceDacl} {share : Option ShareDacl}
    {notes : List AccessFinding} {access : EffectiveAccess}
    (hacc : resolveAccess (buildToken subject groups path assumption complete fs) resource share
      notes = .ok access) (groups' : List TokenSid) :
    ∃ access', resolveAccess (buildToken subject groups' path assumption complete fs) resource share
        notes = .ok access' ∧
      access'.rights = ⟨resolvedMask (buildToken subject groups' path assumption complete fs)
        resource share,.effective⟩ := by
  have hres := resolveAccess_spec hacc
  have hreturns : ∃ access', resolveAccess (buildToken subject groups' path assumption complete fs)
      resource share notes = .ok access' := resolveAccess_returns notes hres.fits hres.layered
  obtain ⟨access',h'⟩ := hreturns
  exact ⟨access',h',(resolveAccess_spec h').rights⟩

theorem keeps_measures (hg : UpwardGroups edges subject groups)
    (hkeeps : KeepsAssumed edges row subject path assumption) :
    RowMeasuredExactly edges row subject groups path assumption complete fs := by
  intro resource share notes access limits hacc b edgeId edge he hk hrow groups' hg'
  obtain ⟨token',ht,hagree,-⟩ := measured_agrees_iff path assumption complete complete fs fs hg hg'
  obtain ⟨access',h',hrights⟩ := resolve_rebuilt hacc groups'
  have hsame := hagree.mpr hkeeps
  refine ⟨_,access',measure_row limits hacc ht he hk hrow,h',?_⟩
  rw [hrights]
  exact congrArg (RightsMask.mk · .effective) (resolvedMask_congr (fun e _ => hsame _)
    (fun key _ => hsame key) (fun s _ e _ => hsame _))

/-- An object one key may do everything to. -/
def openTo (key : String) (h : key ≠ "") : ResourceDacl :=
  .stored "object" [allowAll key h] (by decide)

/-- A share in front of a remote resolution whose ACL nobody read. -/
def unreadShare (path : AccessPath) : Option ShareDacl :=
  match path with
  | .remoteSmb => some { shareKey := "share", observed := false }
  | .localPath => none

theorem unreadShare_mask (token : SubjectToken) (resource : ResourceDacl) (path : AccessPath) :
    resolvedMask token resource (unreadShare path) =
      aclRights resource.entries token .ntfs resource.facts := by
  cases path <;> rfl

theorem openTo_layered (key : String) (h : key ≠ "") (path : AccessPath) :
    Layered (openTo key h) (unreadShare path) := by
  refine ⟨fun e he => by rw [List.mem_singleton.mp he]; rfl,fun s hs e he => ?_⟩
  cases path with
  | localPath => cases hs
  | remoteSmb => cases hs; cases he

variable (subject groups path assumption complete fs) in
theorem openTo_resolves (key : String) (h : key ≠ "") :
    ∃ access, resolveAccess (buildToken subject groups path assumption complete fs) (openTo key h)
      (unreadShare path) [] = .ok access := by
  refine resolveAccess_returns [] ?_ (openTo_layered key h path)
  show path = .remoteSmb ↔ (unreadShare path).isSome = true
  cases path <;> decide

/-- An edge that is backed by a stored row, alone in its builder. -/
def rowEdge (row : String) : ExplanationEdge where
  edgeId := "edge"
  kind := .membership
  source := "member"
  target := "group"
  membershipEdgeKey := some row

theorem measures_keeps (hg : UpwardGroups edges subject groups)
    (h : RowMeasuredExactly edges row subject groups path assumption complete fs) :
    KeepsAssumed edges row subject path assumption := by
  have hg' := upwardGroupsOf_spec (withoutRow edges row) subject
  obtain ⟨token',ht,hagree,hwithin⟩ := measured_agrees_iff path assumption complete complete fs fs hg hg'
  refine hagree.mp fun k => Bool.eq_iff_iff.mpr ⟨hwithin k,fun hk => ?_⟩
  obtain ⟨entry,-,hkey,-⟩ := SubjectToken.contains_iff.mp hk
  have hne : k ≠ "" := hkey ▸ entry.key_ne
  -- an object open to this one key tells the two tokens apart
  obtain ⟨access,hacc⟩ := openTo_resolves subject groups path assumption complete fs k hne
  have hedge : Builder.edge { edges := [rowEdge row] } "edge" = some (rowEdge row) := by
    simp [Builder.edge, rowEdge]
  obtain ⟨t,access',hmeasure,hacc',hafter⟩ := h _ _ _ _ {} hacc _ _ _ hedge rfl rfl _ hg'
  rw [measure_row {} hacc ht hedge rfl rfl] at hmeasure
  obtain rfl := Option.some.inj (Except.ok.inj hmeasure)
  have hmask : resolvedMask token' (openTo k hne) (unreadShare path) =
      resolvedMask (buildToken subject (upwardGroupsOf (withoutRow edges row) subject.key) path
        assumption complete fs) (openTo k hne) (unreadShare path) := by
    rw [(resolveAccess_spec hacc').rights] at hafter
    exact congrArg RightsMask.value hafter
  rw [unreadShare_mask, unreadShare_mask] at hmask
  have hbit := (allowAll_bit _ k hne).mpr hk
  exact (allowAll_bit token' k hne).mp (hmask ▸ hbit)

theorem mem_firstOccurrences {keys : List String} {key : String}
    (h : key ∈ firstOccurrences keys) : key ∈ keys := by
  have hfold (keys kept : List String) (h : key ∈ keys.foldl
      (fun kept key => if key ∈ kept then kept else kept ++ [key]) kept) :
      key ∈ kept ∨ key ∈ keys := by
    induction keys generalizing kept with
    | nil => exact .inl h
    | cons k ks ih =>
      rcases ih _ h with hkept | hrest
      · dsimp only at hkept
        split at hkept
        · exact .inl hkept
        · rcases List.mem_append.mp hkept with hold | hnew
          · exact .inl hold
          · exact .inr (List.mem_singleton.mp hnew ▸ List.mem_cons_self)
      · exact .inr (List.mem_cons_of_mem _ hrest)
  exact (hfold keys [] h).resolve_left List.not_mem_nil

theorem candidate_removable {b : Builder} {edgeId : String} (h : edgeId ∈ candidates b) :
    ∃ edge, b.edge edgeId = some edge ∧ edge.isRemovable = true := by
  have hmem := (List.mem_filter.mp (mem_firstOccurrences h)).2
  simpa [Option.any_eq_true] using hmem

/-- Every target is the measurement of one of the candidates. -/
theorem measureAll_mem {q : Question} {ids : List String} {targets : List RemovalTarget}
    {b : Builder} {result : List RemovalTarget × Builder}
    (h : measureAll q ids targets b = .ok result) {t : RemovalTarget} (ht : t ∈ result.1) :
    t ∈ targets ∨ ∃ edgeId ∈ ids, RemovalAnalysis.measure q b edgeId = .ok (some t) := by
  induction ids generalizing targets with
  | nil =>
    cases h
    exact .inl ht
  | cons id ids ih =>
    unfold measureAll at h
    split at h
    · cases h
      exact .inl ht
    · obtain ⟨target,hmeasure,hrest⟩ := bind_ok.mp h
      rcases ih hrest with hin | ⟨edgeId,hin,hm⟩
      · rcases List.mem_append.mp hin with hold | hnew
        · exact .inl hold
        · refine .inr ⟨id,List.mem_cons_self,?_⟩
          rw [hmeasure, Option.mem_toList.mp hnew]
      · exact .inr ⟨edgeId,List.mem_cons_of_mem _ hin,hm⟩

theorem measure_some {q : Question} {b : Builder} {edgeId : String} {t : RemovalTarget}
    (h : RemovalAnalysis.measure q b edgeId = .ok (some t)) :
    ∃ edge rights, b.edge edgeId = some edge ∧
      reevaluate q (survivingKeys q edge) (aceBehind b edge) = .ok rights ∧
      t = targetOf q b edge edgeId rights := by
  unfold RemovalAnalysis.measure at h
  split at h
  · cases h
  · next edge he =>
    obtain ⟨rights,hr,ht⟩ := bind_ok.mp h
    exact ⟨edge,rights,he,hr,(Option.some.inj (Except.ok.inj ht)).symm⟩

theorem aceBehind_trustee {b : Builder} (hw : Wired b) {edge : ExplanationEdge}
    (hmem : edge ∈ b.edges) (hk : edge.kind = .trustee) :
    ∃ node layer position, b.node edge.target = some node ∧ node.layer = some layer ∧
      node.position = some position ∧ aceBehind b edge = some (layer,position) := by
  obtain ⟨hace,m,hm,hid⟩ := (hw.anchored edge hmem).ace hk
  have hsome : (b.nodes.find? (·.nodeId = edge.target)).isSome :=
    List.find?_isSome.mpr ⟨m,hm,by simp [hid]⟩
  obtain ⟨node,hn⟩ := Option.isSome_iff_exists.mp hsome
  have hnid : node.nodeId = edge.target := by simpa using List.find?_some hn
  obtain ⟨layer,position,hl,hp⟩ :=
    (hw.located node (List.mem_of_find?_eq_some hn)).place (hnid ▸ hace)
  refine ⟨node,layer,position,hn,hl,hp,?_⟩
  have hn' : b.node edge.target = some node := hn
  simp [aceBehind, hk, hn', hl, hp]

variable (edges subject path assumption complete fs) in
/-- What a removal target says of an answer for the token over `groups`. -/
structure TargetExact (groups : List TokenSid) (resource : ResourceDacl)
    (share : Option ShareDacl) (notes : List AccessFinding) (access : EffectiveAccess)
    (exp : AccessExplanation) (t : RemovalTarget) : Prop where
  removed : t.rightsRemoved =
    ⟨access.rights.expandGenerics.value &&& ~~~t.rightsAfter.value,.effective⟩
  added : t.rightsAdded =
    ⟨t.rightsAfter.value &&& ~~~access.rights.expandGenerics.value,.effective⟩
  revokes : t.revokesAllAccess = true ↔ access.hasAccess = true ∧ t.rightsAfter.value = 0
  kinds : t.kind = .trustee ∨ t.kind = .membership
  trustee : t.kind = .trustee → ∃ node layer position access',
    exp.graph.node t.target = some node ∧ node.layer = some layer ∧ node.position = some position ∧
    resolveAccess (buildToken subject groups path assumption complete fs)
      (editedResource resource (some (layer,position)))
      (share.map (editedShare (some (layer,position)))) notes = .ok access' ∧
    t.rightsAfter = access'.rights
  membership : t.kind = .membership → ∃ edge row, exp.graph.edge t.edgeId = some edge ∧
    edge.membershipEdgeKey = some row ∧ (KeepsAssumed edges row subject path assumption →
      ∀ groups', UpwardGroups (withoutRow edges row) subject groups' →
        ∃ access', resolveAccess (buildToken subject groups' path assumption complete fs) resource
          share notes = .ok access' ∧ t.rightsAfter = access'.rights)

theorem target_exact (hg : UpwardGroups edges subject groups) {resource : ResourceDacl}
    {share : Option ShareDacl} {notes : List AccessFinding} {access : EffectiveAccess}
    {limits : ExplanationLimits} {exp : AccessExplanation}
    (hacc : resolveAccess (buildToken subject groups path assumption complete fs) resource share
      notes = .ok access)
    (hexp : explainAccess access resource share edges limits = .ok exp) {t : RemovalTarget}
    (ht : t ∈ exp.removalTargets) :
    TargetExact edges subject path assumption complete fs groups resource share notes access exp
      t := by
  obtain ⟨b,b',hbuild,htargets,-,-,hgraph,-⟩ := explainAccess_ok hexp
  have hw := build_wired hbuild
  have hq := resolved_of_access hacc limits edges
  have hres := resolveAccess_spec hacc
  obtain ⟨edgeId,hin,hmeasure⟩ := (measureAll_mem htargets ht).resolve_left List.not_mem_nil
  obtain ⟨edge,he,hremovable⟩ := candidate_removable hin
  obtain ⟨edge',rights,he',hrights,rfl⟩ := measure_some hmeasure
  rw [he] at he'
  cases he'
  have hmem : edge ∈ b.edges := List.mem_of_find?_eq_some he
  refine ⟨rfl,rfl,?_,?_,fun hk => ?_,fun hk => ?_⟩
  · simp [targetOf]
  · have hkind : edge.kind = .membership ∨ edge.kind = .trustee := by
      simpa [ExplanationEdge.isRemovable] using hremovable
    exact hkind.symm
  · obtain ⟨node,layer,position,hn,hl,hp,hace⟩ := aceBehind_trustee hw hmem hk
    have hall : restricted access.token (survivingKeys ⟨access,resource,share,limits,edges⟩ edge) =
        .ok access.token := by
      rw [survivingKeys_trustee hk]
      exact restricted_all access.token
    rw [hace, reevaluate_spec hq hall (some (layer,position))] at hrights
    have hlayered := edited_layered hres.layered (some (layer,position))
    have hfits : PathFits (buildToken subject groups path assumption complete fs)
        (share.map (editedShare (some (layer,position)))) := by
      have := hres.fits
      unfold PathFits at this ⊢
      rwa [Option.isSome_map]
    obtain ⟨access',hacc'⟩ := resolveAccess_returns notes hfits hlayered
    refine ⟨node,layer,position,access',hgraph ▸ hw.graph_node hn,hl,hp,hacc',?_⟩
    rw [(resolveAccess_spec hacc').rights, ← hres.token_eq]
    exact (Except.ok.inj hrights).symm
  · obtain ⟨row,hrow⟩ := (hw.anchored edge hmem).row hk
    refine ⟨edge,row,hgraph ▸ hw.graph_edge he,hrow,fun hkeeps groups' hg' => ?_⟩
    obtain ⟨t',access',ht',hacc',hafter⟩ := keeps_measures hg hkeeps resource share notes access
      limits hacc b edgeId edge he hk hrow groups' hg'
    rw [hmeasure] at ht'
    cases ht'
    exact ⟨access',hacc',hafter⟩

end Exactness

/-- Which measured removals are the access check on the edited estate: those
of an entry always, and those of a membership row exactly when no assumed SID
is lost with the row. -/
theorem removal_measured_exactly (edges : List GraphEdge) (subject : SubjectFacts)
    (groups : List TokenSid) (path : AccessPath) (assumption : Option TokenAssumption)
    (complete : Bool) (fs : List AccessFinding) (hg : UpwardGroups edges subject groups) :
    (∀ row, RowMeasuredExactly edges row subject groups path assumption complete fs ↔
      KeepsAssumed edges row subject path assumption) ∧
    ∀ resource share notes access limits exp,
      resolveAccess (buildToken subject groups path assumption complete fs) resource share notes =
        .ok access →
      explainAccess access resource share edges limits = .ok exp → ∀ t ∈ exp.removalTargets,
        TargetExact edges subject path assumption complete fs groups resource share notes access
          exp t :=
  ⟨fun _ => ⟨measures_keeps hg,keeps_measures hg⟩,
    fun _ _ _ _ _ _ hacc hexp _ ht => target_exact hg hacc hexp ht⟩

namespace Sample
open Adg.FirstMatch.Sample

/-- A stored row that makes Alice a member of Everyone. -/
def observedEveryone : List GraphEdge :=
  [{ edgeKey := "1", groupKey := everyoneSid, memberKey := aliceSid
     group_ne := everyoneSid_ne, member_ne := aliceSid_ne }]

def observedToken : SubjectToken :=
  buildToken alice (upwardGroupsOf observedEveryone aliceSid) .localPath none true []

def openToEveryone : ResourceDacl := openTo everyoneSid everyoneSid_ne

end Sample

theorem finance_row_is_measured :
    RowMeasuredExactly [Decomposition.Sample.aliceInFinance] "1" FirstMatch.Sample.alice
      (upwardGroupsOf [Decomposition.Sample.aliceInFinance] FirstMatch.Sample.aliceSid) .localPath
      none true [] := by
  refine ((removal_measured_exactly [Decomposition.Sample.aliceInFinance] FirstMatch.Sample.alice
    (upwardGroupsOf [Decomposition.Sample.aliceInFinance] FirstMatch.Sample.aliceSid) .localPath
    none true [] (upwardGroupsOf_spec _ FirstMatch.Sample.alice)).1 "1").mpr ?_
  intro _ k hk _ hreach
  have hfinance : k ∈ reachableUpward [Decomposition.Sample.aliceInFinance]
      FirstMatch.Sample.aliceSid := mem_reachableUpward.mpr hreach
  have hnone : ∀ k ∈ assumedKeys .authenticatedUser .localPath, k ∉ reachableUpward
      [Decomposition.Sample.aliceInFinance] FirstMatch.Sample.aliceSid := by decide
  exact absurd hfinance (hnone k hk)

/-- Everyone observed as a group: the row that leads to it is measured as
revoking everything, and the token rebuilt without the row holds Everyone
all the same. -/
theorem assumed_sid_lost_with_its_row :
    ¬ ∀ (edges : List GraphEdge) (subject : SubjectFacts) (groups : List TokenSid)
      (path : AccessPath) (assumption : Option TokenAssumption) (complete : Bool)
      (fs : List AccessFinding), UpwardGroups edges subject groups →
      ∀ resource share notes access limits exp,
      resolveAccess (buildToken subject groups path assumption complete fs) resource share notes =
        .ok access →
      explainAccess access resource share edges limits = .ok exp → ∀ t ∈ exp.removalTargets,
        t.kind = .membership → ∃ edge row, exp.graph.edge t.edgeId = some edge ∧
          edge.membershipEdgeKey = some row ∧
          ∀ groups', UpwardGroups (withoutRow edges row) subject groups' →
            ∃ access', resolveAccess (buildToken subject groups' path assumption complete fs)
              resource share notes = .ok access' ∧ t.rightsAfter = access'.rights := by
  intro h
  have hruns : (resolveAccess Sample.observedToken Sample.openToEveryone none [] >>= fun access =>
      explainAccess access Sample.openToEveryone none Sample.observedEveryone {}).map (fun exp =>
        exp.removalTargets.map fun t => (t.kind,t.rightsAfter.value,
          (exp.graph.edge t.edgeId).bind (·.membershipEdgeKey))) =
      .ok [(.membership,0,some "1"), (.trustee,0,none)] := by decide
  obtain ⟨exp,hexp,htargets⟩ := mapped_ok.mp hruns
  obtain ⟨access,hacc,hexp⟩ := bind_ok.mp hexp
  obtain ⟨t,ht,hshape⟩ : ∃ t ∈ exp.removalTargets, (t.kind,t.rightsAfter.value,
      (exp.graph.edge t.edgeId).bind (·.membershipEdgeKey)) = (.membership,0,some "1") :=
    List.mem_map.mp (by rw [htargets]; exact List.mem_cons_self)
  obtain ⟨hkind,hzero,hrow⟩ : t.kind = .membership ∧ t.rightsAfter.value = 0 ∧
      (exp.graph.edge t.edgeId).bind (·.membershipEdgeKey) = some "1" := by
    simpa using hshape
  obtain ⟨edge,row,hedge,hkey,hrebuilt⟩ := h Sample.observedEveryone FirstMatch.Sample.alice
    (upwardGroupsOf Sample.observedEveryone FirstMatch.Sample.aliceSid) .localPath none true []
    (upwardGroupsOf_spec _ FirstMatch.Sample.alice) Sample.openToEveryone none [] access {} exp hacc
    hexp t ht hkind
  rw [hedge] at hrow
  obtain rfl : row = "1" := Option.some.inj (hkey.symm.trans hrow)
  obtain ⟨access',hacc',hafter⟩ := hrebuilt _ (upwardGroupsOf_spec _ FirstMatch.Sample.alice)
  have hfull : (resolveAccess (buildToken FirstMatch.Sample.alice
      (upwardGroupsOf (withoutRow Sample.observedEveryone "1") FirstMatch.Sample.aliceSid)
      .localPath none true []) Sample.openToEveryone none []).map (·.rights.value) =
        .ok fileAllAccess := by decide
  have hmask : fileAllAccess = access'.rights.value :=
    Except.ok.inj (hfull.symm.trans (congrArg (Except.map (·.rights.value)) hacc'))
  rw [hafter, ← hmask] at hzero
  exact absurd hzero (by decide)

end Adg.RemovalExactness
