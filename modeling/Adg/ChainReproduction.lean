import Adg.MembershipRoutes
import Adg.RiskReproduction

/-!
# Finding an outcome about memberships again

The rules that walk memberships cite the records along the routes they report
and nothing else of the groups on the way. An outcome for a disabled principal
is found again unless the walk ended at it and had to mark the route; the
others are always found again.
-/

set_option autoImplicit false

namespace Adg.ChainReproduction
open Adg.Fallible Adg.Observation Adg.SecurityIdentifier Adg.CanonicalSids Adg.SortedLists
open Adg.RightsCategories Adg.Evaluation Adg.AccessSubjects Adg.FirstMatch Adg.ResolvedRights
open Adg.CanonicalJson
open Adg.AlertModel Adg.FindingModel Adg.RiskRecords Adg.FactBundles Adg.RiskEvidence
open Adg.RuleSettings Adg.RiskRules Adg.StoredFacts Adg.RiskReproduction Adg.MembershipRoutes
open Adg.ShortestRoutes

/-! ### The trustees of a restricted bundle -/

section Index
variable {f g : RiskFacts} {t : String} {lists : List Acl}

theorem mem_grantedTrustees {lists : List Acl} {t : String} :
    t ∈ grantedTrustees lists ↔ ∃ acl ∈ lists, grantsTo t acl = true := by
  simp only [grantedTrustees, mem_sortedBy, List.mem_dedup, List.mem_map, List.mem_filter,
    List.mem_flatMap, grantsTo, List.any_eq_true, Bool.and_eq_true, decide_eq_true_eq]
  constructor
  · rintro ⟨a,⟨⟨acl,hacl,ha⟩,hgrants⟩,rfl⟩
    exact ⟨acl,hacl,a,ha,hgrants,rfl⟩
  · rintro ⟨acl,hacl,a,ha,hgrants,rfl⟩
    exact ⟨a,⟨⟨acl,hacl,ha⟩,hgrants⟩,rfl⟩

theorem grantedTrustees_strict (lists : List Acl) :
    (grantedTrustees lists).Pairwise fun a b => a < b := by
  apply sortedBy_strict
  simpa using List.nodup_dedup _

theorem grantsTo_restricted {trustees : List String} (acl : Acl) :
    grantsTo t (restricted trustees acl) = true ↔ t ∈ trustees ∧ grantsTo t acl = true := by
  simp only [grantsTo, restricted_aces, List.any_eq_true, List.mem_filter, Bool.and_eq_true,
    decide_eq_true_eq]
  constructor
  · rintro ⟨a,⟨ha,htrustee⟩,hgrants,rfl⟩
    exact ⟨htrustee,a,ha,hgrants,rfl⟩
  · rintro ⟨htrustee,a,ha,hgrants,rfl⟩
    exact ⟨a,⟨ha,htrustee⟩,hgrants,rfl⟩

/-- The trustees that restricted lists grant something, where each of the trustees is granted
something. -/
theorem grantedTrustees_restricted (lists : List Acl) {trustees : List String}
    (hordered : trustees.Pairwise fun a b => a < b)
    (hgrants : ∀ t ∈ trustees, ∃ acl ∈ lists, grantsTo t acl = true) :
    grantedTrustees (lists.map (restricted trustees)) = trustees := by
  have hirrefl : Std.Irrefl fun a b : String => a < b := ⟨fun a => lt_irrefl a⟩
  have hasymm : Std.Antisymm fun a b : String => a < b := ⟨fun _ _ h k => (h.not_gt k).elim⟩
  apply List.Pairwise.eq_of_mem_iff (grantedTrustees_strict _) hordered
  intro t
  rw [mem_grantedTrustees]
  constructor
  · rintro ⟨acl,hacl,hgrant⟩
    obtain ⟨acl',-,rfl⟩ := List.mem_map.mp hacl
    exact ((grantsTo_restricted acl').mp hgrant).1
  · intro ht
    obtain ⟨acl,hacl,hgrant⟩ := hgrants t ht
    exact ⟨_,List.mem_map_of_mem hacl,(grantsTo_restricted acl).mpr ⟨ht,hgrant⟩⟩

/-- A bundle of lists that name one trustee is about that trustee and those lists. -/
theorem index_restricted (hf : Stored f) (hlists : lists.Sublist (acls f)) (hne : lists ≠ [])
    (hgrants : ∀ acl ∈ lists, grantsTo t acl = true) (hacls : acls g = lists.map (restricted [t])) :
    trusteeIndex g = [(t,lists.map (restricted [t]))] := by
  obtain ⟨acl,hacl⟩ := List.exists_mem_of_ne_nil lists hne
  have htrustees : grantedTrustees (lists.map (restricted [t])) = [t] := by
    apply grantedTrustees_restricted _ (List.pairwise_singleton _ t)
    intro t' ht'
    rw [List.mem_singleton.mp ht']
    exact ⟨acl,hacl,hgrants acl hacl⟩
  have hplaced : (acls g).Pairwise fun a b => a.place < b.place := by
    rw [hacls]
    apply List.pairwise_map.mpr
    simpa using (stored_placed hf).sublist hlists
  have hnaming : listsNaming g t = lists.map (restricted [t]) := by
    rw [listsNaming_eq hplaced, hacls]
    apply List.filter_eq_self.mpr
    intro a ha
    obtain ⟨a',ha',rfl⟩ := List.mem_map.mp ha
    exact (grantsTo_restricted a').mpr ⟨List.mem_singleton_self t,hgrants a' ha'⟩
  unfold trusteeIndex
  rw [hacls, htrustees, List.map_singleton, hnaming]

theorem mem_listsNaming (hf : Stored f) {acl : Acl} :
    acl ∈ listsNaming f t ↔ acl ∈ acls f ∧ grantsTo t acl = true := by
  rw [listsNaming_eq (stored_placed hf), List.mem_filter]

theorem listsNaming_sublist (hf : Stored f) : (listsNaming f t).Sublist (acls f) := by
  rw [listsNaming_eq (stored_placed hf)]
  exact List.filter_sublist

theorem listsNaming_ne (hf : Stored f) (ht : t ∈ grantedTrustees (acls f)) :
    listsNaming f t ≠ [] := by
  obtain ⟨acl,hacl,hgrant⟩ := mem_grantedTrustees.mp ht
  exact List.ne_nil_of_mem ((mem_listsNaming hf).mpr ⟨hacl,hgrant⟩)

/-- An entry that names a granted trustee. -/
theorem trustee_entry (hf : Stored f) {acl : Acl} (hacl : acl ∈ acls f)
    (hgrant : grantsTo t acl = true) :
    t ≠ "" ∧ (canonicalizeSid (tailOf t)).isOk = true := by
  obtain ⟨a,ha,hname⟩ := List.any_eq_true.mp hgrant
  simp only [Bool.and_eq_true, decide_eq_true_eq] at hname
  rw [← hname.2]
  exact ⟨a.trustee_ne,hf.trustees a (list_entries hacl ha)⟩

end Index

/-! ### Asking with another SID -/

theorem tokenFor_ok {t sid : String} {token : SubjectToken} (h : tokenFor t sid = .ok token)
    {sid' : String} (hsid : (canonicalizeSid sid').isOk = true) :
    ∃ token', tokenFor t sid' = .ok token' := by
  unfold tokenFor at h ⊢
  split_ifs at h with hkey
  · rw [dif_pos hkey]
    split
    · rename_i e he
      rw [he] at hsid
      cases hsid
    · exact ⟨_,rfl⟩

/-- Whether a list can be asked does not depend on the SID behind the trustee's key. -/
theorem evaluates_again {acl : Acl} {t sid sid' : String} {evaluation : AclEvaluation}
    (h : acl.evaluateFor t sid = .ok evaluation) (hsid : (canonicalizeSid sid').isOk = true) :
    ∃ evaluation', acl.evaluateFor t sid' = .ok evaluation' := by
  obtain ⟨token,htoken,hevaluation⟩ := bind_ok.mp h
  obtain ⟨token',htoken'⟩ := tokenFor_ok htoken hsid
  obtain ⟨hlayer,hentries⟩ := evaluateAcl_layers hevaluation
  obtain ⟨evaluation',hevaluation'⟩ := evaluateAcl_returns token' acl.facts hlayer hentries
  exact ⟨evaluation',bind_ok.mpr ⟨token',htoken',hevaluation'⟩⟩

/-! ### Disabled principals -/

theorem optionInt_least {config : RuleConfig} {name : String} {minimum value : ℤ}
    (h : config.optionInt name minimum = .ok value) : minimum ≤ value := by
  obtain ⟨json,-,h⟩ := bind_ok.mp h
  cases json with
  | whole n =>
    by_cases hn : n < minimum
    · simp only [hn, if_true] at h
      cases h
    · simp only [hn, if_false] at h
      cases h
      exact not_lt.mp hn
  | null => cases h
  | bool => cases h
  | text => cases h
  | array => cases h
  | object => cases h

theorem walkLimit_pos {depth : ℤ} (h : 1 ≤ depth) : 0 < RiskFacts.walkLimit depth := by
  unfold RiskFacts.walkLimit maxWalkDepth
  omega

theorem mem_disabledBelow {f : RiskFacts} {t : String} {depth : ℤ} {below : String × Chain} :
    below ∈ disabledBelow f t depth ↔
      (isDisabled f t = true ∧ below = (t,⟨[t],[],false⟩)) ∨
        ∃ c ∈ f.chainsDown t depth, isDisabled f (lastOf c) = true ∧ below = (lastOf c,c) := by
  unfold disabledBelow
  rw [List.mem_append, List.mem_map]
  simp only [List.mem_filter]
  apply or_congr
  · split_ifs with h
    · simp [h]
    · simp [h]
  · constructor
    · rintro ⟨c,⟨hc,hdisabled⟩,rfl⟩
      exact ⟨c,hc,hdisabled,rfl⟩
    · rintro ⟨c,hc,hdisabled,rfl⟩
      exact ⟨c,⟨hc,hdisabled⟩,rfl⟩

section Disabled
variable {f : RiskFacts} {config : RuleConfig} {o : RuleOutcome} {found : List RuleOutcome}

theorem mem_disabled (h : disabledPrincipalRetainsAccess f config = .ok found) (ho : o ∈ found) :
    ∃ depth t below principal acl, config.optionInt "max_membership_depth" 1 = .ok depth ∧
      t ∈ grantedTrustees (acls f) ∧ below ∈ disabledBelow f t depth ∧
      f.principal below.1 = some principal ∧ acl ∈ listsNaming f t ∧
      disabledOutcome f config t principal below.2 acl = .ok o := by
  obtain ⟨depth,hdepth,h⟩ := bind_ok.mp h
  obtain ⟨entry,hentry,zs,hzs,ho⟩ := mem_flatten_mapM h ho
  obtain ⟨t,ht,rfl⟩ := List.mem_map.mp hentry
  obtain ⟨below,hbelow,ys,hys,ho⟩ := mem_flatten_mapM hzs ho
  cases hprincipal : f.principal below.1 with
  | none =>
    rw [hprincipal] at hys
    cases hys
    cases ho
  | some principal =>
    rw [hprincipal] at hys
    obtain ⟨acl,hacl,hout⟩ := mem_mapM hys ho
    exact ⟨depth,t,below,principal,acl,hdepth,ht,hbelow,hprincipal,hacl,hout⟩

theorem lastOf_keys {c : Chain} {t : String} {steps : List String} (h : c.keys = t :: steps) :
    lastOf c = RiskFacts.endOf t steps := by
  unfold lastOf
  rw [h, List.getLastD_eq_getLast?]
  by_cases hsteps : steps = []
  · rw [hsteps]
    rfl
  · obtain ⟨other,rest,rfl⟩ := List.exists_cons_of_ne_nil hsteps
    rw [List.getLast?_cons_cons, @endOf_getLast t _ (List.cons_ne_nil other rest)]
    rfl

/-- A route that ends where a longer one does is that route. -/
theorem prefix_end {t : String} {s steps : List String} (h : s <+: steps) (hs : s ≠ [])
    (hnodup : (t :: steps).Nodup) (hend : RiskFacts.endOf t s = RiskFacts.endOf t steps) :
    s = steps := by
  obtain ⟨rest,rfl⟩ := h
  by_contra hshort
  have hrest : rest ≠ [] := by
    rintro rfl
    exact hshort (List.append_nil s).symm
  have hlater : RiskFacts.endOf t (s ++ rest) ∈ rest := by
    have hlast := @endOf_getLast t _ (List.append_ne_nil_of_right_ne_nil s hrest)
    rw [List.getLast?_append_of_ne_nil _ hrest] at hlast
    exact List.mem_of_getLast? hlast
  have hsteps := List.nodup_append.mp (List.nodup_cons.mp hnodup).2
  rw [← hend] at hlater
  exact hsteps.2.2 _ (endOf_mem hs) _ hlater rfl

variable (hf : Stored f)
include hf

theorem membership_keys : ∀ k m, f.membership k = some m → m.groupKey = k :=
  fun _ _ h => membership_key hf h

/-- A bundle of the records along a route: it holds each of them, and none of the end. -/
theorem along_cited (lists : List Acl) (trustees : List String) (principals : List PrincipalFacts)
    (settings : List EvidenceItem) {t : String} {steps : List String}
    (hd : f.Descends t [t] steps) :
    (((f.edgesAlong t steps).map (·.groupKey)).Nodup) ∧
      Follows f (citation lists trustees principals (f.edgesAlong t steps) settings).bundle t
        steps ∧
      (citation lists trustees principals (f.edgesAlong t steps) settings).bundle.directMembers
        (RiskFacts.endOf t steps) = [] := by
  have hkeys := edgesAlong_keys (membership_keys hf) hd
  have hnodup : (t :: steps).Nodup := descends_nodup (List.nodup_singleton t) hd
  have hapart : ((f.edgesAlong t steps).map (·.groupKey)).Nodup := by
    rw [hkeys]
    exact (List.dropLast_sublist _).nodup hnodup
  refine ⟨hapart,?_,?_⟩
  · apply follows_of_edges _ (membership_keys hf) hd (fun e he => he)
    intro k m hm
    exact (membership_cited hapart).mpr hm
  · have hnone :
        (citation lists trustees principals (f.edgesAlong t steps) settings).bundle.membership
        (RiskFacts.endOf t steps) = none := by
      apply Option.eq_none_iff_forall_ne_some.mpr
      intro m hm
      obtain ⟨hmem,hkey⟩ := (membership_cited hapart).mp hm
      have hgroup : RiskFacts.endOf t steps ∈ (t :: steps).dropLast := by
        rw [← hkeys, ← hkey]
        exact List.mem_map_of_mem hmem
      apply not_mem_dropLast hnodup _ hgroup
      by_cases hsteps : steps = []
      · rw [hsteps]
        rfl
      · obtain ⟨other,rest,rfl⟩ := List.exists_cons_of_ne_nil hsteps
        rw [List.getLast?_cons_cons]
        exact endOf_getLast (List.cons_ne_nil other rest)
    unfold RiskFacts.directMembers
    rw [hnone]
    rfl

/-- Below the trustee of what was cited lies the principal that was reported and no other, along
the same records; the route is marked where a record on it was cut short and only there. -/
theorem disabledBelow_again (acl : Acl) {t : String} {depth : ℤ} {principal : PrincipalFacts}
    {chain : Chain} (hdepth : 1 ≤ depth)
    (hbelow : (principal.key,chain) ∈ disabledBelow f t depth)
    (hprincipal : f.principal principal.key = some principal) :
    (chain.edges.map (·.groupKey)).Nodup ∧ ∃ again : Chain,
      again.edges = chain.edges ∧ again.truncated = f.shortAlong t (chain.keys.drop 1) ∧
      disabledBelow (citation [acl] [t] [principal] chain.edges []).bundle t depth ≠ [] ∧
      ∀ below ∈ disabledBelow (citation [acl] [t] [principal] chain.edges []).bundle t depth,
        below = (principal.key,again) := by
  have hlimit := walkLimit_pos hdepth
  have hdescribed : ∀ key q,
      (citation [acl] [t] [principal] chain.edges []).bundle.principal key = some q ↔
        q = principal ∧ principal.key = key := by
    intro key q
    have hnodup : ([principal].map (·.key)).Nodup := List.nodup_singleton _
    rw [principal_cited hnodup, List.mem_singleton]
    constructor
    · rintro ⟨rfl,hkey⟩
      exact ⟨rfl,hkey⟩
    · rintro ⟨rfl,hkey⟩
      exact ⟨rfl,hkey⟩
  have hdisabled : isDisabled f principal.key = true → ∀ key,
      isDisabled (citation [acl] [t] [principal] chain.edges []).bundle key = true ↔
        principal.key = key := by
    intro hoff key
    unfold isDisabled at hoff ⊢
    rw [hprincipal] at hoff
    constructor
    · intro hkey
      cases hq : (citation [acl] [t] [principal] chain.edges []).bundle.principal key with
      | none =>
        rw [hq] at hkey
        cases hkey
      | some q => exact ((hdescribed key q).mp hq).2
    · intro hkey
      rw [(hdescribed key principal).mpr ⟨rfl,hkey⟩]
      exact hoff
  rcases mem_disabledBelow.mp hbelow with ⟨hoff,hown⟩ | ⟨c,hc,hoff,hown⟩
  · obtain ⟨hkey,rfl⟩ := Prod.mk.inj hown
    rw [← hkey] at hoff
    obtain ⟨-,-,hnone⟩ := along_cited hf [acl] [t] [principal] []
      (show f.Descends t [t] [] from trivial)
    have hnone : (citation [acl] [t] [principal] [] []).bundle.directMembers t = [] := hnone
    have hown' : (principal.key,(⟨[t],[],false⟩ : Chain)) ∈
        disabledBelow (citation [acl] [t] [principal] [] []).bundle t depth := by
      apply mem_disabledBelow.mpr
      left
      exact ⟨(hdisabled hoff t).mpr hkey,by rw [hkey]⟩
    refine ⟨List.nodup_nil,⟨[t],[],false⟩,rfl,rfl,List.ne_nil_of_mem hown',?_⟩
    intro below hbelow'
    rcases mem_disabledBelow.mp hbelow' with ⟨-,rfl⟩ | ⟨c,hc,-,-⟩
    · rw [hkey]
    · exfalso
      obtain ⟨steps,hsteps,-,-,hcases⟩ := mem_chainsDown.mp hc
      have hne : steps ≠ [] := by
        rintro rfl
        rcases hcases with ⟨hne,-,-⟩ | ⟨hlength,-,-⟩
        · exact hne rfl
        · rw [← hlength] at hlimit
          exact lt_irrefl 0 hlimit
      obtain ⟨other,rest,rfl⟩ := List.exists_cons_of_ne_nil hne
      have hother := hsteps.1
      have hnone' := hnone ▸ hother
      cases hnone'
  · obtain ⟨hkey,rfl⟩ := Prod.mk.inj hown
    rw [← hkey] at hoff
    obtain ⟨steps,hd,hkeys,hedges,hcases⟩ := mem_chainsDown.mp hc
    have hne : steps ≠ [] := by
      rintro rfl
      rcases hcases with ⟨hne,-,-⟩ | ⟨hlength,-,-⟩
      · exact hne rfl
      · rw [← hlength] at hlimit
        exact lt_irrefl 0 hlimit
    have hlength : steps.length ≤ RiskFacts.walkLimit depth := by
      rcases hcases with ⟨-,hlength,-⟩ | ⟨hlength,-,-⟩
      · exact hlength
      · exact hlength.le
    have hend : principal.key = RiskFacts.endOf t steps := hkey.trans (lastOf_keys hkeys)
    have hnodup : (t :: steps).Nodup := descends_nodup (List.nodup_singleton t) hd
    rw [hedges] at hdisabled ⊢
    obtain ⟨hapart,hfollows,hnone⟩ := along_cited hf [acl] [t] [principal] [] hd
    obtain ⟨hthere,honly⟩ := below_follows hfollows hnone hd hne hlength
    have hroute : (principal.key,chainAlong f t steps) ∈ disabledBelow
        (citation [acl] [t] [principal] (f.edgesAlong t steps) []).bundle t depth := by
      apply mem_disabledBelow.mpr
      right
      have hlast : lastOf (chainAlong f t steps) = principal.key :=
        (lastOf_keys rfl).trans hend.symm
      exact ⟨_,hthere,(hdisabled hoff _).mpr hlast.symm,by rw [hlast]⟩
    refine ⟨hapart,chainAlong f t steps,rfl,by rw [hkeys]; rfl,List.ne_nil_of_mem hroute,?_⟩
    intro below hbelow'
    rcases mem_disabledBelow.mp hbelow' with ⟨hown,-⟩ | ⟨c',hc',hlast,rfl⟩
    · exfalso
      have hself := (hdisabled hoff t).mp hown
      rw [hend] at hself
      exact (List.nodup_cons.mp hnodup).1 (hself ▸ endOf_mem hne)
    · obtain ⟨s,hsne,hstart,hskeys,hwhole⟩ := honly c' hc'
      have hkey' := (hdisabled hoff _).mp hlast
      rw [lastOf_keys hskeys, hend] at hkey'
      have hsame : s = steps := prefix_end hstart hsne hnodup hkey'.symm
      rw [hwhole hsame, lastOf_keys rfl, hend]

/-- What the rule reports over what one of its outcomes cites: that outcome, marked where a record
on its route was cut short. -/
theorem disabled_reports (casefold : String → String) {acl : Acl} {t : String} {depth : ℤ}
    {principal : PrincipalFacts} {chain : Chain}
    (hdepth : config.optionInt "max_membership_depth" 1 = .ok depth)
    (hbelow : (principal.key,chain) ∈ disabledBelow f t depth)
    (hprincipal : f.principal principal.key = some principal) (hacl : acl ∈ listsNaming f t)
    (hout : disabledOutcome f config t principal chain acl = .ok o) :
    ∃ g, rebuildFacts o.evidence = some g ∧ ∃ again,
      evaluateRule casefold g config .disabledPrincipalRetainsAccess = .ok again ∧ again ≠ [] ∧
      ∀ a ∈ again, a.subject = o.subject ∧ a.band = o.band ∧ a.evidence = o.evidence ∧
        a.qualifiers = acl.qualifiers ∪
          if f.shortAlong t (chain.keys.drop 1) then {FactQualifier.membershipTruncated} else ∅ := by
  obtain ⟨hapart,route,hedges,hmarked,hthere,honly⟩ :=
    disabledBelow_again hf acl (optionInt_least hdepth) hbelow hprincipal
  obtain ⟨hmem,hgrant⟩ := (mem_listsNaming hf).mp hacl
  obtain ⟨hne,htail⟩ := trustee_entry hf hmem hgrant
  obtain ⟨evaluation,hevaluation,hout⟩ := bind_ok.mp hout
  cases hout
  have hlists : [acl].Sublist (acls f) := List.singleton_sublist.mpr hmem
  have hrebuilt : rebuildFacts (Evidence.of (acl.container ::
      (acl.cite t ++ [forPrincipal principal] ++ chain.edges.map forMembership))) =
      some (citation [acl] [t] [principal] chain.edges []).bundle := by
    refine rebuilt hlists hf ?_ hapart ?_ ?_ ?_
    · exact List.nodup_singleton _
    · exact List.nodup_nil
    · simp
    · intro i
      simp [eq_comm]
  refine ⟨_,hrebuilt,?_⟩
  generalize hg : (citation [acl] [t] [principal] chain.edges []).bundle = g at hthere honly
  have hacls : acls g = [acl].map (restricted [t]) := by
    rw [← hg]
    exact acls_cited hlists hf
  have hindex : trusteeIndex g = [(t,[restricted [t] acl])] :=
    index_restricted hf hlists (List.cons_ne_nil _ _) (fun a ha => by
      rw [List.mem_singleton.mp ha]
      exact hgrant) hacls
  have hdescribed : g.principal principal.key = some principal := by
    rw [← hg]
    apply (principal_cited _).mpr ⟨List.mem_singleton_self _,rfl⟩
    exact List.nodup_singleton _
  have hsid : ∃ evaluation', acl.evaluateFor t (sidOf g t) = .ok evaluation' := by
    by_cases hself : principal.key = t
    · rw [hself] at hdescribed hprincipal
      have hsame : sidOf g t = sidOf f t := by
        unfold sidOf
        rw [hdescribed, hprincipal]
      rw [hsame]
      exact ⟨evaluation,hevaluation⟩
    · have hnone : g.principal t = none := by
        apply Option.eq_none_iff_forall_ne_some.mpr
        intro q hq
        rw [← hg] at hq
        have hnodup : ([principal].map (·.key)).Nodup := List.nodup_singleton _
        obtain ⟨hq,hkey⟩ := (principal_cited hnodup).mp hq
        rw [List.mem_singleton.mp hq] at hkey
        exact hself hkey
      have htailed : sidOf g t = tailOf t := by
        unfold sidOf
        rw [hnone]
        rfl
      rw [htailed]
      exact evaluates_again hevaluation htail
  obtain ⟨evaluation',hevaluation'⟩ := hsid
  have hone : disabledOutcome g config t principal route (restricted [t] acl) =
      .ok (outcomeOf (acl.subject principal.key t) .default acl.container
        (acl.cite t ++ [forPrincipal principal] ++ chain.edges.map forMembership)
        (acl.qualifiers ∪ cutShort route)
        [("principal_label",.text principal.label), ("principal_sid",.text principal.sid),
          ("trustee_key",.text t), ("depth",.whole route.depth),
          ("chain",.array (route.keys.map Json.text)), ("layer",.text acl.layer.value),
          ("rights_label",.text (summarize evaluation'.rights).label), ruleVersion config]) := by
    apply bind_ok.mpr
    refine ⟨evaluation',?_,?_⟩
    · rw [restricted_evaluates (List.mem_singleton_self t)]
      exact hevaluation'
    · simp only [restricted_cites (List.mem_singleton_self t), restricted_subject,
        restricted_container, restricted_qualifiers, restricted_layer, hedges]
      rfl
  generalize hreported : outcomeOf (acl.subject principal.key t) .default acl.container
    (acl.cite t ++ [forPrincipal principal] ++ chain.edges.map forMembership)
    (acl.qualifiers ∪ cutShort route) _ = reported at hone
  refine ⟨((disabledBelow g t depth).map fun _ => [reported]).flatten,?_,?_,?_⟩
  · apply bind_ok.mpr
    refine ⟨depth,hdepth,map_ok.mpr ⟨[((disabledBelow g t depth).map fun _ => [reported]).flatten],
      ?_,List.append_nil _⟩⟩
    rw [hindex, List.mapM_cons, List.mapM_nil]
    apply bind_ok.mpr
    refine ⟨_,map_ok.mpr ⟨_,mapM_of_ok (g := fun _ => [reported]) ?_,rfl⟩,rfl⟩
    intro below hbelow'
    rw [honly below hbelow']
    simp only [hdescribed]
    rw [List.mapM_cons, List.mapM_nil, hone]
    rfl
  · obtain ⟨below,hbelow'⟩ := List.exists_mem_of_ne_nil _ hthere
    apply List.ne_nil_of_mem (a := reported)
    exact List.mem_flatten.mpr ⟨[reported],List.mem_map.mpr ⟨below,hbelow',rfl⟩,
      List.mem_singleton_self _⟩
  · intro a ha
    obtain ⟨l,hl,ha⟩ := List.mem_flatten.mp ha
    obtain ⟨below,-,rfl⟩ := List.mem_map.mp hl
    rw [List.mem_singleton.mp ha, ← hreported]
    refine ⟨rfl,rfl,rfl,?_⟩
    show acl.qualifiers ∪ cutShort route = _
    unfold cutShort
    rw [hmarked]

end Disabled

/-! ### Lists that name a trustee -/

theorem citeLists_restricted (lists : List Acl) (t : String) :
    citeLists (lists.map (restricted [t])) t = citeLists lists t := by
  unfold citeLists
  rw [List.map_map, List.flatMap_map]
  congr 1
  · apply List.map_congr_left
    intro acl _
    exact restricted_container [t] acl
  · congr 1
    funext acl
    exact restricted_cites (List.mem_singleton_self t)

theorem keys_restricted (lists : List Acl) (trustees : List String) :
    (lists.map (restricted trustees)).map (fun acl => Json.text acl.key) =
      lists.map fun acl => Json.text acl.key := by
  rw [List.map_map]
  apply List.map_congr_left
  intro acl _
  exact congrArg Json.text (restricted_key trustees acl)

theorem mem_citeLists {lists : List Acl} {t : String} {i : EvidenceItem} :
    i ∈ citeLists lists t ↔ (∃ acl ∈ lists, i = acl.container) ∨ ∃ acl ∈ lists, i ∈ acl.cite t := by
  unfold citeLists
  rw [List.mem_append, List.mem_map, List.mem_flatMap]
  simp only [eq_comm]

/-- What two bundles say of one principal, where one cites what the other says. -/
theorem principal_kept {f : RiskFacts} (hf : Stored f) (lists : List Acl) (trustees : List String)
    (memberships : List MembershipFacts) (settings : List EvidenceItem) (t : String) :
    ((f.principal t).toList.map (·.key)).Nodup ∧
      (citation lists trustees (f.principal t).toList memberships settings).bundle.principal t =
        f.principal t := by
  have hnodup : ((f.principal t).toList.map (·.key)).Nodup := by
    cases f.principal t <;> simp
  refine ⟨hnodup,?_⟩
  apply Option.ext
  intro p
  rw [principal_cited hnodup, Option.mem_toList]
  constructor
  · exact fun hp => hp.1
  · exact fun hp => ⟨hp,principal_key hf hp⟩

/-! ### Deep nesting -/

section Deep
variable {f : RiskFacts} {config : RuleConfig} {o : RuleOutcome} {found : List RuleOutcome}

/-- How far down a chain leads, and where. -/
def reach (c : Chain) : ℕ ×ₗ List String := toLex (c.depth,c.keys)

theorem deeper_iff (c best : Chain) : Deeper c best ↔ reach best < reach c := by
  unfold Deeper reach
  rw [Prod.Lex.toLex_lt_toLex]

theorem deepest_best (f : RiskFacts) (t : String) (limit : ℤ) :
    deepest f t limit = firstBest Deeper (f.chainsDown t limit) := by
  unfold deepest firstBest
  congr 1
  funext best c
  cases best <;> rfl

/-- The deepest chain is a route with no mark but that of the records on it. -/
theorem deepest_along {t : String} {limit : ℤ} {chain : Chain}
    (h : deepest f t limit = some chain) (hdeep : 0 < chain.depth) :
    ∃ steps, steps ≠ [] ∧ f.Descends t [t] steps ∧
      steps.length ≤ RiskFacts.walkLimit limit ∧ chain = chainAlong f t steps := by
  rw [deepest_best] at h
  obtain ⟨hfirst,-⟩ := firstBest_find deeper_iff h
  apply first_along
  · intro hkeys
    unfold Chain.depth at hdeep
    rw [hkeys] at hdeep
    exact absurd hdeep (by simp)
  · rw [← hfirst]
    congr 1
    funext a
    apply decide_eq_decide.mpr
    constructor
    · intro hkeys
      unfold reach Chain.depth
      rw [hkeys]
    · intro hreach
      exact congrArg (fun r => (ofLex r).2) hreach

/-- Over the records along a route the route is the deepest. -/
theorem deepest_follows {g : RiskFacts} {t : String} {steps : List String} {limit : ℤ}
    (h : Follows f g t steps) (hend : g.directMembers (RiskFacts.endOf t steps) = [])
    (hd : f.Descends t [t] steps) (hne : steps ≠ [])
    (hlength : steps.length ≤ RiskFacts.walkLimit limit) :
    deepest g t limit = some (chainAlong f t steps) := by
  obtain ⟨hthere,honly⟩ := below_follows h hend hd hne hlength
  rw [deepest_best]
  cases hbest : firstBest Deeper (g.chainsDown t limit) with
  | none =>
    rw [(firstBest_none deeper_iff).mp hbest] at hthere
    cases hthere
  | some c =>
    obtain ⟨hfirst,hmost⟩ := firstBest_find deeper_iff hbest
    obtain ⟨s,-,hstart,hkeys,hwhole⟩ := honly c (List.mem_of_find?_eq_some hfirst)
    have hdepth : (chainAlong f t steps).depth ≤ c.depth := by
      rcases Prod.Lex.le_iff.mp (hmost _ hthere) with hlt | heq
      · exact hlt.le
      · exact heq.1.le
    have hlong : steps.length ≤ s.length := by
      unfold Chain.depth at hdepth
      rw [hkeys] at hdepth
      simpa [chainAlong] using hdepth
    rw [hwhole (hstart.eq_of_length_le hlong)]

theorem qualifiers_follow {g : RiskFacts} {t : String} {steps : List String}
    (h : Follows f g t steps) (hne : steps ≠ []) (hprincipal : g.principal t = f.principal t) :
    g.qualifiersFor [t] = f.qualifiersFor [t] := by
  obtain ⟨other,rest,rfl⟩ := List.exists_cons_of_ne_nil hne
  obtain ⟨⟨record,hrecord,hheld⟩,-⟩ := h
  unfold RiskFacts.qualifiersFor
  simp only [List.any_cons, List.any_nil, hprincipal, hrecord, hheld]
  rfl

/-- The outcome of the rule for a trustee, its lists and its deepest chain. -/
def deepFinding (f : RiskFacts) (config : RuleConfig) (maximum : ℤ) (t : String) (hkey : t ≠ "")
    (lists : List Acl) (chain : Chain) (first : EvidenceItem) (rest : List EvidenceItem) :
    RuleOutcome :=
  outcomeOf ⟨none,none,some t,none,given_key hkey⟩ .default first
    (rest ++ (f.principal t).toList.map forPrincipal ++ chain.edges.map forMembership)
    (f.qualifiersFor [t] ∪ cutShort chain)
    [("depth",.whole chain.depth), ("max_depth",.whole maximum),
      ("chain",.array (chain.keys.map Json.text)),
      ("trustee_label",textOrNull ((f.principal t).map (·.label))),
      ("resources",.array (lists.map fun acl => Json.text acl.key)), ruleVersion config]

theorem deepOutcome_some {maximum : ℤ} {t : String} {lists : List Acl} :
    deepOutcome f config maximum t lists = some o ↔
      ∃ chain first rest, ∃ hkey : t ≠ "", deepest f t (maximum+1) = some chain ∧
        maximum < chain.depth ∧ citeLists lists t = first :: rest ∧
        o = deepFinding f config maximum t hkey lists chain first rest := by
  unfold deepOutcome
  cases hdeepest : deepest f t (maximum+1) with
  | none => simp
  | some chain =>
    by_cases hdeep : (chain.depth : ℤ) ≤ maximum
    · simp only [hdeep, if_true]
      constructor
      · intro h
        cases h
      · rintro ⟨_,_,_,_,hchain,hlt,-⟩
        cases hchain
        omega
    · by_cases hkey : t = ""
      · simp [hdeep, hkey]
      · cases hcited : citeLists lists t with
        | nil => simp [hdeep, hkey]
        | cons first rest =>
          simp only [hdeep, hkey, if_false, dif_neg, not_false_eq_true]
          constructor
          · intro h
            cases h
            exact ⟨chain,first,rest,hkey,rfl,by omega,rfl,rfl⟩
          · rintro ⟨_,_,_,_,hchain,-,hitems,rfl⟩
            cases hchain
            cases hitems
            rfl

variable (hf : Stored f)
include hf

/-- `DeepGroupNesting` finds its outcomes again. -/
theorem deep_again (casefold : String → String) (h : deepGroupNesting f config = .ok found)
    (ho : o ∈ found) : FoundAgain casefold config .deepGroupNesting o := by
  obtain ⟨maximum,hmaximum,h⟩ := bind_ok.mp h
  cases h
  obtain ⟨entry,hentry,hout⟩ := List.mem_filterMap.mp ho
  obtain ⟨t,ht,rfl⟩ := List.mem_map.mp hentry
  have hleast := optionInt_least hmaximum
  obtain ⟨chain,first,rest,hkey,hdeepest,hdeep,hcited,rfl⟩ := deepOutcome_some.mp hout
  obtain ⟨steps,hne,hd,hlength,rfl⟩ := deepest_along hdeepest (by omega)
  obtain ⟨hnodup,hprincipal⟩ := principal_kept hf (listsNaming f t) [t]
    (f.edgesAlong t steps) [] t
  obtain ⟨hapart,hfollows,hend⟩ := along_cited hf (listsNaming f t) [t] (f.principal t).toList [] hd
  have hlists := listsNaming_sublist hf (t := t)
  have hrebuilt : rebuildFacts (deepFinding f config maximum t hkey (listsNaming f t)
      (chainAlong f t steps) first rest).evidence = some (citation (listsNaming f t) [t]
        (f.principal t).toList (f.edgesAlong t steps) []).bundle := by
    refine rebuilt hlists hf hnodup hapart ?_ ?_ ?_
    · exact List.nodup_nil
    · simp
    · intro i
      rw [← List.cons_append, ← List.cons_append, ← hcited, List.mem_append, List.mem_append,
        mem_citeLists]
      simp [chainAlong, or_assoc, eq_comm]
  have hacls : acls (citation (listsNaming f t) [t] (f.principal t).toList (f.edgesAlong t steps)
      []).bundle = (listsNaming f t).map (restricted [t]) := acls_cited hlists hf
  have hindex := index_restricted hf hlists (listsNaming_ne hf ht)
    (fun acl hacl => ((mem_listsNaming hf).mp hacl).2) hacls
  apply foundAgain_alone hrebuilt
  apply bind_ok.mpr
  refine ⟨maximum,hmaximum,?_⟩
  rw [hindex]
  have hqualifiers := qualifiers_follow hfollows hne hprincipal
  have hsame : deepOutcome (citation (listsNaming f t) [t] (f.principal t).toList
      (f.edgesAlong t steps) []).bundle config maximum t ((listsNaming f t).map (restricted [t])) =
      some (deepFinding f config maximum t hkey (listsNaming f t) (chainAlong f t steps) first
        rest) := by
    apply deepOutcome_some.mpr
    refine ⟨chainAlong f t steps,first,rest,hkey,deepest_follows hfollows hend hd hne hlength,hdeep,
      (citeLists_restricted _ t).trans hcited,?_⟩
    unfold deepFinding
    rw [hprincipal, hqualifiers, keys_restricted]
  rw [List.filterMap_cons, hsame]
  rfl

end Deep

/-! ### Empty groups -/

section Empty
variable {f : RiskFacts} {config : RuleConfig} {o : RuleOutcome} {found : List RuleOutcome}

/-- The outcome of the rule for a group, its record and its lists. -/
def emptyFinding (config : RuleConfig) (t : String) (hkey : t ≠ "") (lists : List Acl)
    (principal : PrincipalFacts) (membership : MembershipFacts) (first : EvidenceItem)
    (rest : List EvidenceItem) : RuleOutcome :=
  outcomeOf ⟨none,none,some t,none,given_key hkey⟩ .default first
    (rest ++ [forPrincipal principal, forMembership membership]) ∅
    [("group_label",.text principal.label), ("group_sid",.text principal.sid),
      ("resources",.array (lists.map fun acl => Json.text acl.key)), ruleVersion config]

theorem emptyOutcome_some {t : String} {lists : List Acl} :
    emptyOutcome f config t lists = some o ↔
      ∃ membership principal first rest, ∃ hkey : t ≠ "", f.membership t = some membership ∧
        f.principal t = some principal ∧ (membership.enumerated = some true ∧
          membership.memberKeys = [] ∧ principal.isGroup = true) ∧
        citeLists lists t = first :: rest ∧
        o = emptyFinding config t hkey lists principal membership first rest := by
  unfold emptyOutcome
  cases hmembership : f.membership t with
  | none => simp
  | some membership =>
    cases hprincipal : f.principal t with
    | none => simp
    | some principal =>
      by_cases hempty : membership.enumerated = some true ∧ membership.memberKeys = [] ∧
          principal.isGroup = true
      · have hkept : ¬ (membership.enumerated ≠ some true || !membership.memberKeys.isEmpty ||
            !principal.isGroup) = true := by
          simp [hempty.1, hempty.2.1, hempty.2.2]
        show (if (membership.enumerated ≠ some true || !membership.memberKeys.isEmpty ||
          !principal.isGroup) = true then none else _) = some o ↔ _
        rw [if_neg hkept]
        by_cases hkey : t = ""
        · simp [hkey]
        · rw [dif_neg hkey]
          cases hcited : citeLists lists t with
          | nil => simp
          | cons first rest =>
            constructor
            · intro h
              cases h
              exact ⟨membership,principal,first,rest,hkey,rfl,rfl,hempty,rfl,rfl⟩
            · rintro ⟨_,_,_,_,_,hm,hp,-,hitems,rfl⟩
              cases hm
              cases hp
              cases hitems
              rfl
      · have hskip : (membership.enumerated ≠ some true || !membership.memberKeys.isEmpty ||
            !principal.isGroup) = true := by
          by_contra hkept
          apply hempty
          simpa [List.isEmpty_iff, and_assoc] using hkept
        simp only [hskip, if_true]
        constructor
        · intro h
          cases h
        · rintro ⟨_,_,_,_,_,hm,hp,hthen,-,-⟩
          cases hm
          cases hp
          exact absurd hthen hempty

variable (hf : Stored f)
include hf

/-- `EmptyPermissionBearingGroup` finds its outcomes again. -/
theorem empty_again (casefold : String → String)
    (h : emptyPermissionBearingGroup f config = .ok found) (ho : o ∈ found) :
    FoundAgain casefold config .emptyPermissionBearingGroup o := by
  cases h
  obtain ⟨entry,hentry,hout⟩ := List.mem_filterMap.mp ho
  obtain ⟨t,ht,rfl⟩ := List.mem_map.mp hentry
  obtain ⟨membership,principal,first,rest,hkey,hmembership,hprincipal,hempty,hcited,rfl⟩ :=
    emptyOutcome_some.mp hout
  have hlists := listsNaming_sublist hf (t := t)
  have hprincipals : ([principal].map (·.key)).Nodup := List.nodup_singleton _
  have hmemberships : ([membership].map (·.groupKey)).Nodup := List.nodup_singleton _
  have hrebuilt : rebuildFacts (emptyFinding config t hkey (listsNaming f t) principal membership
      first rest).evidence =
      some (citation (listsNaming f t) [t] [principal] [membership] []).bundle := by
    refine rebuilt hlists hf hprincipals hmemberships ?_ ?_ ?_
    · exact List.nodup_nil
    · simp
    · intro i
      rw [← List.cons_append, ← hcited, List.mem_append, mem_citeLists]
      simp [or_assoc]
  have hacls : acls (citation (listsNaming f t) [t] [principal] [membership] []).bundle =
      (listsNaming f t).map (restricted [t]) := acls_cited hlists hf
  have hindex := index_restricted hf hlists (listsNaming_ne hf ht)
    (fun acl hacl => ((mem_listsNaming hf).mp hacl).2) hacls
  apply foundAgain_alone hrebuilt
  have hsame : emptyOutcome (citation (listsNaming f t) [t] [principal] [membership] []).bundle
      config t ((listsNaming f t).map (restricted [t])) =
      some (emptyFinding config t hkey (listsNaming f t) principal membership first rest) := by
    apply emptyOutcome_some.mpr
    refine ⟨membership,principal,first,rest,hkey,?_,?_,hempty,
      (citeLists_restricted _ t).trans hcited,?_⟩
    · exact (membership_cited hmemberships).mpr ⟨List.mem_singleton_self _,
        membership_key hf hmembership⟩
    · exact (principal_cited hprincipals).mpr ⟨List.mem_singleton_self _,
        principal_key hf hprincipal⟩
    · unfold emptyFinding
      rw [keys_restricted]
  show Except.ok _ = _
  rw [hindex, List.filterMap_cons, hsame]
  rfl

end Empty

/-! ### Redundant paths -/

theorem reaches_of_descends {f : RiskFacts} {node : String} {visited steps : List String}
    (h : f.Descends node visited steps) :
    reaches f.directMembers (RiskFacts.endOf node steps) steps.length node = true := by
  induction steps generalizing node visited with
  | nil => simp [ShortestRoutes.reaches, RiskFacts.endOf]
  | cons other rest ih => exact reaches_step h.1 (ih h.2.2)

theorem firstShortest_best (chains : List Chain) :
    firstShortest chains = firstBest (fun a b => a.depth < b.depth) chains := by
  unfold firstShortest firstBest
  congr 1
  funext best c
  cases best <;> rfl

theorem shorter_iff (a b : Chain) :
    a.depth < b.depth ↔ OrderDual.toDual b.depth < OrderDual.toDual a.depth := Iff.rfl

section Shortest
variable {f : RiskFacts} {t member : String} {depth : ℤ}

/-- The chain that is kept for a trustee takes the nearest member at every group. -/
theorem shortest_along (hdepth : 1 ≤ depth) {c : Chain}
    (h : firstShortest ((chainsToMembers f depth t).filter fun c => lastOf c = member) = some c) :
    describedGroup f member = false ∧ ∃ d, Nearest f.directMembers member (d+1) t ∧
      c = chainAlong f t (greedy f.directMembers member (d+1) t) ∧
      f.Descends t [t] (greedy f.directMembers member (d+1) t) ∧
      (greedy f.directMembers member (d+1) t).length ≤ RiskFacts.walkLimit depth ∧
      RiskFacts.endOf t (greedy f.directMembers member (d+1) t) = member := by
  rw [firstShortest_best] at h
  obtain ⟨hfirst,hleast⟩ := firstBest_find shorter_iff h
  obtain ⟨hc,hlast⟩ := List.mem_filter.mp (List.mem_of_find?_eq_some hfirst)
  obtain ⟨hc,hgroup⟩ := List.mem_filter.mp hc
  have hlast : lastOf c = member := of_decide_eq_true hlast
  have hgroup : describedGroup f member = false := by
    rw [← hlast]
    simpa using hgroup
  obtain ⟨steps,hd,hkeys,-,hcases⟩ := mem_chainsDown.mp hc
  have hlimit := walkLimit_pos hdepth
  have hne : steps ≠ [] := by
    rintro rfl
    rcases hcases with ⟨hne,-,-⟩ | ⟨hlength,-,-⟩
    · exact hne rfl
    · rw [← hlength] at hlimit
      exact lt_irrefl 0 hlimit
  have hlength : steps.length ≤ RiskFacts.walkLimit depth := by
    rcases hcases with ⟨-,hlength,-⟩ | ⟨hlength,-,-⟩
    · exact hlength
    · exact hlength.le
  have hend : RiskFacts.endOf t steps = member := (lastOf_keys hkeys).symm.trans hlast
  have hreach := reaches_of_descends hd
  rw [hend] at hreach
  obtain ⟨d,hd',hnearest⟩ := nearest_of_reaches hreach
  have hother : t ≠ member := by
    rintro rfl
    have hnodup := descends_nodup (List.nodup_singleton t) hd
    exact (List.nodup_cons.mp hnodup).1 (hend ▸ endOf_mem hne)
  obtain ⟨d,rfl⟩ : ∃ e, d = e+1 := by
    cases d with
    | zero =>
      have hself := hnearest.1
      simp [ShortestRoutes.reaches, hother] at hself
    | succ d => exact ⟨d,rfl⟩
  have hpassed : ∀ u ∈ [t], ∀ k ≤ d, reaches f.directMembers member k u = false := by
    intro u hu k hk
    rw [List.mem_singleton.mp hu]
    exact hnearest.2 k (by omega)
  have hroute := find_routes hnearest (hd'.trans hlength) hpassed
  have hfound := @chainsDown_find f t depth
    (fun s => s.length = d+1 && s.getLast? = some member) (by simp)
  rw [hroute, Option.map_some] at hfound
  have hlong := greedy_length hnearest
  obtain ⟨nearest,hnear⟩ : ∃ s, s = greedy f.directMembers member (d+1) t := ⟨_,rfl⟩
  rw [← hnear] at hfound hlong
  have hthere := List.mem_of_find?_eq_some hfound
  have htest := List.find?_some hfound
  have hnonempty : nearest ≠ [] := by
    rintro rfl
    simp at hlong
  have hnearend : RiskFacts.endOf t nearest = member := by
    have hgiven := @endOf_getLast t _ hnonempty
    simp only [chainAlong, List.drop_succ_cons, List.drop_zero, Bool.and_eq_true,
      decide_eq_true_eq] at htest
    rw [htest.2] at hgiven
    exact (Option.some.inj hgiven).symm
  have hdepths : c.depth = d+1 := by
    have hin : chainAlong f t nearest ∈
        (chainsToMembers f depth t).filter fun c => lastOf c = member := by
      have hlastnear : lastOf (chainAlong f t nearest) = member := (lastOf_keys rfl).trans hnearend
      unfold chainsToMembers
      rw [List.mem_filter, List.mem_filter, hlastnear]
      exact ⟨⟨hthere,by simp [hgroup]⟩,by simp⟩
    have hmost : c.depth ≤ (chainAlong f t nearest).depth := hleast _ hin
    have hsteps : c.depth = steps.length := by
      unfold Chain.depth
      rw [hkeys]
      rfl
    have hnear : (chainAlong f t nearest).depth = d+1 := by
      unfold Chain.depth chainAlong
      simpa using hlong
    omega
  have hsame : (f.chainsDown t depth).find? (fun a =>
      (fun s : List String => decide (s.length = d+1) && decide (s.getLast? = some member))
        (a.keys.drop 1)) = some c := by
    rw [← hfirst]
    unfold chainsToMembers
    rw [List.find?_filter, List.find?_filter]
    apply List.find?_congr
    intro a ha
    obtain ⟨other,-,hotherkeys,-⟩ := mem_chainsDown.mp ha
    rw [lastOf_keys hotherkeys, hotherkeys]
    by_cases hshort : other = []
    · have hdepth : a.depth = 0 := by
        unfold Chain.depth
        rw [hotherkeys, hshort]
        rfl
      simp [hshort, hdepth, hdepths, RiskFacts.endOf, hother]
    · have hotherend := @endOf_getLast t _ hshort
      have hdepth : a.depth = other.length := by
        unfold Chain.depth
        rw [hotherkeys]
        rfl
      by_cases hthat : RiskFacts.endOf t other = member
      · simp [hotherend, hdepth, hdepths, hthat, hgroup]
        exact Iff.rfl
      · simp [hotherend, hthat]
  have hchosen : c = chainAlong f t nearest := Option.some.inj (hsame.symm.trans hfound)
  have hdescends : f.Descends t [t] nearest := by
    obtain ⟨other,hother,hotherkeys,-⟩ := mem_chainsDown.mp hthere
    rw [(List.cons.inj hotherkeys).2]
    exact hother
  refine ⟨hgroup,d,hnearest,?_,?_,?_,?_⟩
  · rw [← hnear]
    exact hchosen
  · rw [← hnear]
    exact hdescends
  · rw [← hnear, hlong]
    exact hd'.trans hlength
  · rw [← hnear]
    exact hnearend

end Shortest

section Redundant
variable {f : RiskFacts} {config : RuleConfig} {o : RuleOutcome} {found : List RuleOutcome}

theorem mem_routesTo {acl : Acl} {depth : ℤ} {member : String} {route : String × Chain} :
    route ∈ routesTo f acl depth member ↔ route.1 ∈ routeTrustees acl ∧
      firstShortest ((chainsToMembers f depth route.1).filter fun c => lastOf c = member) =
        some route.2 := by
  unfold routesTo
  rw [List.mem_filterMap]
  constructor
  · rintro ⟨t,ht,hroute⟩
    obtain ⟨c,hc,rfl⟩ := Option.map_eq_some_iff.mp hroute
    exact ⟨ht,hc⟩
  · rintro ⟨ht,hc⟩
    exact ⟨route.1,ht,by rw [hc]; rfl⟩

theorem routesTo_strict (acl : Acl) (depth : ℤ) (member : String) :
    ((routesTo f acl depth member).map (·.1)).Pairwise fun a b => a < b := by
  unfold routesTo
  apply List.pairwise_map.mpr
  apply List.Pairwise.filterMap _ _ (grantedTrustees_strict [acl])
  intro a b hlt x hx y hy
  obtain ⟨_,_,rfl⟩ := Option.map_eq_some_iff.mp hx
  obtain ⟨_,_,rfl⟩ := Option.map_eq_some_iff.mp hy
  exact hlt

/-- Looking the trustees of some routes up again gives the routes again. -/
theorem filterMap_again {look : String → Option (String × Chain)} {l : List (String × Chain)}
    (h : ∀ route ∈ l, look route.1 = some route) : (l.map (·.1)).filterMap look = l := by
  induction l with
  | nil => rfl
  | cons route rest ih =>
    rw [List.map_cons, List.filterMap_cons, h route List.mem_cons_self,
      ih fun other hother => h other (List.mem_cons_of_mem route hother)]

/-- What the rule reports of a member, with the routes that are kept for it. -/
theorem redundantOutcome_some {acl : Acl} {minimum depth : ℤ} {member : String} :
    redundantOutcome f config minimum depth acl member = some o ↔
      minimum ≤ (routesTo f acl depth member).length ∧
      o = outcomeOf (acl.subject member none) .default acl.container
        ((routesTo f acl depth member).flatMap
            (fun route => acl.cite route.1 ++ route.2.edges.map forMembership) ++
          (f.principal member).toList.map forPrincipal)
        (acl.qualifiers ∪ if (routesTo f acl depth member).any (·.2.truncated) then
          {FactQualifier.membershipTruncated} else ∅)
        [("principal_label",textOrNull ((f.principal member).map (·.label))),
          ("route_count",.whole (routesTo f acl depth member).length),
          ("minimum_paths",.whole minimum),
          ("trustees",.array ((routesTo f acl depth member).map fun route => Json.text route.1)),
          ("layer",.text acl.layer.value), ruleVersion config] := by
  unfold redundantOutcome
  by_cases hfew : ((routesTo f acl depth member).length : ℤ) < minimum
  · simp only [hfew, if_true]
    constructor
    · intro h
      cases h
    · exact fun h => absurd h.1 (by omega)
  · simp only [hfew, if_false]
    constructor
    · intro h
      cases h
      exact ⟨by omega,rfl⟩
    · rintro ⟨-,rfl⟩
      rfl

variable (hf : Stored f)
include hf

/-- The records along the chains that are kept for one member never disagree. -/
theorem route_edges_agree {acl : Acl} {depth : ℤ} {member : String} (hdepth : 1 ≤ depth)
    {e e' : MembershipFacts}
    (he : e ∈ (routesTo f acl depth member).flatMap fun route => route.2.edges)
    (he' : e' ∈ (routesTo f acl depth member).flatMap fun route => route.2.edges)
    (hkey : e.groupKey = e'.groupKey) : e = e' := by
  obtain ⟨route,hroute,he⟩ := List.mem_flatMap.mp he
  obtain ⟨route',hroute',he'⟩ := List.mem_flatMap.mp he'
  obtain ⟨-,d,hnearest,hchain,-⟩ := shortest_along hdepth (mem_routesTo.mp hroute).2
  obtain ⟨-,d',hnearest',hchain',-⟩ := shortest_along hdepth (mem_routesTo.mp hroute').2
  rw [hchain] at he
  rw [hchain'] at he'
  exact greedy_edges_agree (membership_keys hf) hnearest hnearest' he he' hkey

/-- No chain that is kept for a member leads through the member. -/
theorem route_edges_end {acl : Acl} {depth : ℤ} {member : String} (hdepth : 1 ≤ depth)
    {e : MembershipFacts}
    (he : e ∈ (routesTo f acl depth member).flatMap fun route => route.2.edges) :
    e.groupKey ≠ member := by
  obtain ⟨route,hroute,he⟩ := List.mem_flatMap.mp he
  obtain ⟨-,d,hnearest,hchain,-⟩ := shortest_along hdepth (mem_routesTo.mp hroute).2
  rw [hchain] at he
  obtain ⟨r,node,record,other,hnear,hrecord,-,rfl⟩ := greedy_edges hnearest he
  intro hself
  have hnode : node = member := (membership_key hf hrecord).symm.trans hself
  have hzero := hnear.2 0 (by omega)
  simp [ShortestRoutes.reaches, hnode] at hzero

/-- `RedundantAccessPaths` finds its outcomes again, whatever else the records it cites hold. -/
theorem redundant_again (casefold : String → String)
    (h : redundantAccessPaths f config = .ok found) (ho : o ∈ found) :
    FoundAgain casefold config .redundantAccessPaths o := by
  classical
  obtain ⟨minimum,hminimum,h⟩ := bind_ok.mp h
  obtain ⟨depth,hdepth,h⟩ := bind_ok.mp h
  cases h
  obtain ⟨acl,hacl,ho⟩ := List.mem_flatMap.mp ho
  obtain ⟨member,hmember,hout⟩ := List.mem_filterMap.mp ho
  have hleast := optionInt_least hminimum
  have hdeep := optionInt_least hdepth
  obtain ⟨hcount,hreport⟩ := redundantOutcome_some.mp hout
  obtain ⟨routes,hroutes⟩ : ∃ l, l = routesTo f acl depth member := ⟨_,rfl⟩
  obtain ⟨held,hheld⟩ : ∃ l, l = (routes.flatMap fun route => route.2.edges).dedup := ⟨_,rfl⟩
  obtain ⟨trustees,htrustees⟩ : ∃ l, l = routes.map (·.1) := ⟨_,rfl⟩
  have hmem : ∀ e, e ∈ held ↔ e ∈ routes.flatMap fun route => route.2.edges := by
    intro e
    rw [hheld]
    exact List.mem_dedup
  have hapart : (held.map (·.groupKey)).Nodup := by
    apply List.Nodup.map_on
    · intro e he e' he' hkey
      rw [hmem, hroutes] at he he'
      exact route_edges_agree hf hdeep he he' hkey
    · rw [hheld]
      exact List.nodup_dedup _
  obtain ⟨hnodup,hprincipal⟩ := principal_kept hf [acl] trustees held [] member
  have hlists : [acl].Sublist (acls f) := List.singleton_sublist.mpr hacl
  obtain ⟨g,hg⟩ : ∃ b, b = (citation [acl] trustees (f.principal member).toList held []).bundle :=
    ⟨_,rfl⟩
  have hacls : acls g = [restricted trustees acl] := by
    rw [hg]
    exact acls_cited hlists hf
  rw [← hg] at hprincipal
  have hlookup : ∀ k m, m ∈ held ∧ m.groupKey = k → g.membership k = some m := by
    intro k m hm
    rw [hg]
    exact (membership_cited hapart).mpr hm
  have hend : g.directMembers member = [] := by
    have hnone : g.membership member = none := by
      apply Option.eq_none_iff_forall_ne_some.mpr
      intro m hm
      rw [hg] at hm
      obtain ⟨hm,hkey⟩ := (membership_cited hapart).mp hm
      rw [hmem, hroutes] at hm
      exact route_edges_end hf hdeep hm hkey
    unfold RiskFacts.directMembers
    rw [hnone]
    rfl
  have hgranted : routeTrustees (restricted trustees acl) = trustees := by
    apply grantedTrustees_restricted [acl]
    · rw [htrustees, hroutes]
      exact routesTo_strict acl depth member
    · intro t ht
      rw [htrustees, hroutes] at ht
      obtain ⟨route,hroute,rfl⟩ := List.mem_map.mp ht
      exact mem_grantedTrustees.mp (mem_routesTo.mp hroute).1
  have hkept : ∀ route ∈ routes, route.2 ∈ chainsToMembers g depth route.1 ∧
      lastOf route.2 = member ∧ firstShortest ((chainsToMembers g depth route.1).filter
        fun c => lastOf c = member) = some route.2 := by
    intro route hroute
    have hchosen := hroute
    rw [hroutes] at hchosen
    obtain ⟨hgroup,d,hnearest,hchain,hd,hlength,hlast⟩ :=
      shortest_along hdeep (mem_routesTo.mp hchosen).2
    have hlong := greedy_length hnearest
    generalize greedy f.directMembers member (d+1) route.1 = steps at *
    have hne : steps ≠ [] := by
      rintro rfl
      cases hlong
    have hfollows : Follows f g route.1 steps := by
      apply follows_of_edges hlookup (membership_keys hf) hd
      intro e he
      rw [hmem]
      exact List.mem_flatMap.mpr ⟨route,hroute,by rw [hchain]; exact he⟩
    obtain ⟨hthere,honly⟩ := below_follows hfollows (by rw [hlast]; exact hend) hd hne hlength
    have hdescribed : describedGroup g member = false := by
      unfold describedGroup at hgroup ⊢
      rw [hprincipal]
      exact hgroup
    have hlastOf : lastOf route.2 = member := by
      rw [hchain, lastOf_keys rfl, hlast]
    have hin : route.2 ∈ chainsToMembers g depth route.1 := by
      unfold chainsToMembers
      rw [List.mem_filter, hlastOf, hdescribed, hchain]
      exact ⟨hthere,rfl⟩
    refine ⟨hin,hlastOf,?_⟩
    cases hfirst : firstShortest ((chainsToMembers g depth route.1).filter
        fun c => lastOf c = member) with
    | none =>
      exfalso
      rw [firstShortest_best, firstBest_none shorter_iff] at hfirst
      have hnone := List.filter_eq_nil_iff.mp hfirst _ hin
      exact hnone (by simpa using hlastOf)
    | some c =>
      rw [firstShortest_best] at hfirst
      obtain ⟨hc,-⟩ := firstBest_find shorter_iff hfirst
      obtain ⟨hc,hclast⟩ := List.mem_filter.mp (List.mem_of_find?_eq_some hc)
      obtain ⟨hc,-⟩ := List.mem_filter.mp hc
      obtain ⟨s,hsne,hstart,hskeys,hwhole⟩ := honly c hc
      have hsame : s = steps := by
        apply prefix_end hstart hsne (descends_nodup (List.nodup_singleton _) hd)
        rw [hlast, ← lastOf_keys hskeys]
        exact of_decide_eq_true hclast
      rw [hwhole hsame, hchain]
  have hagain : routesTo g (restricted trustees acl) depth member = routes := by
    unfold routesTo
    rw [hgranted, htrustees]
    apply filterMap_again
    intro route hroute
    rw [(hkept route hroute).2.2]
    rfl
  have hcites : ∀ route ∈ routes, (restricted trustees acl).cite route.1 = acl.cite route.1 := by
    intro route hroute
    apply restricted_cites
    rw [htrustees]
    exact List.mem_map_of_mem hroute
  have hsame :
      redundantOutcome g config minimum depth (restricted trustees acl) member = some o := by
    apply redundantOutcome_some.mpr
    rw [hagain, hroutes, hprincipal, restricted_subject, restricted_container,
      restricted_qualifiers, restricted_layer]
    refine ⟨hcount,hreport.trans ?_⟩
    congr 2
    apply List.flatMap_congr
    intro route hroute
    rw [← hroutes] at hroute
    rw [hcites route hroute]
  have hreached : member ∈ reachedMembers g (restricted trustees acl) depth := by
    have hsome : routes ≠ [] := by
      intro hnone
      rw [← hroutes, hnone] at hcount
      simp at hcount
      omega
    obtain ⟨route,hroute⟩ := List.exists_mem_of_ne_nil _ hsome
    unfold reachedMembers
    rw [hgranted, mem_sortedBy, List.mem_dedup, List.mem_flatMap]
    refine ⟨route.1,?_,List.mem_map.mpr ⟨route.2,(hkept route hroute).1,(hkept route hroute).2.1⟩⟩
    rw [htrustees]
    exact List.mem_map_of_mem hroute
  refine ⟨g,?_,(reachedMembers g (restricted trustees acl) depth).filterMap
    (redundantOutcome g config minimum depth (restricted trustees acl)),?_,⟨o,?_,Alike.refl o⟩,?_⟩
  · rw [hreport, hg]
    refine rebuilt hlists hf hnodup hapart ?_ ?_ ?_
    · exact List.nodup_nil
    · simp
    · intro i
      rw [← hroutes, htrustees]
      simp only [List.mem_cons, List.mem_append, List.mem_flatMap, List.mem_map,
        List.not_mem_nil, or_false, exists_eq_left, hmem]
      constructor
      · rintro (hi | ⟨route,hroute,hi | ⟨e,he,rfl⟩⟩ | ⟨p,hp,rfl⟩)
        · exact .inl hi
        · exact .inr (.inl ⟨route.1,⟨route,hroute,rfl⟩,hi⟩)
        · exact .inr (.inr (.inr ⟨e,⟨route,hroute,he⟩,rfl⟩))
        · exact .inr (.inr (.inl ⟨p,hp,rfl⟩))
      · rintro (hi | ⟨t,⟨route,hroute,rfl⟩,hi⟩ | ⟨p,hp,rfl⟩ | ⟨e,⟨route,hroute,he⟩,rfl⟩)
        · exact .inl hi
        · exact .inr (.inl ⟨route,hroute,.inl hi⟩)
        · exact .inr (.inr ⟨p,hp,rfl⟩)
        · exact .inr (.inl ⟨route,hroute,.inr ⟨e,he,rfl⟩⟩)
  · apply bind_ok.mpr
    refine ⟨minimum,hminimum,bind_ok.mpr ⟨depth,hdepth,?_⟩⟩
    rw [hacls, List.flatMap_cons, List.flatMap_nil, List.append_nil]
    rfl
  · exact List.mem_filterMap.mpr ⟨member,hreached,hsame⟩
  · intro again hin
    obtain ⟨other,-,hother⟩ := List.mem_filterMap.mp hin
    obtain ⟨-,hsubject⟩ := redundantOutcome_some.mp hother
    refine ⟨.inr (by rw [hsubject, hreport]; rfl),fun hname => ?_⟩
    have hmember : other = member := by
      rw [hsubject, hreport] at hname
      have hnames : ((restricted trustees acl).subject (some other) none).canonical =
          (acl.subject (some member) none).canonical := hname
      rw [restricted_subject] at hnames
      exact principal_of_canonical hnames
    rw [hmember, hsame] at hother
    cases hother
    exact Alike.refl o

end Redundant

end Adg.ChainReproduction
