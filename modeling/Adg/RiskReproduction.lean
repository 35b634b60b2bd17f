import Adg.Fallible
import Adg.StoredFacts

/-!
# Finding an outcome again

An outcome is found again when its rule, over nothing but the records it
cites, reports it and reports nothing else under the name of its subject. The
rules that look at one entry of one list or at one directory find everything
again that they report.
-/

set_option autoImplicit false

namespace Adg.RiskReproduction
open Adg.Fallible Adg.Observation Adg.SortedLists Adg.RightsCategories Adg.CanonicalJson
open Adg.AlertModel Adg.FindingModel Adg.RiskRecords Adg.FactBundles Adg.RiskEvidence
open Adg.RuleSettings Adg.RiskRules Adg.StoredFacts

/-! ### Again -/

/-- What an outcome has in common with the one it is found again as. -/
structure Alike (o again : RuleOutcome) : Prop where
  subject : again.subject = o.subject
  band : again.band = o.band
  qualifiers : again.qualifiers = o.qualifiers
  evidence : again.evidence = o.evidence

theorem Alike.refl (o : RuleOutcome) : Alike o o := ⟨rfl,rfl,rfl,rfl⟩

/-- The rule reports the outcome over what the outcome cites, and nothing else of that name. -/
def FoundAgain (casefold : String → String) (config : RuleConfig) (rule : RuleId)
    (o : RuleOutcome) : Prop :=
  ∃ g, rebuildFacts o.evidence = some g ∧
    ∃ found, evaluateRule casefold g config rule = .ok found ∧ (∃ again ∈ found, Alike o again) ∧
      ∀ again ∈ found, (again.band ∈ (definitionFor rule).bands ∨ again.band = o.band) ∧
        (again.subject.canonical = o.subject.canonical → Alike o again)

section Alone
variable {casefold : String → String} {config : RuleConfig} {rule : RuleId} {o : RuleOutcome}

theorem foundAgain_alone {g : RiskFacts} (hg : rebuildFacts o.evidence = some g)
    (hfound : evaluateRule casefold g config rule = .ok [o]) :
    FoundAgain casefold config rule o := by
  refine ⟨g,hg,[o],hfound,⟨o,List.mem_singleton_self o,Alike.refl o⟩,?_⟩
  intro again hagain
  rw [List.mem_singleton.mp hagain]
  exact ⟨.inr rfl,fun _ => Alike.refl o⟩

end Alone

/-! ### Names of subjects -/

theorem canonical_toList (s : FindingSubject) : s.canonical.toList =
    (orBlank s.resourceKey).toList ++ separator.toList ++ ((orBlank s.shareKey).toList ++
      separator.toList ++ ((orBlank s.principalKey).toList ++ separator.toList ++
        (orBlank s.discriminator).toList)) := by
  unfold FindingSubject.canonical
  rw [String.toList_intercalate]
  simp [List.intercalate_cons_cons]

theorem discriminator_of_canonical (acl : Acl) {p : Option String} {d d' : String}
    (h : (acl.subject p (some d)).canonical = (acl.subject p (some d')).canonical) : d = d' := by
  have hlists := congrArg String.toList h
  rw [canonical_toList, canonical_toList] at hlists
  cases acl <;> simpa [Acl.subject, orBlank, String.toList_inj] using hlists

theorem principal_of_canonical {acl : Acl} {p p' : String} {d : Option String}
    (h : (acl.subject (some p) d).canonical = (acl.subject (some p') d).canonical) : p = p' := by
  have hlists := congrArg String.toList h
  rw [canonical_toList, canonical_toList] at hlists
  cases acl <;> simpa [Acl.subject, orBlank, String.toList_inj] using hlists

/-! ### Looking at each trustee once -/

theorem mem_unseen {eligible : AceFacts → Bool} {seen : List String} {aces : List AceFacts}
    {ace : AceFacts} (h : ace ∈ unseen eligible seen aces) :
    ace ∈ aces ∧ eligible ace = true ∧ ace.trusteeKey ∉ seen := by
  induction aces generalizing seen with
  | nil => cases h
  | cons a rest ih =>
    rw [unseen] at h
    split_ifs at h with hskip
    · obtain ⟨hmem,hrest⟩ := ih h
      exact ⟨List.mem_cons_of_mem a hmem,hrest⟩
    · simp only [Bool.or_eq_true, Bool.not_eq_true', List.contains_iff_mem, not_or,
        Bool.not_eq_false] at hskip
      rcases List.mem_cons.mp h with rfl | h
      · exact ⟨List.mem_cons_self,hskip⟩
      · obtain ⟨hmem,heligible,hseen⟩ := ih h
        exact ⟨List.mem_cons_of_mem a hmem,heligible,fun hs => hseen (List.mem_cons_of_mem _ hs)⟩

theorem unseen_seen {eligible : AceFacts → Bool} {seen : List String} {aces : List AceFacts}
    (h : ∀ a ∈ aces, a.trusteeKey ∈ seen) : unseen eligible seen aces = [] := by
  induction aces with
  | nil => rfl
  | cons a rest ih =>
    rw [unseen, if_pos (by simp [h a List.mem_cons_self])]
    exact ih fun b hb => h b (List.mem_cons_of_mem a hb)

/-- Among the entries of one trustee the entry that was looked at is the only one that is. -/
theorem unseen_restricted {eligible eligible' : AceFacts → Bool} {seen : List String}
    {aces : List AceFacts} {ace : AceFacts} (h : ace ∈ unseen eligible seen aces)
    (hsame : ∀ a, a.trusteeKey = ace.trusteeKey → eligible' a = eligible a) :
    unseen eligible' [] (aces.filter fun a => a.trusteeKey ∈ [ace.trusteeKey]) = [ace] := by
  induction aces generalizing seen with
  | nil => cases h
  | cons a rest ih =>
    rw [unseen] at h
    by_cases hname : a.trusteeKey = ace.trusteeKey
    · rw [List.filter_cons_of_pos (by simp [hname]), unseen, hsame a hname]
      split_ifs at h with hskip
      · simp only [Bool.or_eq_true, Bool.not_eq_true', List.contains_iff_mem] at hskip
        have hineligible : eligible a = false := by
          rcases hskip with hskip | hseen
          · exact hskip
          · exact absurd (hname ▸ hseen) (mem_unseen h).2.2
        rw [hineligible, if_pos (by simp)]
        exact ih h
      · simp only [Bool.or_eq_true, Bool.not_eq_true', List.contains_iff_mem, not_or,
          Bool.not_eq_false] at hskip
        have hace : a = ace := by
          rcases List.mem_cons.mp h with hace | hrest
          · exact hace.symm
          · exact absurd (List.mem_cons.mpr (.inl hname.symm)) (mem_unseen hrest).2.2
        rw [hskip.1, if_neg (by simp), unseen_seen, hace]
        intro b hb
        have hb := (List.mem_filter.mp hb).2
        simpa [hname] using hb
    · rw [List.filter_cons_of_neg (by simpa using hname)]
      split_ifs at h with hskip
      · exact ih h
      · rcases List.mem_cons.mp h with rfl | h
        · exact absurd rfl hname
        · exact ih h

theorem mem_overTrustees {f : RiskFacts} {eligible : Acl → AceFacts → Bool}
    {outcome : Acl → AceFacts → Except DomainError (Option RuleOutcome)} {found : List RuleOutcome}
    {o : RuleOutcome} (h : overTrustees f eligible outcome = .ok found) (ho : o ∈ found) :
    ∃ acl ∈ acls f, ∃ ace ∈ unseen (eligible acl) [] acl.aces, outcome acl ace = .ok (some o) := by
  obtain ⟨acl,hacl,zs,hzs,ho⟩ := mem_flatten_mapM h ho
  obtain ⟨looked,hlooked,rfl⟩ := map_ok.mp hzs
  have hsome : some o ∈ looked := List.reduceOption_mem_iff.mp ho
  obtain ⟨ace,hace,hout⟩ := mem_mapM hlooked hsome
  exact ⟨acl,hacl,ace,hace,hout⟩

theorem overTrustees_one {g : RiskFacts} {eligible : Acl → AceFacts → Bool}
    {outcome : Acl → AceFacts → Except DomainError (Option RuleOutcome)} {acl : Acl}
    {o : RuleOutcome} (ace : AceFacts) (hacls : acls g = [acl])
    (hunseen : unseen (eligible acl) [] acl.aces = [ace]) (hout : outcome acl ace = .ok (some o)) :
    overTrustees g eligible outcome = .ok [o] := by
  unfold overTrustees
  rw [hacls, List.mapM_cons, List.mapM_nil, hunseen, List.mapM_cons, List.mapM_nil, hout]
  rfl

theorem overTrustees_none {g : RiskFacts} {eligible : Acl → AceFacts → Bool}
    {outcome : Acl → AceFacts → Except DomainError (Option RuleOutcome)} {acl : Acl}
    (hacls : acls g = [acl]) (hnone : acl.aces = []) :
    overTrustees g eligible outcome = .ok [] := by
  unfold overTrustees
  rw [hacls, List.mapM_cons, List.mapM_nil, hnone]
  rfl

theorem resources_of_acls (f : RiskFacts) :
    (acls f).filterMap resourceOf = sortedBy (·.resourceKey) f.resources := by
  simp [acls, List.filterMap_append, List.filterMap_map, Function.comp_def, resourceOf]

/-! ### Rules about one entry of one list -/

section OneList
variable {f : RiskFacts} {config : RuleConfig} {o : RuleOutcome} {found : List RuleOutcome}
  (hf : Stored f)
include hf

/-- What is cited of one trustee of one list is rebuilt as that list with the trustee's entries. -/
theorem one_rebuilt {acl : Acl} (t : String) {rest : List EvidenceItem}
    (principals : List PrincipalFacts) (settings : List EvidenceItem) (hacl : acl ∈ acls f)
    (hprincipals : (principals.map (·.key)).Nodup) (hsettings : (settings.map (·.key)).Nodup)
    (hkinds : ∀ i ∈ settings, i.kind = .configuration)
    (hrest : rest = acl.cite t ++ principals.map forPrincipal ++ settings) :
    rebuildFacts (Evidence.of (acl.container :: rest)) =
        some (citation [acl] [t] principals [] settings).bundle ∧
      acls (citation [acl] [t] principals [] settings).bundle = [restricted [t] acl] := by
  have hlists : [acl].Sublist (acls f) := List.singleton_sublist.mpr hacl
  constructor
  · refine rebuilt hlists hf hprincipals ?_ hsettings hkinds ?_
    · exact List.nodup_nil
    · intro i
      rw [hrest]
      simp [List.mem_append, eq_comm]
  · rw [acls_cited hlists hf]
    rfl

theorem broad_again {matchesTrustee : AceFacts → Bool}
    (h : broadTrustee matchesTrustee f config = .ok found) (ho : o ∈ found) :
    ∃ acl ∈ acls f, ∃ ace ∈ acl.aces, o.subject = acl.subject none ace.trusteeKey ∧
      ∃ g, rebuildFacts o.evidence = some g ∧ acls g = [restricted [ace.trusteeKey] acl] ∧
        broadTrustee matchesTrustee g config = .ok [o] := by
  obtain ⟨threshold,hthreshold,h⟩ := bind_ok.mp h
  obtain ⟨acl,hacl,ace,hace,hout⟩ := mem_overTrustees h ho
  have hbroad := hout
  unfold broadOutcome at hout
  obtain ⟨evaluation,hevaluation,hout⟩ := bind_ok.mp hout
  split_ifs at hout with hreaches
  · cases hout
  · cases hout
    obtain ⟨hrebuilt,hacls⟩ :=
      one_rebuilt hf ace.trusteeKey [] [] hacl List.nodup_nil List.nodup_nil (by simp) rfl
    rw [List.map_nil, List.append_nil, List.append_nil] at hrebuilt
    refine ⟨acl,hacl,ace,(mem_unseen hace).1,rfl,_,hrebuilt,hacls,?_⟩
    unfold broadTrustee
    rw [hthreshold]
    apply overTrustees_one ace hacls
    · rw [restricted_aces]
      exact unseen_restricted hace fun _ _ => rfl
    · rw [← hbroad]
      unfold broadOutcome
      simp only [restricted_evaluates (List.mem_singleton_self ace.trusteeKey),
        restricted_cites (List.mem_singleton_self ace.trusteeKey), restricted_subject,
        restricted_container, restricted_qualifiers, restricted_layer]

/-- `AuthenticatedUsersBroadAccess` finds its outcomes again. -/
theorem authenticatedUsers_again (casefold : String → String)
    (h : authenticatedUsersBroadAccess f config = .ok found) (ho : o ∈ found) :
    FoundAgain casefold config .authenticatedUsersBroadAccess o := by
  obtain ⟨_,_,_,_,_,g,hrebuilt,_,hagain⟩ := broad_again hf h ho
  exact foundAgain_alone hrebuilt hagain

/-- `DomainUsersBroadAccess` finds its outcomes again. -/
theorem domainUsers_again (casefold : String → String)
    (h : domainUsersBroadAccess f config = .ok found) (ho : o ∈ found) :
    FoundAgain casefold config .domainUsersBroadAccess o := by
  obtain ⟨_,_,_,_,_,g,hrebuilt,_,hagain⟩ := broad_again hf h ho
  exact foundAgain_alone hrebuilt hagain

theorem resource_rebuilt {r : ResourceFacts} (hr : r ∈ f.resources) :
    ∃ g, rebuildFacts (Evidence.of [forResource r]) = some g ∧
      acls g = [restricted [] (.resource r)] := by
  have hacl : Acl.resource r ∈ acls f := mem_acls.mpr (.inl ⟨r,hr,rfl⟩)
  have hlists : [Acl.resource r].Sublist (acls f) := List.singleton_sublist.mpr hacl
  refine ⟨(citation [Acl.resource r] [] [] [] []).bundle,?_,acls_cited hlists hf⟩
  refine rebuilt hlists hf ?_ ?_ ?_ ?_ ?_
  · exact List.nodup_nil
  · exact List.nodup_nil
  · exact List.nodup_nil
  · simp
  · intro i
    simp [Acl.container]

/-- `EveryoneBroadAccess` finds its outcomes again, a NULL DACL beside a list or not. -/
theorem everyone_again (casefold : String → String)
    (h : everyoneBroadAccess f config = .ok found) (ho : o ∈ found) :
    FoundAgain casefold config .everyoneBroadAccess o := by
  obtain ⟨named,hnamed,h⟩ := bind_ok.mp h
  cases h
  rcases List.mem_append.mp ho with ho | ho
  · obtain ⟨r,hr,rfl⟩ := List.mem_map.mp ho
    obtain ⟨hr,hnull⟩ := List.mem_filter.mp hr
    obtain ⟨g,hg,hacls⟩ := resource_rebuilt hf ((mem_sortedBy _).mp hr)
    apply foundAgain_alone hg
    obtain ⟨threshold,hthreshold,_⟩ := bind_ok.mp hnamed
    have hbroad : broadTrustee namesEveryone g config = .ok [] := by
      unfold broadTrustee
      rw [hthreshold]
      exact overTrustees_none hacls (by simp)
    show (do let named ← broadTrustee namesEveryone g config; return _) = _
    rw [hbroad, nullDaclOutcomes, ← resources_of_acls, hacls]
    simp only [List.filterMap_cons, List.filterMap_nil, restricted, resourceOf]
    rw [List.filter_cons_of_pos (by simpa using hnull)]
    rfl
  · obtain ⟨acl,hacl,ace,hace,hsubject,g,hg,hacls,hagain⟩ := broad_again hf hnamed ho
    refine ⟨g,hg,nullDaclOutcomes g config ++ [o],?_,⟨o,by simp,Alike.refl o⟩,?_⟩
    · show (do let named ← broadTrustee namesEveryone g config; return _) = _
      rw [hagain]
      rfl
    · intro again hmem
      rcases List.mem_append.mp hmem with hnull | hmem
      · constructor
        · obtain ⟨_,_,rfl⟩ := List.mem_map.mp hnull
          left
          show SeverityBand.nullDacl ∈ (definitionFor .everyoneBroadAccess).bands
          decide
        intro hname
        exfalso
        rw [nullDaclOutcomes, ← resources_of_acls, hacls] at hnull
        cases acl with
        | share s => simp [restricted, resourceOf] at hnull
        | resource r =>
          have hsid := hf.trustees ace (list_entries hacl hace)
          obtain ⟨r',hr',rfl⟩ := List.mem_map.mp hnull
          have hr' := (List.mem_filter.mp hr').1
          simp only [List.filterMap_cons, List.filterMap_nil, restricted, resourceOf,
            List.mem_singleton] at hr'
          subst hr'
          rw [hsubject] at hname
          have hkey : "null_dacl" = ace.trusteeKey :=
            discriminator_of_canonical (.resource r) hname
          rw [← hkey] at hsid
          exact absurd hsid (by decide)
      · rw [List.mem_singleton.mp hmem]
        exact ⟨.inr rfl,fun _ => Alike.refl o⟩

/-- `DirectUserAce` finds its outcomes again. -/
theorem directUser_again (casefold : String → String) (h : directUserAce f config = .ok found)
    (ho : o ∈ found) : FoundAgain casefold config .directUserAce o := by
  obtain ⟨acl,hacl,ace,hace,hout⟩ := mem_overTrustees h ho
  have hagain := hout
  unfold directUserOutcome at hout
  cases hprincipal : f.principal ace.trusteeKey with
  | none =>
    rw [hprincipal] at hout
    cases hout
  | some principal =>
    rw [hprincipal] at hout
    obtain ⟨evaluation,hevaluation,hout⟩ := bind_ok.mp hout
    split_ifs at hout with hempty
    · cases hout
    · cases hout
      have hkey := principal_key hf hprincipal
      obtain ⟨hrebuilt,hacls⟩ := one_rebuilt hf ace.trusteeKey [principal] [] hacl
        (List.nodup_singleton _) List.nodup_nil (by simp) rfl
      rw [List.append_nil] at hrebuilt
      have hcited : (citation [acl] [ace.trusteeKey] [principal] [] []).bundle.principal
          ace.trusteeKey = some principal := by
        apply (principal_cited _).mpr ⟨List.mem_singleton_self _,hkey⟩
        exact List.nodup_singleton _
      apply foundAgain_alone hrebuilt
      apply overTrustees_one ace hacls
      · rw [restricted_aces]
        apply unseen_restricted hace
        intro a ha
        unfold describedUser
        rw [ha, hprincipal, hcited]
      · rw [← hagain]
        unfold directUserOutcome
        rw [hprincipal, hcited]
        simp only [restricted_evaluates (List.mem_singleton_self ace.trusteeKey),
          restricted_cites (List.mem_singleton_self ace.trusteeKey), restricted_subject,
          restricted_container, restricted_qualifiers, restricted_layer]

/-- `UnresolvedSidOnAcl` finds its outcomes again, of trustees nothing describes too. -/
theorem unresolved_again (casefold : String → String) (h : unresolvedSidOnAcl f config = .ok found)
    (ho : o ∈ found) : FoundAgain casefold config .unresolvedSidOnAcl o := by
  obtain ⟨acl,hacl,ace,hace,hout⟩ := mem_overTrustees h ho
  have hout : unresolvedOutcome f config acl ace = some o := Except.ok.inj hout
  have hagain := hout
  obtain ⟨reason,hreason,rfl⟩ := Option.map_eq_some_iff.mp hout
  have hnodup : ((f.principal ace.trusteeKey).toList.map (·.key)).Nodup := by
    cases f.principal ace.trusteeKey <;> simp
  obtain ⟨hrebuilt,hacls⟩ := one_rebuilt hf ace.trusteeKey (f.principal ace.trusteeKey).toList []
    hacl hnodup List.nodup_nil (by simp) rfl
  rw [List.append_nil] at hrebuilt
  have hcited :
      (citation [acl] [ace.trusteeKey] (f.principal ace.trusteeKey).toList [] []).bundle.principal
      ace.trusteeKey = f.principal ace.trusteeKey := by
    apply Option.ext
    intro p
    rw [principal_cited hnodup, Option.mem_toList]
    constructor
    · exact fun hp => hp.1
    · exact fun hp => ⟨hp,principal_key hf hp⟩
  apply foundAgain_alone hrebuilt
  apply overTrustees_one ace hacls
  · rw [restricted_aces]
    apply unseen_restricted hace
    intro a ha
    rw [ha, hcited]
  · rw [← hagain]
    unfold unresolvedOutcome
    simp only [hcited, restricted_cites (List.mem_singleton_self ace.trusteeKey),
      restricted_subject, restricted_container, restricted_qualifiers, restricted_layer]

/-- `BrokenInheritance` finds its outcomes again. -/
theorem broken_again (casefold : String → String) (h : brokenInheritance f config = .ok found)
    (ho : o ∈ found) : FoundAgain casefold config .brokenInheritance o := by
  obtain ⟨includeRoots,hroots,h⟩ := bind_ok.mp h
  obtain ⟨includeDiverged,hdiverged,h⟩ := bind_ok.mp h
  cases h
  obtain ⟨r,hr,hout⟩ := List.mem_filterMap.mp ho
  have hagain : brokenOutcome config includeRoots includeDiverged { r with aces := [] } = some o :=
    hout
  unfold brokenOutcome at hout
  split_ifs at hout with hroot
  obtain ⟨band,hband,rfl⟩ := Option.map_eq_some_iff.mp hout
  obtain ⟨g,hg,hacls⟩ := resource_rebuilt hf ((mem_sortedBy _).mp hr)
  apply foundAgain_alone hg
  apply bind_ok.mpr
  refine ⟨includeRoots,hroots,bind_ok.mpr ⟨includeDiverged,hdiverged,?_⟩⟩
  rw [← resources_of_acls, hacls]
  have hnone : r.aces.filter (fun a => a.trusteeKey ∈ ([] : List String)) = [] := by simp
  simp only [List.filterMap_cons, List.filterMap_nil, restricted, resourceOf, hnone, hagain]
  rfl

/-- `BroadAccessOnSensitiveResource` finds its outcomes again. -/
theorem sensitive_again (casefold : String → String)
    (h : broadAccessOnSensitiveResource casefold f config = .ok found) (ho : o ∈ found) :
    FoundAgain casefold config .broadAccessOnSensitiveResource o := by
  unfold broadAccessOnSensitiveResource at h
  split_ifs at h with hnone
  · cases h
    cases ho
  obtain ⟨threshold,hthreshold,h⟩ := bind_ok.mp h
  obtain ⟨sids,hsids,h⟩ := bind_ok.mp h
  obtain ⟨rids,hrids,h⟩ := bind_ok.mp h
  obtain ⟨acl,hacl,ace,hace,hout⟩ := mem_overTrustees h ho
  have hagain := hout
  have htags : tagsFor casefold config.sensitiveResources (restricted [ace.trusteeKey] acl) =
      tagsFor casefold config.sensitiveResources acl := by
    cases acl <;> rfl
  unfold sensitiveOutcome at hout
  cases htag : tagsFor casefold config.sensitiveResources acl with
  | nil =>
    rw [htag] at hout
    cases hout
  | cons tag others =>
    rw [htag] at hout
    obtain ⟨evaluation,hevaluation,hout⟩ := bind_ok.mp hout
    split_ifs at hout with hreaches
    · cases hout
    · cases hout
      obtain ⟨hrebuilt,hacls⟩ := one_rebuilt hf ace.trusteeKey []
        [forConfiguration ("sensitive_resource:" ++ tag.label) (.text tag.selector)
          (tag_ne tag.label)] hacl List.nodup_nil (List.nodup_singleton _)
        (fun i hi => by rw [List.mem_singleton.mp hi]; rfl) rfl
      rw [List.map_nil, List.append_nil] at hrebuilt
      apply foundAgain_alone hrebuilt
      show broadAccessOnSensitiveResource casefold _ config = _
      unfold broadAccessOnSensitiveResource
      rw [if_neg hnone]
      apply bind_ok.mpr
      refine ⟨threshold,hthreshold,bind_ok.mpr ⟨sids,hsids,bind_ok.mpr ⟨rids,hrids,?_⟩⟩⟩
      apply overTrustees_one ace hacls
      · rw [restricted_aces]
        apply unseen_restricted hace
        intro a ha
        rw [htags]
      · rw [← hagain]
        unfold sensitiveOutcome
        rw [htags]
        simp only [restricted_evaluates (List.mem_singleton_self ace.trusteeKey),
          restricted_cites (List.mem_singleton_self ace.trusteeKey), restricted_subject,
          restricted_container, restricted_qualifiers, restricted_layer]

end OneList

end Adg.RiskReproduction
