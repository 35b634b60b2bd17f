import Adg.Investigations
import Adg.RemovalExactness
import Adg.WithheldRights

/-!
# What an investigation says

The routes that are shown are the strongest of the explained paths, the effect
beside a route is what was measured, the impact of the findings fits the
presence that is stated, and the next steps answer every open question, the
gravest first.
-/

set_option autoImplicit false

namespace Adg.InvestigatedAnswers
open Adg.Observation Adg.RightsAlgebra Adg.AccessConditions Adg.AccessSubjects Adg.Evaluation
open Adg.AccessResolver Adg.ResolvedRights Adg.MembershipGraph Adg.AccessCausality
open Adg.RemovalAnalysis Adg.Decomposition Adg.WithheldRights Adg.RemovalExactness Adg.Verdicts
open Adg.SortedLists Adg.FirstOfEach Adg.ShortestRoutes Adg.Investigations
open Adg.Fallible (bind_ok mapped_ok)

/-! ### The routes shown -/

section Routes
variable {x : AccessExplanation} {layer : RightsLayer} {r : PrimaryRoute}

theorem carries_layer {p : CausalPath} (h : carries layer p = true) : p.layer = layer := by
  unfold carries at h
  simp only [Bool.and_eq_true, decide_eq_true_eq] at h
  exact h.1.1

theorem strongest_best {final : AccessMask} {paths : List CausalPath} {p : CausalPath}
    (h : strongest final paths = some p) :
    p ∈ paths ∧ ∀ o ∈ paths, strength final o ≤ strength final p := by
  have hfound : paths.find? (fun o => strength final o = strength final p) = some p ∧
      ∀ o ∈ paths, strength final o ≤ strength final p := firstBest_find (fun _ _ => Iff.rfl) h
  exact ⟨List.mem_of_find?_eq_some hfound.1,hfound.2⟩

theorem strongest_none {final : AccessMask} {paths : List CausalPath}
    (h : strongest final paths = none) : paths = [] := by
  have hstronger : ∀ p best : CausalPath, strength final best < strength final p ↔
      strength final best < strength final p := fun _ _ => Iff.rfl
  exact (firstBest_none hstronger).mp h

theorem layerRoute_some (h : layerRoute x layer = some r) :
    ∃ p ∈ x.paths, carries layer p = true ∧ r = routeOf x (finalMask x) p ∧
      ∀ o ∈ x.paths, carries layer o = true →
        strength (finalMask x) o ≤ strength (finalMask x) p := by
  obtain ⟨p,hp,rfl⟩ := Option.map_eq_some_iff.mp h
  obtain ⟨hmem,hbest⟩ := strongest_best hp
  obtain ⟨hpath,hcarries⟩ := List.mem_filter.mp hmem
  exact ⟨p,hpath,hcarries,rfl,fun o ho hc => hbest o (List.mem_filter.mpr ⟨ho,hc⟩)⟩

theorem layerRoute_layer (h : layerRoute x layer = some r) : r.layer = layer := by
  obtain ⟨p,-,hcarries,rfl,-⟩ := layerRoute_some h
  exact carries_layer hcarries

theorem layerRoute_exists {p : CausalPath} (hp : p ∈ x.paths) (hc : carries layer p = true) :
    ∃ r, layerRoute x layer = some r := by
  cases hroute : layerRoute x layer with
  | some r => exact ⟨r,rfl⟩
  | none =>
    have hnone := strongest_none (Option.map_eq_none_iff.mp hroute)
    have hmem : p ∈ x.paths.filter (carries layer) := List.mem_filter.mpr ⟨hp,hc⟩
    rw [hnone] at hmem
    cases hmem

theorem mem_primaryRoutes : r ∈ primaryRoutes x ↔
    (r.layer = .ntfs ∨ r.layer = .smbShare) ∧ layerRoute x r.layer = some r := by
  unfold primaryRoutes
  simp only [List.mem_filterMap, List.mem_cons, List.not_mem_nil, or_false]
  constructor
  · rintro ⟨layer,hlayer,hroute⟩
    rw [layerRoute_layer hroute]
    exact ⟨hlayer,hroute⟩
  · exact fun h => ⟨r.layer,h.1,h.2⟩

/-- What a reader of the routes may rely on. -/
structure RoutesOf (x : AccessExplanation) (routes : List PrimaryRoute) : Prop where
  /-- At most one for each ACL, the file system's first. -/
  layers : routes.Pairwise fun r s => r.layer = .ntfs ∧ s.layer = .smbShare
  /-- An ACL has a route where any path carries access through it. -/
  shown : ∀ p ∈ x.paths, ∀ layer, (layer = .ntfs ∨ layer = .smbShare) → carries layer p = true →
    ∃ r ∈ routes, r.layer = layer
  /-- A route is one of these paths, and none of them is stronger. -/
  strongest : ∀ r ∈ routes, ∃ p ∈ x.paths, carries r.layer p = true ∧
    r = routeOf x (finalMask x) p ∧ ∀ o ∈ x.paths, carries r.layer o = true →
      strength (finalMask x) o ≤ strength (finalMask x) p
  /-- The alternates are the other paths that carry access through the ACL. -/
  alternates : ∀ r ∈ routes, ∀ pathId, pathId ∈ r.alternates ↔
    pathId ≠ r.pathId ∧ ∃ o ∈ x.paths, carries r.layer o = true ∧ o.pathId = pathId

theorem primaryRoutes_of (x : AccessExplanation) : RoutesOf x (primaryRoutes x) := by
  constructor
  case layers =>
    unfold primaryRoutes
    apply List.pairwise_filterMap.mpr
    apply List.pairwise_cons.mpr
    refine ⟨fun layer hlayer r hr s hs => ?_,List.pairwise_singleton _ _⟩
    rw [List.mem_singleton.mp hlayer] at hs
    exact ⟨layerRoute_layer hr,layerRoute_layer hs⟩
  case shown =>
    intro p hp layer hlayer hcarries
    obtain ⟨r,hr⟩ := layerRoute_exists hp hcarries
    have hsame := layerRoute_layer hr
    exact ⟨r,mem_primaryRoutes.mpr ⟨hsame ▸ hlayer,hsame ▸ hr⟩,hsame⟩
  case strongest => exact fun r hr => layerRoute_some (mem_primaryRoutes.mp hr).2
  case alternates =>
    intro r hr pathId
    obtain ⟨p,-,hcarries,hroute,-⟩ := layerRoute_some (mem_primaryRoutes.mp hr).2
    have hlayer := carries_layer hcarries
    have hid : r.pathId = p.pathId := congrArg PrimaryRoute.pathId hroute
    have hothers : r.alternates = (x.paths.filter fun other =>
        carries p.layer other && other.pathId ≠ p.pathId).map (·.pathId) :=
      congrArg PrimaryRoute.alternates hroute
    rw [hothers, hid, hlayer]
    simp only [List.mem_map, List.mem_filter, Bool.and_eq_true, decide_eq_true_eq]
    constructor
    · rintro ⟨o,⟨ho,hc,hne⟩,rfl⟩
      exact ⟨hne,o,ho,hc,rfl⟩
    · rintro ⟨hne,o,ho,hc,rfl⟩
      exact ⟨o,⟨ho,hc,hne⟩,rfl⟩

end Routes

/-! ### What carries an access that is present -/

section Explained
variable {token : SubjectToken} {resource : ResourceDacl} {share : Option ShareDacl}
  {fs : List AccessFinding} {access : EffectiveAccess} {edges : List GraphEdge}
  {limits : ExplanationLimits} {x : AccessExplanation}

theorem effect_of_bit {q : Question} {layer : RightsLayer} {novel : AccessMask}
    {delivered constrained : RightsMask} (h : (delivered,constrained) = crossing q novel layer)
    {b : ℕ} (hb : delivered.value.getLsbD b = true) :
    effectOf novel delivered constrained = .contributes := by
  have hcrossed : delivered.value =
      novel &&& (otherLayer q layer).getD (BitVec.allOnes 32) := by
    rw [← crossing_value]
    exact congrArg (fun c => c.1.value) h
  have hnovel : novel ≠ 0 := by
    rintro rfl
    rw [hcrossed] at hb
    simp at hb
  have hdelivered : delivered.isEmpty = false := by
    unfold RightsMask.isEmpty
    rw [decide_eq_false_iff_not, zero_iff_bits]
    intro hzero
    rw [hzero b] at hb
    cases hb
  unfold effectOf
  rw [if_neg hnovel, hdelivered, Bool.false_and, if_neg Bool.false_ne_true]

/-- A grant path that delivers a right carries access through its ACL. -/
theorem carries_of_bit {q : Question} {row : RightsLayer × AclEvaluation} {p : CausalPath}
    (h : FromLayer q row p) (hgrant : p.isGrant = true) {b : ℕ}
    (hb : p.effectiveRights.value.getLsbD b = true) : carries row.1 p = true := by
  have heffect : p.effect = .contributes := by
    rcases h with ⟨-,howner⟩ | ⟨a,-,hentry⟩
    · rw [howner.effect]
      exact effect_of_bit howner.crossed hb
    · rw [hentry.effect]
      exact effect_of_bit hentry.crossed hb
  unfold carries
  rw [heffect, hgrant]
  simp [h.layer_eq]

/-- Where every path was listed, a right of the answer is carried through every evaluated ACL. -/
theorem carried (hacc : resolveAccess token resource share fs = .ok access)
    (hpresent : resource.daclPresent = true)
    (hexp : explainAccess access resource share edges limits = .ok x)
    (hcut : .maxPaths ∉ x.truncation) (hheld : access.hasAccess = true)
    {row : RightsLayer × AclEvaluation} (hrow : row ∈ evaluations access) :
    ∃ p ∈ x.paths, carries row.1 p = true := by
  obtain ⟨b,b',hbuild,htargets,-,hpaths,-,htrunc⟩ := explainAccess_ok hexp
  have hkept : .maxPaths ∉ b.truncation := fun h =>
    hcut ((htrunc _).mpr (measureAll_truncation htargets _ h))
  obtain ⟨hfrom,hshown⟩ := build_spec hbuild
  have hlayer : ∀ p ∈ b.paths, p.layer = row.1 →
      FromLayer ⟨access,resource,share,limits,edges⟩ row p := by
    intro p hp hl
    obtain ⟨row',hrow',hp'⟩ := hfrom p hp
    rwa [evaluations_distinct hrow hrow' (hl.symm.trans hp'.layer_eq)]
  obtain ⟨⟨supplied,facts,hw⟩,hanswer⟩ := evaluated_layer
    (q := ⟨access,resource,share,limits,edges⟩) hacc hpresent rfl hrow
  have hunion := grantUnion_layer hlayer (hshown hkept row hrow) hw
  have hbit : ∃ i, (grantUnion row.1 b.paths).getLsbD i = true := by
    rw [hunion, ← hanswer, answer_expanded hacc]
    by_contra hnone
    have hzero : access.rights.value = 0 := by
      rw [zero_iff_bits]
      intro i
      rw [← Bool.not_eq_true]
      exact fun hi => hnone ⟨i,hi⟩
    simp [EffectiveAccess.hasAccess, RightsMask.isEmpty, hzero] at hheld
  obtain ⟨i,hi⟩ := hbit
  obtain ⟨p,hp,hl,hgrant,hb⟩ := (grantUnion_bit row.1 b.paths i).mp hi
  exact ⟨p,hpaths ▸ hp,carries_of_bit (hlayer p hp hl) hgrant hb⟩

theorem presence_present (x : AccessExplanation) :
    presenceOf (classifyAccess x.access).outcome = .present ↔ x.access.hasAccess = true := by
  show presenceOf (outcomeOf x.access) = .present ↔ _
  unfold outcomeOf
  cases x.access.hasAccess with
  | true => exact iff_of_true rfl rfl
  | false =>
    rw [if_neg Bool.false_ne_true]
    apply iff_of_false _ Bool.false_ne_true
    split
    · decide
    · split <;> decide

/-- The routes of an investigation: none of an access that is not present; of one that is, the
strongest path through each ACL, and where no path was cut off one through every ACL that was
evaluated. -/
theorem investigated_routes (unidentified : List String)
    (hacc : resolveAccess token resource share fs = .ok access)
    (hpresent : resource.daclPresent = true)
    (hexp : explainAccess access resource share edges limits = .ok x) :
    (access.hasAccess = false → (investigate x unidentified).primaryRoutes = []) ∧
    (access.hasAccess = true → RoutesOf x (investigate x unidentified).primaryRoutes ∧
      (.maxPaths ∉ x.truncation → ∀ row ∈ evaluations access,
        ∃ r ∈ (investigate x unidentified).primaryRoutes, r.layer = row.1)) := by
  obtain ⟨-,-,-,-,haccess,-⟩ := explainAccess_ok hexp
  have hroutes : (investigate x unidentified).primaryRoutes =
      if access.hasAccess = true then primaryRoutes x else [] := by
    show (if _ then _ else _) = _
    rw [← haccess]
    simp only [presence_present]
  rw [hroutes]
  constructor
  · intro hheld
    rw [if_neg (by simp [hheld])]
  · intro hheld
    rw [if_pos hheld]
    refine ⟨primaryRoutes_of x,fun hcut row hrow => ?_⟩
    obtain ⟨p,hp,hcarries⟩ := carried hacc hpresent hexp hcut hheld hrow
    have hlayer : row.1 = .ntfs ∨ row.1 = .smbShare := by
      unfold evaluations at hrow
      rcases List.mem_cons.mp hrow with rfl | hrow
      · exact .inl rfl
      · cases hs : access.share with
        | none =>
          rw [hs] at hrow
          cases hrow
        | some ev =>
          rw [hs] at hrow
          rw [List.mem_singleton.mp hrow]
          exact .inr rfl
    exact (primaryRoutes_of x).shown p hp row.1 hlayer hcarries

/-! ### Measured effects -/

/-- What the name of an effect says of the rights before and after a removal. -/
def Says (before after : AccessMask) : RemovalEffect → Prop
  | .widensAccess => after &&& ~~~before ≠ 0
  | .revokesAccess => before ≠ 0 ∧ after = 0
  | .changesNothing => after = before
  | .narrowsAccess => after &&& ~~~before = 0 ∧ after ≠ before ∧ after ≠ 0

theorem within_iff (v w : AccessMask) :
    v &&& ~~~w = 0 ↔ ∀ b, v.getLsbD b = true → w.getLsbD b = true := by
  rw [zero_iff_bits]
  constructor
  · intro h b hv
    have hb := h b
    rw [BitVec.getLsbD_and, BitVec.getLsbD_not, hv] at hb
    simpa [BitVec.lt_of_getLsbD hv] using hb
  · intro h b
    rw [BitVec.getLsbD_and, BitVec.getLsbD_not]
    cases hv : v.getLsbD b with
    | false => simp
    | true => simp [h b hv]

/-- The effect that is named for the rights before and after. -/
def effectBetween (before after : AccessMask) : RemovalEffect :=
  if after &&& ~~~before ≠ 0 then .widensAccess
  else if before ≠ 0 ∧ after = 0 then .revokesAccess
  else if before &&& ~~~after = 0 then .changesNothing
  else .narrowsAccess

theorem effectBetween_says (before after : AccessMask) :
    Says before after (effectBetween before after) := by
  unfold effectBetween
  by_cases hadded : after &&& ~~~before = 0
  · rw [if_neg (not_not.mpr hadded)]
    by_cases hrevokes : before ≠ 0 ∧ after = 0
    · rw [if_pos hrevokes]
      exact hrevokes
    · rw [if_neg hrevokes]
      by_cases hremoved : before &&& ~~~after = 0
      · rw [if_pos hremoved]
        show after = before
        apply BitVec.eq_of_getLsbD_eq
        intro i _
        rw [Bool.eq_iff_iff]
        exact ⟨(within_iff _ _).mp hadded i,(within_iff _ _).mp hremoved i⟩
      · rw [if_neg hremoved]
        refine ⟨hadded,?_,?_⟩
        · rintro rfl
          exact hremoved hadded
        · intro hzero
          apply hrevokes
          refine ⟨?_,hzero⟩
          rintro rfl
          simp at hremoved
  · rw [if_pos hadded]
    exact hadded

theorem target_says {q : Question} {b : Builder} {edge : ExplanationEdge} {edgeId : String}
    {rights : RightsMask} (hanswer : q.access.rights.expandGenerics.value = q.access.rights.value) :
    Says q.access.rights.value rights.value (removalEffectOf (targetOf q b edge edgeId rights)) := by
  have hnamed : removalEffectOf (targetOf q b edge edgeId rights) =
      effectBetween q.access.rights.value rights.value := by
    unfold removalEffectOf targetOf effectBetween
    simp only [hanswer, RightsMask.isEmpty, EffectiveAccess.hasAccess, Bool.and_eq_true,
      Bool.not_eq_true', decide_eq_false_iff_not, decide_eq_true_eq, ne_eq]
  rw [hnamed]
  exact effectBetween_says _ _

/-- The effect named beside a route is the relation of the rights measured without its first edge
that can be deleted to the rights that are held. -/
theorem route_effect_measured (unidentified : List String)
    (hacc : resolveAccess token resource share fs = .ok access)
    (hexp : explainAccess access resource share edges limits = .ok x) :
    ∀ r ∈ (investigate x unidentified).primaryRoutes,
      (∀ t, r.removal = some t → t ∈ x.removalTargets ∧ r.removalEdgeId = some t.edgeId ∧
        ∃ effect, r.removalEffect = some effect ∧
          Says access.rights.value t.rightsAfter.value effect) ∧
      (r.removal = none → r.removalEdgeId = none ∧ r.removalEffect = none) := by
  intro r hr
  obtain ⟨b,b',-,htargets,haccess,-⟩ := explainAccess_ok hexp
  have hmem : r ∈ primaryRoutes x := by
    have hroutes : (investigate x unidentified).primaryRoutes =
      if presenceOf (classifyAccess x.access).outcome = .present then primaryRoutes x else [] := rfl
    rw [hroutes] at hr
    split at hr
    · exact hr
    · cases hr
  obtain ⟨p,-,-,hroute,-⟩ := layerRoute_some (mem_primaryRoutes.mp hmem).2
  have hremoval : r.removal = measuredRemoval x p := congrArg PrimaryRoute.removal hroute
  have hedge : r.removalEdgeId = (measuredRemoval x p).bind fun _ => firstRemovableEdge p x.graph :=
    congrArg PrimaryRoute.removalEdgeId hroute
  have heffect : r.removalEffect = (measuredRemoval x p).map removalEffectOf :=
    congrArg PrimaryRoute.removalEffect hroute
  rw [hremoval, hedge, heffect]
  constructor
  · intro t ht
    rw [ht]
    obtain ⟨edgeId,hfirst,hfound⟩ := Option.bind_eq_some_iff.mp ht
    have hin : t ∈ x.removalTargets :=
      List.mem_reverse.mp (List.mem_of_find?_eq_some hfound)
    have hid : t.edgeId = edgeId := by simpa using List.find?_some hfound
    refine ⟨hin,by rw [Option.bind_some, hfirst, hid],_,rfl,?_⟩
    rcases measureAll_mem htargets hin with hnone | ⟨id,-,hmeasured⟩
    · cases hnone
    · obtain ⟨edge,rights,-,-,rfl⟩ := measure_some hmeasured
      exact target_says (answer_expanded hacc)
  · intro hnone
    rw [hnone]
    exact ⟨rfl,rfl⟩

end Explained

/-! ### Open questions -/

section Questions

theorem impact_present (f : AccessFinding) :
    impactOf true f = .presence ↔ f.mayOverstate = true := by
  unfold impactOf
  cases f.mayOverstate <;> cases f.mayUnderstate <;> decide

theorem impact_otherwise (f : AccessFinding) :
    impactOf false f = if f.mayUnderstate then .presence else .none := rfl

theorem worst_bounds (questions : List OpenQuestion) :
    (∀ q ∈ questions, q.impact.rank ≤ (worstImpact questions).rank) ∧
      (worstImpact questions = .none ∨ ∃ q ∈ questions, q.impact = worstImpact questions) := by
  have hgraver : ∀ q best : OpenQuestion,
      best.impact.rank < q.impact.rank ↔ best.impact.rank < q.impact.rank := fun _ _ => Iff.rfl
  unfold worstImpact
  cases hbest : firstBest (fun q best : OpenQuestion => best.impact.rank < q.impact.rank)
      questions with
  | none =>
    rw [(firstBest_none hgraver).mp hbest]
    exact ⟨fun q hq => absurd hq List.not_mem_nil,.inl rfl⟩
  | some c =>
    obtain ⟨hfound,hall⟩ := firstBest_find hgraver hbest
    exact ⟨hall,.inr ⟨c,List.mem_of_find?_eq_some hfound,rfl⟩⟩

theorem worst_presence {questions : List OpenQuestion} :
    worstImpact questions = .presence ↔ ∃ q ∈ questions, q.impact = .presence := by
  obtain ⟨hall,hsome⟩ := worst_bounds questions
  constructor
  · intro h
    rw [h] at hsome
    exact hsome.resolve_left (by decide)
  · rintro ⟨q,hq,hpresence⟩
    have hrank := hall q hq
    rw [hpresence] at hrank
    cases hworst : worstImpact questions with
    | presence => rfl
    | extent =>
      rw [hworst] at hrank
      exact absurd hrank (by decide)
    | none =>
      rw [hworst] at hrank
      exact absurd hrank (by decide)

theorem hiding_found {findings : List AccessFinding}
    (h : certaintyOf findings ∈ understatingCertainties) :
    (∃ f ∈ findings, f.mayUnderstate = true) ∨
      ∃ f ∈ findings, f.condition = .indeterminateRights := by
  by_cases hunder : findings.any (·.mayUnderstate) = true
  · exact .inl (List.any_eq_true.mp hunder)
  · right
    by_contra hnone
    have hdetermined : findings.any (·.condition = .indeterminateRights) = false := by
      rw [← Bool.not_eq_true, List.any_eq_true]
      rintro ⟨f,hf,hc⟩
      exact hnone ⟨f,hf,by simpa using hc⟩
    rw [Bool.not_eq_true] at hunder
    unfold certaintyOf at h
    rw [hdetermined, hunder] at h
    revert h
    cases findings.any (·.mayOverstate) <;> decide

/-- What a reader of the open questions may rely on. -/
structure Weighed (access : EffectiveAccess) (i : Investigation) : Prop where
  /-- Every finding of the answer is weighed, in its order, and none outweighs the whole. -/
  findings : i.openQuestions.map (·.finding) = access.findings
  bounded : ∀ q ∈ i.openQuestions, q.impact.rank ≤ i.impact.rank
  /-- An access that is present rests on what could overstate it. -/
  present : i.presence = .present →
    (i.affectsConclusion = true ↔ ∃ f ∈ access.findings, f.mayOverstate = true)
  /-- An access that is absent is in no doubt. -/
  absent : i.presence = .absent → i.impact = .none
  /-- One that is undetermined has a finding that could hide a grant, or a mask that names no
  rights of its own. -/
  undetermined : i.presence = .undetermined →
    i.affectsConclusion = true ∨ ∃ f ∈ access.findings, f.condition = .indeterminateRights

variable {token : SubjectToken} {resource : ResourceDacl} {share : Option ShareDacl}
  {fs : List AccessFinding} {access : EffectiveAccess} {edges : List GraphEdge}
  {limits : ExplanationLimits} {x : AccessExplanation}

/-- The presence that is stated and the impact of the findings fit together. -/
theorem conclusion_rests (unidentified : List String)
    (hacc : resolveAccess token resource share fs = .ok access)
    (hexp : explainAccess access resource share edges limits = .ok x) :
    Weighed access (investigate x unidentified) := by
  obtain ⟨-,-,-,-,haccess,-⟩ := explainAccess_ok hexp
  have hcertainty := (resolveAccess_spec hacc).certainty
  have hpresence : (investigate x unidentified).presence = presenceOf (outcomeOf access) :=
    congrArg (fun a => presenceOf (outcomeOf a)) haccess
  have hquestions : (investigate x unidentified).openQuestions =
      access.findings.map (questionOf (presenceOf (outcomeOf access) = .present)) :=
    congrArg (fun a : EffectiveAccess =>
      a.findings.map (questionOf (presenceOf (outcomeOf a) = .present))) haccess
  have hworst : (investigate x unidentified).impact =
      worstImpact (investigate x unidentified).openQuestions := rfl
  have haffects : (investigate x unidentified).affectsConclusion = true ↔
      ∃ f ∈ access.findings,
        impactOf (presenceOf (outcomeOf access) = .present) f = .presence := by
    unfold Investigation.affectsConclusion
    rw [decide_eq_true_iff, hworst, worst_presence, hquestions]
    simp [questionOf]
  constructor
  case findings =>
    rw [hquestions, List.map_map]
    exact List.map_id _
  case bounded => exact (worst_bounds _).1
  case present =>
    intro h
    rw [haffects, ← hpresence, h]
    simp [impact_present]
  case absent =>
    intro h
    have hnone : ∀ f ∈ access.findings, f.mayUnderstate = false := by
      apply certain_hides_nothing
      rw [← hcertainty]
      intro hhides
      rw [hpresence] at h
      unfold outcomeOf at h
      rw [if_pos hhides] at h
      split at h <;> cases h
    have hquiet : ∀ q ∈ (investigate x unidentified).openQuestions, q.impact = .none := by
      intro q hq
      rw [hquestions, ← hpresence, h] at hq
      obtain ⟨f,hf,rfl⟩ := List.mem_map.mp hq
      show impactOf false f = .none
      rw [impact_otherwise, hnone f hf, if_neg Bool.false_ne_true]
    rw [hworst]
    rcases (worst_bounds (investigate x unidentified).openQuestions).2 with hworst | ⟨q,hq,hsame⟩
    · exact hworst
    · rw [← hsame]
      exact hquiet q hq
  case undetermined =>
    intro h
    have hhides : access.certainty ∈ understatingCertainties := by
      rw [hpresence] at h
      unfold outcomeOf at h
      split at h
      · cases h
      · split at h
        · assumption
        · split at h <;> cases h
    rw [hcertainty] at hhides
    rcases hiding_found hhides with ⟨f,hf,hunder⟩ | hindeterminate
    · left
      rw [haffects, ← hpresence, h]
      refine ⟨f,hf,?_⟩
      show impactOf false f = .presence
      rw [impact_otherwise, if_pos hunder]
    · exact .inr hindeterminate

end Questions

/-! ### Next steps -/

section Steps

theorem mem_rankedQuestions {questions : List OpenQuestion} {q : OpenQuestion} :
    q ∈ rankedQuestions questions ↔ q ∈ questions ∧ q.impact ≠ .none := by
  unfold rankedQuestions
  rw [mem_sortedBy, List.mem_filter, decide_eq_true_iff]

/-- The gravest questions come first. -/
theorem ranked_split {questions : List OpenQuestion}
    (hordered : questions.Pairwise fun a b => b.impact.rank ≤ a.impact.rank)
    (hopen : ∀ q ∈ questions, q.impact ≠ .none) :
    ∃ grave lesser, questions = grave ++ lesser ∧ (∀ q ∈ grave, q.impact = .presence) ∧
      ∀ q ∈ lesser, q.impact = .extent := by
  induction questions with
  | nil => exact ⟨[],[],rfl,by simp,by simp⟩
  | cons q rest ih =>
    obtain ⟨hq,hrest⟩ := List.pairwise_cons.mp hordered
    have hopen' : ∀ q ∈ rest, q.impact ≠ .none := fun a ha => hopen a (List.mem_cons_of_mem q ha)
    cases himpact : q.impact with
    | none => exact absurd himpact (hopen q List.mem_cons_self)
    | presence =>
      obtain ⟨grave,lesser,rfl,hgrave,hlesser⟩ := ih hrest hopen'
      refine ⟨q :: grave,lesser,rfl,fun a ha => ?_,hlesser⟩
      rcases List.mem_cons.mp ha with rfl | ha
      · exact himpact
      · exact hgrave a ha
    | extent =>
      refine ⟨[],q :: rest,rfl,by simp,fun a ha => ?_⟩
      rcases List.mem_cons.mp ha with rfl | ha
      · exact himpact
      · have hle := hq a ha
        rw [himpact] at hle
        cases ha' : a.impact with
        | none => exact absurd ha' (hopen' a ha)
        | extent => rfl
        | presence =>
          rw [ha'] at hle
          exact absurd hle (by decide)

/-- What a reader of the next steps may rely on. -/
structure StepsOf (unidentified : List String) (questions : List OpenQuestion)
    (routes : List PrimaryRoute) (steps : List NextStep) : Prop where
  once : (steps.map NextStep.key).Nodup
  answered : ∀ q ∈ questions, q.impact ≠ .none →
    ∃ s ∈ steps, s.key = (stepFor unidentified q).key
  cleaned : ∀ r ∈ routes, ∀ s, routeStep r = some s → ∃ s' ∈ steps, s'.key = s.key
  /-- What the conclusion rests on comes before its extent, and both before the routes. -/
  ordered : ∃ grave lesser clean, steps = grave ++ lesser ++ clean ∧
    (∀ s ∈ grave, ∃ q ∈ questions, q.impact = .presence ∧ s = stepFor unidentified q) ∧
    (∀ s ∈ lesser, ∃ q ∈ questions, q.impact = .extent ∧ s = stepFor unidentified q) ∧
    ∀ s ∈ clean, (∃ r ∈ routes, routeStep r = some s) ∨ s = { code := .inspectExplanation }
  /-- The whole explanation is named where there is nothing else, and only there. -/
  inspects : { code := .inspectExplanation } ∈ steps ↔
    (∀ q ∈ questions, q.impact = .none) ∧ ∀ r ∈ routes, routeStep r = none

theorem stepFor_inspects (unidentified : List String) (q : OpenQuestion) :
    stepFor unidentified q ≠ { code := .inspectExplanation } := by
  intro h
  have hcondition := congrArg NextStep.condition h
  cases hcondition

theorem routeStep_inspects {r : PrimaryRoute} {s : NextStep} (h : routeStep r = some s) :
    s ≠ { code := .inspectExplanation } := by
  rintro rfl
  unfold routeStep at h
  split at h
  · cases h
  · split at h <;> cases h

theorem nextSteps_of (unidentified : List String) (questions : List OpenQuestion)
    (routes : List PrimaryRoute) :
    StepsOf unidentified questions routes (nextStepsOf unidentified questions routes) := by
  let all := (rankedQuestions questions).map (stepFor unidentified) ++ routes.filterMap routeStep
  have hsteps : nextStepsOf unidentified questions routes =
      if firstOfEach NextStep.key all = [] then [{ code := .inspectExplanation }]
      else firstOfEach NextStep.key all := rfl
  have hquestion : ∀ q ∈ questions, q.impact ≠ .none → stepFor unidentified q ∈ all :=
    fun q hq hopen => List.mem_append_left _
      (List.mem_map_of_mem (mem_rankedQuestions.mpr ⟨hq,hopen⟩))
  have hroute : ∀ r ∈ routes, ∀ s, routeStep r = some s → s ∈ all :=
    fun r hr s hs => List.mem_append_right _ (List.mem_filterMap.mpr ⟨r,hr,hs⟩)
  have hcovers : ∀ s ∈ all, ∃ s' ∈ firstOfEach NextStep.key all, s'.key = s.key :=
    fun _ hs => firstOfEach_covers hs
  have hsublist : (firstOfEach NextStep.key all).Sublist all := firstOfEach_sublist all
  have hkept : ∀ s ∈ all, ∃ s' ∈ nextStepsOf unidentified questions routes, s'.key = s.key := by
    intro s hs
    obtain ⟨s',hs',hkey⟩ := hcovers s hs
    rw [hsteps, if_neg (List.ne_nil_of_mem hs')]
    exact ⟨s',hs',hkey⟩
  constructor
  case once =>
    rw [hsteps]
    split
    · exact List.nodup_singleton _
    · exact firstOfEach_apart all
  case answered => exact fun q hq hopen => hkept _ (hquestion q hq hopen)
  case cleaned => exact fun r hr s hs => hkept s (hroute r hr s hs)
  case ordered =>
    rw [hsteps]
    split
    · exact ⟨[],[],_,rfl,by simp,by simp,fun s hs => .inr (List.mem_singleton.mp hs)⟩
    · obtain ⟨hranked,hclean,hsplit,hsub,hsubclean⟩ :=
        List.sublist_append_iff.mp hsublist
      have hopen : ∀ q ∈ rankedQuestions questions, q.impact ≠ .none :=
        fun q hq => (mem_rankedQuestions.mp hq).2
      obtain ⟨grave,lesser,heq,hgrave,hlesser⟩ :=
        ranked_split (sortedBy_ordered (fun q : OpenQuestion => OrderDual.toDual q.impact.rank) _)
          hopen
      have hquestions : rankedQuestions questions = grave ++ lesser := heq
      rw [hquestions, List.map_append] at hsub
      obtain ⟨first,second,hfirst,hsubgrave,hsublesser⟩ := List.sublist_append_iff.mp hsub
      refine ⟨first,second,hclean,by rw [hsplit, hfirst],fun s hs => ?_,fun s hs => ?_,
        fun s hs => ?_⟩
      · obtain ⟨q,hq,rfl⟩ := List.mem_map.mp (hsubgrave.subset hs)
        have hmem : q ∈ rankedQuestions questions := hquestions ▸ List.mem_append_left _ hq
        exact ⟨q,(mem_rankedQuestions.mp hmem).1,hgrave q hq,rfl⟩
      · obtain ⟨q,hq,rfl⟩ := List.mem_map.mp (hsublesser.subset hs)
        have hmem : q ∈ rankedQuestions questions := hquestions ▸ List.mem_append_right _ hq
        exact ⟨q,(mem_rankedQuestions.mp hmem).1,hlesser q hq,rfl⟩
      · exact .inl (List.mem_filterMap.mp (hsubclean.subset hs))
  case inspects =>
    have hnot : { code := .inspectExplanation } ∉ all := by
      intro h
      rcases List.mem_append.mp h with h | h
      · obtain ⟨q,-,hq⟩ := List.mem_map.mp h
        exact stepFor_inspects unidentified q hq
      · obtain ⟨r,-,hr⟩ := List.mem_filterMap.mp h
        exact routeStep_inspects hr rfl
    constructor
    · intro h
      have hnil : all = [] := by
        by_contra hne
        obtain ⟨s,hs⟩ := List.exists_mem_of_ne_nil _ hne
        obtain ⟨s',hs',-⟩ := hcovers s hs
        rw [hsteps, if_neg (List.ne_nil_of_mem hs')] at h
        exact hnot (hsublist.subset h)
      constructor
      · intro q hq
        by_contra hopen
        have hmem := hquestion q hq hopen
        rw [hnil] at hmem
        cases hmem
      · intro r hr
        cases hs : routeStep r with
        | none => rfl
        | some s =>
          have hmem := hroute r hr s hs
          rw [hnil] at hmem
          cases hmem
    · rintro ⟨hquiet,hnone⟩
      have hnil : all = [] := by
        apply List.eq_nil_iff_forall_not_mem.mpr
        intro s hs
        rcases List.mem_append.mp hs with hs | hs
        · obtain ⟨q,hq,-⟩ := List.mem_map.mp hs
          obtain ⟨hq,hopen⟩ := mem_rankedQuestions.mp hq
          exact hopen (hquiet q hq)
        · obtain ⟨r,hr,hs⟩ := List.mem_filterMap.mp hs
          rw [hnone r hr] at hs
          cases hs
      rw [hsteps, hnil]
      exact List.mem_singleton_self _

/-- The next steps of an investigation answer its open questions and its routes. -/
theorem investigated_steps (x : AccessExplanation) (unidentified : List String) :
    StepsOf unidentified (investigate x unidentified).openQuestions
      (investigate x unidentified).primaryRoutes (investigate x unidentified).nextSteps :=
  nextSteps_of unidentified _ _

end Steps

/-! ### A folder its owner may read -/

namespace Sample
open Adg.Decomposition.Sample (folder aliceInFinance)
open Adg.FirstMatch.Sample (aliceToken)

theorem folder_explained : ∃ access x, resolveAccess aliceToken folder none [] = .ok access ∧
    explainAccess access folder none [aliceInFinance] {} = .ok x ∧ x.truncation = [] ∧
    access.hasAccess = true := by
  have hruns : (resolveAccess aliceToken folder none [] >>= fun access =>
      (explainAccess access folder none [aliceInFinance] {}).map fun x =>
        (x.truncation,access.hasAccess)) = .ok ([],true) := by decide
  obtain ⟨access,hacc,hmapped⟩ := bind_ok.mp hruns
  obtain ⟨x,hexp,hboth⟩ := mapped_ok.mp hmapped
  exact ⟨access,x,hacc,hexp,congrArg Prod.fst hboth,congrArg Prod.snd hboth⟩

theorem folder_routes : ∃ access x, resolveAccess aliceToken folder none [] = .ok access ∧
    explainAccess access folder none [aliceInFinance] {} = .ok x ∧
    RoutesOf x (investigate x []).primaryRoutes ∧
    ∃ r ∈ (investigate x []).primaryRoutes, r.layer = .ntfs := by
  obtain ⟨access,x,hacc,hexp,hcut,hheld⟩ := folder_explained
  obtain ⟨hroutes,hall⟩ := (investigated_routes [] hacc rfl hexp).2 hheld
  exact ⟨access,x,hacc,hexp,hroutes,
    hall (by rw [hcut]; decide) (.ntfs,access.ntfs) List.mem_cons_self⟩

theorem folder_effects : ∃ access x, resolveAccess aliceToken folder none [] = .ok access ∧
    explainAccess access folder none [aliceInFinance] {} = .ok x ∧
    ∀ r ∈ (investigate x []).primaryRoutes, ∀ t, r.removal = some t →
      ∃ effect, r.removalEffect = some effect ∧
        Says access.rights.value t.rightsAfter.value effect := by
  obtain ⟨access,x,hacc,hexp,-,-⟩ := folder_explained
  refine ⟨access,x,hacc,hexp,fun r hr t ht => ?_⟩
  exact ((route_effect_measured [] hacc hexp r hr).1 t ht).2.2

theorem folder_weighed : ∃ access x, resolveAccess aliceToken folder none [] = .ok access ∧
    explainAccess access folder none [aliceInFinance] {} = .ok x ∧
    Weighed access (investigate x []) := by
  obtain ⟨access,x,hacc,hexp,-,-⟩ := folder_explained
  exact ⟨access,x,hacc,hexp,conclusion_rests [] hacc hexp⟩

end Sample

end Adg.InvestigatedAnswers
