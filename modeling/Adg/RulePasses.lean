import Adg.ReproducedFindings

/-!
# Narrower passes

A pass over some of the rules, or with some of them turned off, finds what the
wider pass finds of the rules that still run, in the same order. Where a run
changed principals and memberships only, the rules it does not affect find what
they found before. The ledger of a pass accounts for every rule of the catalog
and for every finding.
-/

set_option autoImplicit false

namespace Adg.RulePasses
open Adg.Fallible Adg.SortedLists Adg.FindingModel Adg.FactBundles Adg.RuleSettings Adg.RiskRules
open Adg.RiskEngine

section Turns
variable {casefold sha256 : String → String} {f : RiskFacts} {c : RiskConfiguration}
variable {rules : Option (List RuleId)} {rule : RuleId}

/-- The entry of a rule that ran. -/
def ranWith (rule : RuleId) (found : List (RiskFinding sha256)) : RuleRun where
  ruleId := rule
  ran := true
  findings := found.length

/-- The entry of a rule that was passed over. -/
def passedOver (c : RiskConfiguration) (rule : RuleId) : RuleRun where
  ruleId := rule
  ran := false
  skippedBecause := some (if (forRule c rule).enabled then noDependency else disabledReason)

theorem turn_runs (h : Runs c rules rule) : turn casefold sha256 f c rules rule =
    (produced casefold sha256 f (forRule c rule) rule).map fun found =>
      (found,ranWith rule found) := by
  have hnamed : rules.any (fun named => !named.contains rule) = false := by
    cases rules with
    | none => rfl
    | some named => simpa using h.2 named rfl
  unfold turn
  simp only [h.1, hnamed, Bool.not_true, Bool.false_eq_true, if_false]
  cases produced casefold sha256 f (forRule c rule) rule <;> rfl

theorem turn_passes (h : ¬ Runs c rules rule) :
    turn casefold sha256 f c rules rule = .ok ([],passedOver c rule) := by
  unfold turn passedOver
  cases henabled : (forRule c rule).enabled with
  | false =>
    simp only [henabled, Bool.not_false, if_true]
    rfl
  | true =>
    have hnamed : rules.any (fun named => !named.contains rule) = true := by
      by_contra hall
      apply h
      refine ⟨henabled,fun named hmem => ?_⟩
      cases hmem
      simpa using hall
    simp only [henabled, hnamed, Bool.not_true, Bool.false_eq_true, if_false, if_true]
    rfl

/-- A pass is the turns of the rules, in catalog order. -/
theorem evaluate_turns {result : EvaluationResult sha256} :
    evaluate casefold sha256 f c rules = .ok result ↔
      ∃ g : RuleId → List (RiskFinding sha256) × RuleRun,
        (∀ rule, turn casefold sha256 f c rules rule = .ok (g rule)) ∧
        result = {
          findings := sortedBy (sortKey sha256) (RuleId.all.flatMap fun rule => (g rule).1)
          runs := RuleId.all.map fun rule => (g rule).2
          scope := f.scope
          configurationVersion := c.version } := by
  constructor
  · intro h
    obtain ⟨turns,hturns,h⟩ := bind_ok.mp h
    choose g hg using fun rule => mapM_each hturns rule (mem_ruleIds rule)
    have hall := mapM_of_ok (l := RuleId.all) fun rule _ => hg rule
    rw [hturns] at hall
    cases hall
    cases h
    refine ⟨g,hg,?_⟩
    simp only [List.flatMap_map, List.map_map, Function.comp_def]
  · rintro ⟨g,hg,rfl⟩
    apply bind_ok.mpr
    refine ⟨RuleId.all.map g,mapM_of_ok fun rule _ => hg rule,?_⟩
    simp only [List.flatMap_map, List.map_map, Function.comp_def]
    rfl

variable {g : RuleId → List (RiskFinding sha256) × RuleRun}

/-- What a turn gives. -/
theorem turn_gives (hg : turn casefold sha256 f c rules rule = .ok (g rule)) :
    (∀ finding ∈ (g rule).1, finding.ruleId = rule) ∧
      (g rule).2 = if Runs c rules rule then ranWith rule (g rule).1 else passedOver c rule := by
  by_cases hruns : Runs c rules rule
  · rw [turn_runs hruns] at hg
    cases hfound : produced casefold sha256 f (forRule c rule) rule with
    | error e =>
      rw [hfound] at hg
      cases hg
    | ok found =>
      rw [hfound] at hg
      have hpair : (found,ranWith rule found) = g rule := Except.ok.inj hg
      rw [← hpair, if_pos hruns]
      exact ⟨produced_rule hfound,rfl⟩
  · rw [turn_passes hruns] at hg
    have hpair : ([],passedOver c rule) = g rule := Except.ok.inj hg
    rw [← hpair, if_neg hruns]
    exact ⟨fun _ h => (List.not_mem_nil h).elim,rfl⟩

theorem turn_named (hg : turn casefold sha256 f c rules rule = .ok (g rule)) :
    (g rule).2.ruleId = rule ∧ (g rule).2.ran = decide (Runs c rules rule) ∧
      (g rule).2.findings = (g rule).1.length := by
  by_cases hruns : Runs c rules rule
  · rw [(turn_gives hg).2, if_pos hruns, decide_eq_true hruns]
    exact ⟨rfl,rfl,rfl⟩
  · have hnothing : g rule = ([],passedOver c rule) := by
      rw [turn_passes hruns] at hg
      exact (Except.ok.inj hg).symm
    rw [hnothing, decide_eq_false hruns]
    exact ⟨rfl,rfl,rfl⟩

end Turns

/-! ### Narrower passes -/

section Narrower
variable {casefold sha256 : String → String} {f : RiskFacts} {c : RiskConfiguration}
variable {rules : Option (List RuleId)} {result : EvaluationResult sha256}

theorem evaluated_rulesRun (h : evaluate casefold sha256 f c rules = .ok result) :
    result.rulesRun = RuleId.all.filter fun rule => decide (Runs c rules rule) := by
  obtain ⟨g,hg,rfl⟩ := evaluate_turns.mp h
  unfold EvaluationResult.rulesRun
  simp only [List.filter_map, List.map_map, Function.comp_def, fun rule => (turn_named (hg rule)).1,
    fun rule => (turn_named (hg rule)).2.1, List.map_id']

theorem finding_runs (h : evaluate casefold sha256 f c rules = .ok result)
    {finding : RiskFinding sha256} (hfinding : finding ∈ result.findings) :
    Runs c rules finding.ruleId := by
  obtain ⟨rule,found,hruns,hfound,hmem⟩ := (mem_evaluate h).mp hfinding
  rwa [produced_rule hfound finding hmem]

/-- A pass in which fewer rules run, and those with the same settings, finds what the wider pass
finds of them. -/
theorem narrowed {c' : RiskConfiguration} {rules' : Option (List RuleId)}
    (h : evaluate casefold sha256 f c rules = .ok result)
    (hfewer : ∀ rule, Runs c' rules' rule → Runs c rules rule ∧ forRule c' rule = forRule c rule) :
    ∃ part, evaluate casefold sha256 f c' rules' = .ok part ∧
      part.findings = result.findings.filter (fun x => decide (Runs c' rules' x.ruleId)) ∧
      part.rulesRun = result.rulesRun.filter fun rule => decide (Runs c' rules' rule) := by
  obtain ⟨g,hg,hresult⟩ := evaluate_turns.mp h
  let g' : RuleId → List (RiskFinding sha256) × RuleRun := fun rule =>
    if Runs c' rules' rule then g rule else ([],passedOver c' rule)
  have hg' : ∀ rule, turn casefold sha256 f c' rules' rule = .ok (g' rule) := by
    intro rule
    by_cases hruns : Runs c' rules' rule
    · obtain ⟨hwide,hsame⟩ := hfewer rule hruns
      have hturn := hg rule
      rw [turn_runs hwide] at hturn
      show _ = Except.ok (if _ then _ else _)
      rw [turn_runs hruns, hsame, hturn, if_pos hruns]
    · show _ = Except.ok (if _ then _ else _)
      rw [turn_passes hruns, if_neg hruns]
  have hpart := evaluate_turns.mpr ⟨g',hg',rfl⟩
  refine ⟨_,hpart,?_,?_⟩
  · have hkept : ∀ rule, (g' rule).1 =
        (g rule).1.filter fun x => decide (Runs c' rules' x.ruleId) := by
      intro rule
      have hown := (turn_gives (hg rule)).1
      show (if _ then _ else _ : List (RiskFinding sha256) × RuleRun).1 = _
      by_cases hruns : Runs c' rules' rule
      · rw [if_pos hruns]
        refine (List.filter_eq_self.mpr fun x hx => ?_).symm
        rw [hown x hx]
        exact decide_eq_true hruns
      · rw [if_neg hruns]
        refine (List.filter_eq_nil_iff.mpr fun x hx => ?_).symm
        rw [hown x hx]
        simpa using hruns
    rw [hresult]
    simp only [hkept]
    rw [sortedBy_filter, List.filter_flatMap]
  · rw [evaluated_rulesRun hpart, evaluated_rulesRun h, List.filter_filter]
    apply List.filter_congr
    intro rule _
    by_cases hruns : Runs c' rules' rule
    · simp [hruns, (hfewer rule hruns).1]
    · simp [hruns]

theorem runs_named {named : List RuleId} {rule : RuleId} :
    Runs c (some named) rule ↔ Runs c none rule ∧ rule ∈ named := by
  constructor
  · exact fun hr => ⟨⟨hr.1,fun _ hmem => by cases hmem⟩,hr.2 named rfl⟩
  · rintro ⟨hr,hmem⟩
    refine ⟨hr.1,fun named' h' => ?_⟩
    cases h'
    exact hmem

/-- A pass over the named rules finds exactly what the pass over all of them finds of these, in
the same order. -/
theorem selected_of_whole (named : List RuleId)
    (h : evaluate casefold sha256 f c none = .ok result) :
    ∃ part, evaluate casefold sha256 f c (some named) = .ok part ∧
      part.findings = result.findings.filter (fun x => named.contains x.ruleId) ∧
      part.rulesRun = result.rulesRun.filter fun rule => named.contains rule := by
  obtain ⟨part,hpart,hfindings,hrun⟩ := narrowed h fun rule hr => ⟨(runs_named.mp hr).1,rfl⟩
  refine ⟨part,hpart,?_,?_⟩
  · rw [hfindings]
    apply List.filter_congr
    intro x hx
    simp [runs_named, finding_runs h hx]
  · rw [hrun]
    apply List.filter_congr
    intro rule hrule
    rw [evaluated_rulesRun h] at hrule
    simp [runs_named, of_decide_eq_true (List.mem_filter.mp hrule).2]

/-- Turning rules off takes their findings away and changes nothing else that is found. -/
theorem turned_off (off : List RuleId)
    (h : evaluate casefold sha256 f c rules = .ok result) :
    ∃ part, evaluate casefold sha256 f { c with disabledRules := off ++ c.disabledRules } rules =
        .ok part ∧
      part.findings = result.findings.filter (fun x => !off.contains x.ruleId) ∧
      part.rulesRun = result.rulesRun.filter fun rule => !off.contains rule := by
  have hsettings : ∀ rule, rule ∉ off →
      forRule { c with disabledRules := off ++ c.disabledRules } rule = forRule c rule := by
    intro rule hrule
    simp [forRule, hrule]
  have hruns : ∀ rule, Runs { c with disabledRules := off ++ c.disabledRules } rules rule ↔
      Runs c rules rule ∧ rule ∉ off := by
    intro rule
    by_cases hrule : rule ∈ off
    · simp [Runs, forRule, hrule]
    · unfold Runs
      rw [hsettings rule hrule]
      simp [hrule]
  obtain ⟨part,hpart,hfindings,hrun⟩ := narrowed h fun rule hr =>
    ⟨((hruns rule).mp hr).1,hsettings rule ((hruns rule).mp hr).2⟩
  refine ⟨part,hpart,?_,?_⟩
  · rw [hfindings]
    apply List.filter_congr
    intro x hx
    simp [hruns, finding_runs h hx]
  · rw [hrun]
    apply List.filter_congr
    intro rule hrule
    rw [evaluated_rulesRun h] at hrule
    simp [hruns, of_decide_eq_true (List.mem_filter.mp hrule).2]

/-! ### What an incremental pass leaves standing -/

/-- A bundle that differs from another in its principals and its memberships at most, and in each
of these only where its kind is named. -/
structure Untouched (changed : List FactKind) (f f' : RiskFacts) : Prop where
  resources : f'.resources = f.resources
  shares : f'.shares = f.shares
  principals : .principal ∉ changed → f'.principals = f.principals
  memberships : .membershipEdge ∉ changed → f'.memberships = f.memberships

section Incremental
variable {changed : List FactKind} {f' : RiskFacts} {rule : RuleId}

theorem walk_scope (scope : RiskScope) {n : ℕ} {node : String} {visited : List String}
    {walked : List RiskRecords.MembershipFacts} {truncated : Bool} :
    { f with scope := scope }.walk n node visited walked truncated =
      f.walk n node visited walked truncated := by
  induction n generalizing node visited walked truncated with
  | zero => rfl
  | succ n ih =>
    unfold RiskFacts.walk
    simp only [ih]
    rfl

theorem chainsDown_scope (scope : RiskScope) (t : String) (depth : ℤ) :
    { f with scope := scope }.chainsDown t depth = f.chainsDown t depth := walk_scope scope

/-- No rule reads what a bundle covers. -/
theorem scope_unread (scope : RiskScope) (config : RuleConfig) (rule : RuleId) :
    evaluateRule casefold { f with scope := scope } config rule =
      evaluateRule casefold f config rule := by
  cases rule with
  | everyoneBroadAccess | authenticatedUsersBroadAccess | domainUsersBroadAccess | directUserAce
  | unresolvedSidOnAcl | brokenInheritance | emptyPermissionBearingGroup
  | broadAccessOnSensitiveResource => rfl
  | disabledPrincipalRetainsAccess =>
    have hbelow : ∀ t depth, disabledBelow { f with scope := scope } t depth =
        disabledBelow f t depth := by
      intro t depth
      unfold disabledBelow
      rw [chainsDown_scope]
      rfl
    show disabledPrincipalRetainsAccess _ config = disabledPrincipalRetainsAccess f config
    unfold disabledPrincipalRetainsAccess
    simp only [hbelow]
    rfl
  | deepGroupNesting =>
    have houtcome : ∀ maximum t lists, deepOutcome { f with scope := scope } config maximum t lists =
        deepOutcome f config maximum t lists := by
      intro maximum t lists
      unfold deepOutcome deepest
      rw [chainsDown_scope]
      rfl
    show deepGroupNesting _ config = deepGroupNesting f config
    unfold deepGroupNesting
    simp only [houtcome]
    rfl
  | redundantAccessPaths =>
    have hchains : ∀ depth t, chainsToMembers { f with scope := scope } depth t =
        chainsToMembers f depth t := by
      intro depth t
      unfold chainsToMembers
      rw [chainsDown_scope]
      rfl
    have houtcome : ∀ minimum depth acl, redundantOutcome { f with scope := scope } config minimum
        depth acl = redundantOutcome f config minimum depth acl := by
      intro minimum depth acl
      funext member
      unfold redundantOutcome routesTo
      simp only [hchains]
      rfl
    show redundantAccessPaths _ config = redundantAccessPaths f config
    unfold redundantAccessPaths reachedMembers
    simp only [hchains, houtcome]
    rfl

/-- A rule reads no principal and no membership that it does not depend on. -/
theorem unaffected_reads (h : Untouched changed f f') (hrule : rule ∉ rulesAffectedBy changed)
    (config : RuleConfig) :
    evaluateRule casefold f' config rule = evaluateRule casefold f config rule := by
  have hkinds : ∀ kind ∈ (definitionFor rule).dependsOn, kind ∉ changed := by
    intro kind hkind hchanged
    apply hrule
    exact List.mem_filter.mpr
      ⟨mem_ruleIds rule,List.any_eq_true.mpr ⟨kind,hkind,by simpa using hchanged⟩⟩
  obtain ⟨resources,shares,principals,memberships,scope⟩ := f
  obtain ⟨resources',shares',principals',memberships',scope'⟩ := f'
  obtain ⟨hresources,hshares,hprincipals,hmemberships⟩ := h
  cases hresources
  cases hshares
  cases rule with
  -- these read the lists only
  | everyoneBroadAccess | authenticatedUsersBroadAccess | domainUsersBroadAccess
  | brokenInheritance | broadAccessOnSensitiveResource => rfl
  | directUserAce | unresolvedSidOnAcl =>
    cases hprincipals (hkinds .principal (by decide))
    rfl
  | disabledPrincipalRetainsAccess | deepGroupNesting | redundantAccessPaths
  | emptyPermissionBearingGroup =>
    cases hprincipals (hkinds .principal (by decide))
    cases hmemberships (hkinds .membershipEdge (by decide))
    exact scope_unread (f := ⟨resources,shares,principals,memberships,scope⟩) scope' config _

theorem unaffected_turn (h : Untouched changed f f') (hrule : rule ∉ rulesAffectedBy changed) :
    turn casefold sha256 f' c rules rule = turn casefold sha256 f c rules rule := by
  have hproduced : ∀ config, produced casefold sha256 f' config rule =
      produced casefold sha256 f config rule := by
    intro config
    unfold produced
    rw [unaffected_reads h hrule]
  unfold turn
  simp only [hproduced]

theorem left_standing (h : Untouched changed f f') {before after : EvaluationResult sha256}
    (hbefore : evaluate casefold sha256 f c rules = .ok before)
    (hafter : evaluate casefold sha256 f' c rules = .ok after) :
    after.findings.filter (fun x => !(rulesAffectedBy changed).contains x.ruleId) =
      before.findings.filter fun x => !(rulesAffectedBy changed).contains x.ruleId := by
  obtain ⟨g,hg,rfl⟩ := evaluate_turns.mp hbefore
  obtain ⟨g',hg',rfl⟩ := evaluate_turns.mp hafter
  have hsame : ∀ rule,
      (g' rule).1.filter (fun x => !(rulesAffectedBy changed).contains x.ruleId) =
        (g rule).1.filter fun x => !(rulesAffectedBy changed).contains x.ruleId := by
    intro rule
    by_cases hrule : rule ∈ rulesAffectedBy changed
    · have hnone : ∀ found : List (RiskFinding sha256), (∀ x ∈ found, x.ruleId = rule) →
          found.filter (fun x => !(rulesAffectedBy changed).contains x.ruleId) = [] := by
        intro found hfound
        apply List.filter_eq_nil_iff.mpr
        intro x hx
        simpa [hfound x hx] using hrule
      rw [hnone _ (turn_gives (hg rule)).1, hnone _ (turn_gives (hg' rule)).1]
    · have hturn := hg' rule
      rw [unaffected_turn h hrule, hg rule] at hturn
      rw [Except.ok.inj hturn]
  simp only [sortedBy_filter, List.filter_flatMap, hsame]

/-- After a run that changed principals and memberships at most, what a pass over the affected
rules finds and what the others found before make up what a pass over all of them would find. -/
theorem incremental_exact (h : Untouched changed f f') {before after : EvaluationResult sha256}
    (hbefore : evaluate casefold sha256 f c none = .ok before)
    (hafter : evaluate casefold sha256 f' c none = .ok after) :
    ∃ part, evaluate casefold sha256 f' c (some (rulesAffectedBy changed)) = .ok part ∧
      (part.findings ++ before.findings.filter
        fun x => !(rulesAffectedBy changed).contains x.ruleId).Perm after.findings := by
  have hfewer : ∀ rule, Runs c (some (rulesAffectedBy changed)) rule →
      Runs c none rule ∧ forRule c rule = forRule c rule :=
    fun rule hr => ⟨(runs_named.mp hr).1,rfl⟩
  obtain ⟨part,hpart,hfindings,-⟩ := narrowed hafter hfewer
  have hnamed : part.findings =
      after.findings.filter fun x => (rulesAffectedBy changed).contains x.ruleId := by
    rw [hfindings]
    apply List.filter_congr
    intro x hx
    simp [runs_named, finding_runs hafter hx]
  refine ⟨part,hpart,?_⟩
  rw [hnamed, ← left_standing h hbefore hafter]
  exact List.filter_append_perm _ _

end Incremental

/-! ### The ledger -/

/-- What a reader of the ledger may rely on. -/
structure Accounted (c : RiskConfiguration) (rules : Option (List RuleId))
    (result : EvaluationResult sha256) : Prop where
  catalog : result.runs.map (·.ruleId) = RuleId.all
  decided : ∀ run ∈ result.runs, run.ran = true ↔ Runs c rules run.ruleId
  /-- A reason is given exactly for the rules that were passed over, and it is the first that
  applies. -/
  excused : ∀ run ∈ result.runs, run.skippedBecause =
    if run.ran then none
    else some (if (forRule c run.ruleId).enabled then noDependency else disabledReason)
  counted : ∀ run ∈ result.runs, run.findings =
    (result.findings.filter fun x => x.ruleId = run.ruleId).length
  total : (result.runs.map (·.findings)).sum = result.findings.length
  ordered : result.findings.Pairwise fun x y => sortKey sha256 x ≤ sortKey sha256 y

theorem evaluated_accounted (h : evaluate casefold sha256 f c rules = .ok result) :
    Accounted c rules result := by
  obtain ⟨g,hg,rfl⟩ := evaluate_turns.mp h
  have hname := fun rule => (turn_named (hg rule)).1
  have hran := fun rule => (turn_named (hg rule)).2.1
  have hcount := fun rule => (turn_named (hg rule)).2.2
  constructor
  case catalog => simp only [List.map_map, Function.comp_def, hname, List.map_id']
  case decided =>
    intro run hrun
    obtain ⟨rule,-,rfl⟩ := List.mem_map.mp hrun
    rw [hran, hname, decide_eq_true_iff]
  case excused =>
    intro run hrun
    obtain ⟨rule,-,rfl⟩ := List.mem_map.mp hrun
    by_cases hruns : Runs c rules rule
    · rw [(turn_gives (hg rule)).2, if_pos hruns]
      rfl
    · rw [(turn_gives (hg rule)).2, if_neg hruns]
      rfl
  case counted =>
    intro run hrun
    obtain ⟨rule,hrule,rfl⟩ := List.mem_map.mp hrun
    rw [hcount, hname, sortedBy_filter, sortedBy_length]
    have hown := @StoredFacts.flatMap_own RuleId (RiskFinding sha256) RuleId _ id (·.ruleId)
      (fun rule => (g rule).1) RuleId.all (by decide) (fun rule _ => (turn_gives (hg rule)).1)
      rule hrule
    exact (congrArg List.length hown).symm
  case total =>
    rw [sortedBy_length, List.length_flatMap, List.map_map]
    simp only [Function.comp_def, hcount]
  case ordered => exact sortedBy_ordered _ _

end Narrower

/-! ### A bundle with a disabled group -/

namespace Sample
open Adg.ReproducedFindings.Sample (nested shallow)

theorem nested_whole : ∃ whole, evaluate id id nested shallow none = .ok whole := by
  have hok : (evaluate id id nested shallow none).isOk = true := by decide +kernel
  cases hresult : evaluate id id nested shallow none with
  | error e =>
    rw [hresult] at hok
    cases hok
  | ok result => exact ⟨result,rfl⟩

theorem nested_selected : ∃ whole part, evaluate id id nested shallow none = .ok whole ∧
    evaluate id id nested shallow (some [.disabledPrincipalRetainsAccess]) = .ok part ∧
    part.findings = whole.findings.filter
      (fun x => [RuleId.disabledPrincipalRetainsAccess].contains x.ruleId) ∧
    part.rulesRun = whole.rulesRun.filter
      fun rule => [RuleId.disabledPrincipalRetainsAccess].contains rule := by
  obtain ⟨whole,hwhole⟩ := nested_whole
  obtain ⟨part,hpart⟩ := selected_of_whole [.disabledPrincipalRetainsAccess] hwhole
  exact ⟨whole,part,hwhole,hpart⟩

theorem nested_turned_off : ∃ whole part, evaluate id id nested shallow none = .ok whole ∧
    evaluate id id nested
      { shallow with disabledRules := [.disabledPrincipalRetainsAccess] ++ [] } none = .ok part ∧
    part.findings = whole.findings.filter
      (fun x => !([RuleId.disabledPrincipalRetainsAccess].contains x.ruleId)) ∧
    part.rulesRun = whole.rulesRun.filter
      fun rule => !([RuleId.disabledPrincipalRetainsAccess].contains rule) := by
  obtain ⟨whole,hwhole⟩ := nested_whole
  obtain ⟨part,hpart⟩ := turned_off [.disabledPrincipalRetainsAccess] hwhole
  exact ⟨whole,part,hwhole,hpart⟩

/-- The bundle once its principals are no longer described. -/
def undescribed : RiskFacts := { nested with principals := [] }

theorem nested_incremental : ∃ before after part,
    evaluate id id nested shallow none = .ok before ∧
    evaluate id id undescribed shallow none = .ok after ∧
    evaluate id id undescribed shallow (some (rulesAffectedBy [.principal])) = .ok part ∧
    (part.findings ++ before.findings.filter
      fun x => !(rulesAffectedBy [.principal]).contains x.ruleId).Perm after.findings := by
  have hok : (evaluate id id undescribed shallow none).isOk = true := by decide +kernel
  obtain ⟨before,hbefore⟩ := nested_whole
  cases hafter : evaluate id id undescribed shallow none with
  | error e =>
    rw [hafter] at hok
    cases hok
  | ok after =>
    have huntouched : Untouched [.principal] nested undescribed :=
      ⟨rfl,rfl,fun h => absurd (List.mem_singleton_self _) h,fun _ => rfl⟩
    obtain ⟨part,hpart⟩ := incremental_exact huntouched hbefore hafter
    exact ⟨before,after,part,hbefore,rfl,hpart⟩

theorem nested_accounted : ∃ whole, evaluate id id nested shallow none = .ok whole ∧
    Accounted shallow none whole := by
  obtain ⟨whole,hwhole⟩ := nested_whole
  exact ⟨whole,hwhole,evaluated_accounted hwhole⟩

end Sample

end Adg.RulePasses
