import Adg.Fallible
import Adg.RiskRules

/-!
# Evaluating the rules

A pass runs the enabled rules over one bundle in catalog order and sorts what
they found, the most severe first. Running some of the rules finds exactly what
the whole pass finds of them, in the same order.
-/

set_option autoImplicit false

namespace Adg.RiskEngine
open Adg.Observation Adg.Fallible Adg.SortedLists Adg.FindingModel Adg.FactBundles Adg.RiskEvidence
open Adg.RuleSettings Adg.RiskRules

variable (casefold sha256 : String → String)

/-! ### Findings -/

/-- A set of qualifiers by their values. -/
def sortedQualifiers (qualifiers : Finset FactQualifier) : List FactQualifier :=
  [FactQualifier.aceCountShort, .aclDerived, .aclDerivedDistant, .membershipTruncated,
    .membershipUnobserved, .principalUndescribed].filter (· ∈ qualifiers)

/-- `RiskFinding.build`, of an outcome and the severity that was assigned. -/
def findingOf (definition : RuleDefinition) (severity : Severity) (o : RuleOutcome) :
    RiskFinding sha256 where
  ruleId := definition.id
  ruleVersion := definition.version
  key := findingKey sha256 definition.id o.subject
  subject := o.subject
  band := o.band
  severity := severity
  confidence := confidenceOf (sortedQualifiers o.qualifiers)
  qualifiers := sortedQualifiers o.qualifiers
  evidence := o.evidence
  detail := o.detail
  keyed := rfl
  derived := rfl

/-- `SEVERITY_ORDER`. -/
def severityOrder : Severity → ℤ
  | .informational => 0
  | .low => 1
  | .medium => 2
  | .high => 3
  | .critical => 4

/-- `sort_key`. -/
def sortKey (finding : RiskFinding sha256) : ℤ ×ₗ (ℤ ×ₗ (String ×ₗ String)) :=
  toLex (-severityOrder finding.severity,toLex (-(finding.confidence.order : ℤ),
    toLex (finding.ruleId.value,finding.key)))

/-! ### A pass -/

structure RuleRun where
  ruleId : RuleId
  ran : Bool
  findings : ℕ := 0
  skippedBecause : Option String := none
  deriving DecidableEq

structure EvaluationResult where
  findings : List (RiskFinding sha256)
  runs : List RuleRun
  scope : RiskScope
  configurationVersion : String

namespace EvaluationResult
variable {sha256}

def rulesRun (r : EvaluationResult sha256) : List RuleId := (r.runs.filter (·.ran)).map (·.ruleId)

def rulesSkipped (r : EvaluationResult sha256) : List RuleId :=
  (r.runs.filter fun run => !run.ran).map (·.ruleId)

end EvaluationResult

def disabledReason : String := "disabled by configuration"
def noDependency : String := "no fact it depends on changed"

/-- What one rule finds. -/
def produced (f : RiskFacts) (config : RuleConfig) (rule : RuleId) :
    Except DomainError (List (RiskFinding sha256)) := do
  let outcomes ← evaluateRule casefold f config rule
  outcomes.mapM fun o => do
    let severity ← config.severityFor o.band
    return findingOf sha256 config.definition severity o

/-- The turn of one rule in a pass. -/
def turn (f : RiskFacts) (c : RiskConfiguration) (rules : Option (List RuleId)) (rule : RuleId) :
    Except DomainError (List (RiskFinding sha256) × RuleRun) := do
  let config := forRule c rule
  if !config.enabled then
    return ([],{ ruleId := rule, ran := false, skippedBecause := disabledReason })
  if rules.any fun named => !named.contains rule then
    return ([],{ ruleId := rule, ran := false, skippedBecause := noDependency })
  let found ← produced casefold sha256 f config rule
  return (found,{ ruleId := rule, ran := true, findings := found.length })

/-- `evaluate`. -/
def evaluate (f : RiskFacts) (c : RiskConfiguration) (rules : Option (List RuleId)) :
    Except DomainError (EvaluationResult sha256) := do
  let turns ← RuleId.all.mapM (turn casefold sha256 f c rules)
  return {
    findings := sortedBy (sortKey sha256) (turns.flatMap (·.1))
    runs := turns.map (·.2)
    scope := f.scope
    configurationVersion := c.version }

/-- The first of some outcomes that makes a finding of the given key. -/
def firstWith (config : RuleConfig) (key : String) :
    List RuleOutcome → Except DomainError (Option (RiskFinding sha256))
  | [] => return none
  | o :: rest => do
    let severity ← config.severityFor o.band
    let candidate := findingOf sha256 config.definition severity o
    if candidate.key = key then
      return some candidate
    firstWith config key rest

/-- `reproduce`. -/
def reproduce (finding : RiskFinding sha256) (c : RiskConfiguration) :
    Except DomainError (Option (RiskFinding sha256)) := do
  match rebuildFacts finding.evidence with
  | none => throw { message := "The evidence does not hold records." }
  | some f =>
    let config := forRule c finding.ruleId
    let outcomes ← evaluateRule casefold f config finding.ruleId
    firstWith sha256 config finding.key outcomes

/-! ### What a pass finds -/

section Passes
variable {casefold sha256} {f : RiskFacts} {c : RiskConfiguration}

/-- Whether a rule runs in a pass over the named rules. -/
def Runs (c : RiskConfiguration) (rules : Option (List RuleId)) (rule : RuleId) : Prop :=
  (forRule c rule).enabled = true ∧ ∀ named ∈ rules, rule ∈ named

instance (c : RiskConfiguration) (rules : Option (List RuleId)) (rule : RuleId) :
    Decidable (Runs c rules rule) := inferInstanceAs (Decidable (_ ∧ _))

theorem produced_ok {config : RuleConfig} {rule : RuleId} {found : List (RiskFinding sha256)} :
    produced casefold sha256 f config rule = .ok found ↔
      ∃ outcomes, evaluateRule casefold f config rule = .ok outcomes ∧
        List.Forall₂ (fun o finding => ∃ severity, config.severityFor o.band = .ok severity ∧
          finding = findingOf sha256 config.definition severity o) outcomes found := by
  unfold produced
  rw [bind_ok]
  apply exists_congr
  intro outcomes
  apply and_congr_right
  intro _
  rw [mapM_forall₂]
  apply iff_of_eq
  congr 1
  funext o finding
  apply propext
  rw [bind_ok]
  apply exists_congr
  intro severity
  apply and_congr_right
  intro _
  constructor
  · intro h
    cases h
    rfl
  · rintro rfl
    rfl

theorem turn_ok {rules : Option (List RuleId)} {rule : RuleId}
    {t : List (RiskFinding sha256) × RuleRun} (h : turn casefold sha256 f c rules rule = .ok t) :
    (Runs c rules rule → produced casefold sha256 f (forRule c rule) rule = .ok t.1 ∧
      t.2 = { ruleId := rule, ran := true, findings := t.1.length }) ∧
    (¬ Runs c rules rule → t.1 = [] ∧ t.2.ruleId = rule ∧ t.2.ran = false ∧ t.2.findings = 0) := by
  unfold turn at h
  by_cases henabled : (forRule c rule).enabled = true
  · by_cases hnamed : rules.any (fun named => !named.contains rule) = true
    · simp only [henabled, Bool.not_true, Bool.false_eq_true, if_false, hnamed, if_true] at h
      cases h
      constructor
      · intro hruns
        exfalso
        cases rules with
        | none => simp at hnamed
        | some named => simp [hruns.2 named rfl] at hnamed
      · exact fun _ => ⟨rfl,rfl,rfl,rfl⟩
    · simp only [henabled, Bool.not_true, Bool.false_eq_true, if_false, hnamed] at h
      obtain ⟨found,hfound,h⟩ := bind_ok.mp h
      cases h
      constructor
      · exact fun _ => ⟨hfound,rfl⟩
      · intro hruns
        exfalso
        apply hruns
        refine ⟨henabled,fun named hmem => ?_⟩
        cases hmem
        simpa using hnamed
  · simp only [henabled, Bool.not_false, if_true] at h
    cases h
    exact ⟨fun hruns => absurd hruns.1 henabled,fun _ => ⟨rfl,rfl,rfl,rfl⟩⟩

/-- What was produced carries the rule. -/
theorem produced_rule {rule : RuleId} {found : List (RiskFinding sha256)}
    (h : produced casefold sha256 f (forRule c rule) rule = .ok found) :
    ∀ finding ∈ found, finding.ruleId = rule := by
  obtain ⟨outcomes,-,hfound⟩ := produced_ok.mp h
  clear h
  intro finding hfinding
  induction hfound with
  | nil => cases hfinding
  | cons hbuilt _ ih =>
    rcases List.mem_cons.mp hfinding with rfl | hrest
    · obtain ⟨severity,-,rfl⟩ := hbuilt
      exact definitionFor_id rule
    · exact ih hrest

theorem mem_ruleIds (rule : RuleId) : rule ∈ RuleId.all := by
  cases rule <;> decide

theorem produced_of_runs {rules : Option (List RuleId)} {result : EvaluationResult sha256}
    (h : evaluate casefold sha256 f c rules = .ok result) {rule : RuleId}
    (hruns : Runs c rules rule) :
    ∃ found, produced casefold sha256 f (forRule c rule) rule = .ok found := by
  obtain ⟨turns,hturns,-⟩ := bind_ok.mp h
  obtain ⟨t,-,hturn⟩ := mapM_mem hturns (mem_ruleIds rule)
  exact ⟨t.1,((turn_ok hturn).1 hruns).1⟩

/-- The findings of a pass are what the rules that ran produced. -/
theorem mem_evaluate {rules : Option (List RuleId)} {result : EvaluationResult sha256}
    (h : evaluate casefold sha256 f c rules = .ok result) {finding : RiskFinding sha256} :
    finding ∈ result.findings ↔ ∃ rule found, Runs c rules rule ∧
      produced casefold sha256 f (forRule c rule) rule = .ok found ∧ finding ∈ found := by
  obtain ⟨turns,hturns,h⟩ := bind_ok.mp h
  cases h
  show finding ∈ sortedBy (sortKey sha256) (turns.flatMap (·.1)) ↔ _
  rw [mem_sortedBy, List.mem_flatMap]
  constructor
  · rintro ⟨t,ht,hfinding⟩
    obtain ⟨rule,-,hturn⟩ := mem_mapM hturns ht
    obtain ⟨hruns,hskips⟩ := turn_ok hturn
    by_cases hrule : Runs c rules rule
    · exact ⟨rule,t.1,hrule,(hruns hrule).1,hfinding⟩
    · rw [(hskips hrule).1] at hfinding
      cases hfinding
  · rintro ⟨rule,found,hrule,hfound,hfinding⟩
    obtain ⟨t,ht,hturn⟩ := mapM_mem hturns (mem_ruleIds rule)
    have hproduced := ((turn_ok hturn).1 hrule).1
    rw [hfound] at hproduced
    cases hproduced
    exact ⟨t,ht,hfinding⟩

/-- A finding of a pass is made of an outcome of its rule. -/
theorem mem_produced {config : RuleConfig} {rule : RuleId} {found : List (RiskFinding sha256)}
    (h : produced casefold sha256 f config rule = .ok found) {finding : RiskFinding sha256}
    (hfinding : finding ∈ found) : ∃ outcomes, evaluateRule casefold f config rule = .ok outcomes ∧
      ∃ o ∈ outcomes, ∃ severity, config.severityFor o.band = .ok severity ∧
        finding = findingOf sha256 config.definition severity o := by
  obtain ⟨outcomes,hout,h⟩ := bind_ok.mp h
  obtain ⟨o,ho,h⟩ := mem_mapM h hfinding
  obtain ⟨severity,hseverity,h⟩ := bind_ok.mp h
  cases h
  exact ⟨outcomes,hout,o,ho,severity,hseverity,rfl⟩

/-- Every outcome of a rule that ran is made into a finding. -/
theorem produced_mem {config : RuleConfig} {rule : RuleId} {found : List (RiskFinding sha256)}
    (h : produced casefold sha256 f config rule = .ok found) {outcomes : List RuleOutcome}
    (hout : evaluateRule casefold f config rule = .ok outcomes) {o : RuleOutcome}
    (ho : o ∈ outcomes) : ∃ severity, config.severityFor o.band = .ok severity ∧
      findingOf sha256 config.definition severity o ∈ found := by
  obtain ⟨outcomes',hout',h⟩ := bind_ok.mp h
  rw [hout] at hout'
  cases hout'
  obtain ⟨finding,hfinding,hmade⟩ := mapM_mem h ho
  obtain ⟨severity,hseverity,hmade⟩ := bind_ok.mp hmade
  cases hmade
  exact ⟨severity,hseverity,hfinding⟩

/-! ### Looking for a key -/

/-- A finding made of an outcome is looked for among what its rule reports over its evidence. -/
theorem reproduce_eq {rule : RuleId} {severity : Severity} {o : RuleOutcome} {g : RiskFacts}
    (h : rebuildFacts o.evidence = some g) :
    reproduce casefold sha256 (findingOf sha256 (forRule c rule).definition severity o) c =
      (evaluateRule casefold g (forRule c rule) rule >>=
        firstWith sha256 (forRule c rule) (findingKey sha256 rule o.subject)) := by
  have hrebuilt : rebuildFacts
      (findingOf sha256 (forRule c rule).definition severity o).evidence = some g := h
  unfold reproduce
  rw [hrebuilt]
  cases rule <;> rfl

theorem firstWith_some {config : RuleConfig} {key : String} {outcomes : List RuleOutcome}
    {candidate : RiskFinding sha256}
    (h : firstWith sha256 config key outcomes = .ok (some candidate)) :
    ∃ o ∈ outcomes, ∃ severity, config.severityFor o.band = .ok severity ∧
      candidate = findingOf sha256 config.definition severity o ∧ candidate.key = key := by
  induction outcomes with
  | nil => cases h
  | cons o rest ih =>
    rw [firstWith] at h
    obtain ⟨severity,hseverity,h⟩ := bind_ok.mp h
    by_cases hkey : (findingOf sha256 config.definition severity o).key = key
    · simp only [hkey, if_true] at h
      cases h
      exact ⟨o,List.mem_cons_self,severity,hseverity,rfl,hkey⟩
    · simp only [hkey, if_false] at h
      obtain ⟨o',ho',hrest⟩ := ih h
      exact ⟨o',List.mem_cons_of_mem o ho',hrest⟩

theorem firstWith_returns {config : RuleConfig} {key : String} {outcomes : List RuleOutcome}
    (hbands : ∀ o ∈ outcomes, ∃ severity, config.severityFor o.band = .ok severity)
    (hmatch : ∃ o ∈ outcomes, findingKey sha256 config.definition.id o.subject = key) :
    ∃ candidate, firstWith sha256 config key outcomes = .ok (some candidate) := by
  induction outcomes with
  | nil =>
    obtain ⟨_,hnone,-⟩ := hmatch
    cases hnone
  | cons o rest ih =>
    obtain ⟨severity,hseverity⟩ := hbands o List.mem_cons_self
    rw [firstWith, hseverity]
    by_cases hkey : (findingOf sha256 config.definition severity o).key = key
    · exact ⟨_,by simp only [bind, Except.bind, hkey, if_true]; rfl⟩
    · simp only [bind, Except.bind, hkey, if_false]
      apply ih fun o' ho' => hbands o' (List.mem_cons_of_mem o ho')
      obtain ⟨o',ho',hfound⟩ := hmatch
      rcases List.mem_cons.mp ho' with rfl | ho'
      · exact absurd hfound hkey
      · exact ⟨o',ho',hfound⟩

/-- A band a rule declares has a severity in every configuration. -/
theorem severityFor_declared (c : RiskConfiguration) (rule : RuleId) {band : SeverityBand}
    (h : band ∈ (definitionFor rule).bands) :
    ∃ severity, (forRule c rule).severityFor band = .ok severity := by
  have hdefault : ((definitionFor rule).defaultSeverities.lookup band).isSome = true := by
    cases rule <;> cases band <;> revert h <;> decide
  obtain ⟨default,hlookup⟩ := Option.isSome_iff_exists.mp hdefault
  unfold RuleConfig.severityFor forRule updated
  simp only [List.lookup_append, hlookup]
  cases ((c.severityOverrides.lookup rule).getD []).lookup band with
  | none => exact ⟨default,rfl⟩
  | some severity => exact ⟨severity,rfl⟩

end Passes

end Adg.RiskEngine
