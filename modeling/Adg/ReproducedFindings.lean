import Adg.RiskEngine
import Adg.ChainReproduction

/-!
# Findings from their own evidence

Every finding of a pass is found again from its evidence alone, with the same
band, severity, qualifiers, confidence and evidence, but for one kind: a
disabled principal at which the walk ended although members of it are recorded.
Its finding is marked as cut short, and its evidence does not say so.
-/

set_option autoImplicit false

namespace Adg.ReproducedFindings
open Adg.Fallible Adg.Observation Adg.CanonicalJson Adg.AlertModel Adg.FindingModel Adg.RiskRecords
open Adg.FactBundles Adg.RiskEvidence Adg.RuleSettings Adg.RiskRules Adg.RiskEngine Adg.StoredFacts
open Adg.RiskReproduction Adg.MembershipRoutes Adg.ChainReproduction

variable {casefold sha256 : String → String}

/-! ### The same finding -/

/-- What a finding shares with the one it is reproduced as. -/
structure SameFinding (finding again : RiskFinding sha256) : Prop where
  key : again.key = finding.key
  band : again.band = finding.band
  severity : again.severity = finding.severity
  qualifiers : again.qualifiers = finding.qualifiers
  confidence : again.confidence = finding.confidence
  digest : again.evidenceDigest = finding.evidenceDigest

/-- A finding is returned by `reproduce`, and as it was. -/
def Reproduced (casefold : String → String) (c : RiskConfiguration)
    (finding : RiskFinding sha256) : Prop :=
  ∃ again, reproduce casefold sha256 finding c = .ok (some again) ∧ SameFinding finding again

/-- The walk ends at a disabled principal with recorded members, and nothing on its way there was
cut short. -/
def LimitMarked (f : RiskFacts) (c : RiskConfiguration) (rules : Option (List RuleId)) : Prop :=
  Runs c rules .disabledPrincipalRetainsAccess ∧
    ∃ depth, (forRule c .disabledPrincipalRetainsAccess).optionInt "max_membership_depth" 1 =
        .ok depth ∧
      ∃ t ∈ grantedTrustees (acls f), ∃ steps, f.Descends t [t] steps ∧
        steps.length = RiskFacts.walkLimit depth ∧
        f.directMembers (RiskFacts.endOf t steps) ≠ [] ∧
        isDisabled f (RiskFacts.endOf t steps) = true ∧ f.shortAlong t steps = false

section Keys
variable (collisionFree : Function.Injective sha256)
include collisionFree

theorem findingKey_inj {rule : RuleId} {s s' : FindingSubject}
    (h : findingKey sha256 rule s = findingKey sha256 rule s') : s.canonical = s'.canonical := by
  have htext := congrArg String.toList (collisionFree h)
  simp only [String.toList_append, List.append_assoc] at htext
  exact String.toList_inj.mp (List.append_cancel_left (List.append_cancel_left htext))

/-- A finding whose outcome is found again is reproduced. -/
theorem reproduced_of_foundAgain {c : RiskConfiguration} {rule : RuleId} {o : RuleOutcome}
    {severity : Severity} (hseverity : (forRule c rule).severityFor o.band = .ok severity)
    (h : FoundAgain casefold (forRule c rule) rule o) :
    Reproduced casefold c (findingOf sha256 (forRule c rule).definition severity o) := by
  obtain ⟨g,hg,found,hfound,⟨again,hagain,halike⟩,hsame⟩ := h
  have hrule : (forRule c rule).definition.id = rule := definitionFor_id rule
  have hbands : ∀ a ∈ found, ∃ severity, (forRule c rule).severityFor a.band = .ok severity := by
    intro a ha
    rcases (hsame a ha).1 with hdeclared | hband
    · exact severityFor_declared c rule hdeclared
    · rw [hband]
      exact ⟨severity,hseverity⟩
  have hmatch : ∃ a ∈ found, findingKey sha256 (forRule c rule).definition.id a.subject =
      findingKey sha256 rule o.subject := ⟨again,hagain,by rw [halike.subject, hrule]⟩
  obtain ⟨candidate,hcandidate⟩ := firstWith_returns hbands hmatch
  obtain ⟨a,ha,severity',hseverity',hmade,hkey⟩ := firstWith_some hcandidate
  have hname : findingKey sha256 rule a.subject = findingKey sha256 rule o.subject := by
    rw [← hkey, hmade]
    show findingKey sha256 rule a.subject =
      findingKey sha256 (forRule c rule).definition.id a.subject
    rw [hrule]
  have hlike := (hsame a ha).2 (findingKey_inj collisionFree hname)
  rw [hlike.band, hseverity] at hseverity'
  cases hseverity'
  refine ⟨candidate,?_,?_⟩
  · rw [reproduce_eq hg]
    exact bind_ok.mpr ⟨found,hfound,hcandidate⟩
  · rw [hmade]
    exact {
      key := congrArg (findingKey sha256 (forRule c rule).definition.id) hlike.subject
      band := hlike.band
      severity := rfl
      qualifiers := congrArg sortedQualifiers hlike.qualifiers
      confidence := congrArg (fun q => confidenceOf (sortedQualifiers q)) hlike.qualifiers
      digest := congrArg (Evidence.digest sha256) hlike.evidence }

end Keys

/-! ### Which findings are -/

section Passes
variable {f : RiskFacts} {c : RiskConfiguration} {rules : Option (List RuleId)}

theorem not_truncated_acl (acl : Acl) : FactQualifier.membershipTruncated ∉ acl.qualifiers := by
  cases acl with
  | share s => exact Finset.notMem_empty _
  | resource r =>
    show _ ∉ r.qualifiers
    unfold ResourceFacts.qualifiers
    split_ifs <;> simp

/-- The rule for disabled principals reports everyone below a trustee on every list. -/
theorem disabled_reached {config : RuleConfig} {found : List RuleOutcome} {depth : ℤ} {t : String}
    {principal : PrincipalFacts} {chain : Chain} {acl : Acl}
    (h : disabledPrincipalRetainsAccess f config = .ok found)
    (hdepth : config.optionInt "max_membership_depth" 1 = .ok depth)
    (ht : t ∈ grantedTrustees (acls f)) (hbelow : (principal.key,chain) ∈ disabledBelow f t depth)
    (hprincipal : f.principal principal.key = some principal) (hacl : acl ∈ listsNaming f t) :
    ∃ o ∈ found, disabledOutcome f config t principal chain acl = .ok o := by
  obtain ⟨depth',hdepth',h⟩ := bind_ok.mp h
  rw [hdepth] at hdepth'
  cases hdepth'
  obtain ⟨parts,hparts,rfl⟩ := map_ok.mp h
  obtain ⟨part,hpart,hone⟩ := mapM_mem hparts (List.mem_map_of_mem ht)
  obtain ⟨lists,hlists,rfl⟩ := map_ok.mp hone
  obtain ⟨l,hl,hout⟩ := mapM_mem hlists hbelow
  simp only [hprincipal] at hout
  obtain ⟨o,ho,hmade⟩ := mapM_mem hout hacl
  exact ⟨o,List.mem_flatten.mpr ⟨_,hpart,List.mem_flatten.mpr ⟨l,hl,ho⟩⟩,hmade⟩

theorem marked_qualifiers {config : RuleConfig} {t : String} {principal : PrincipalFacts}
    {chain : Chain} {acl : Acl} {o : RuleOutcome}
    (hout : disabledOutcome f config t principal chain acl = .ok o) :
    o.qualifiers = acl.qualifiers ∪ cutShort chain := by
  obtain ⟨evaluation,-,hout⟩ := bind_ok.mp hout
  cases hout
  rfl

variable (hf : Stored f)
include hf

/-- What the rule for disabled principals reports, with the mark its route had. -/
theorem disabled_source {config : RuleConfig} {found : List RuleOutcome} {o : RuleOutcome}
    (h : disabledPrincipalRetainsAccess f config = .ok found) (ho : o ∈ found) :
    ∃ depth t principal chain acl, config.optionInt "max_membership_depth" 1 = .ok depth ∧
      t ∈ grantedTrustees (acls f) ∧ (principal.key,chain) ∈ disabledBelow f t depth ∧
      f.principal principal.key = some principal ∧ acl ∈ listsNaming f t ∧
      disabledOutcome f config t principal chain acl = .ok o := by
  obtain ⟨depth,t,below,principal,acl,hdepth,ht,hbelow,hprincipal,hacl,hout⟩ := mem_disabled h ho
  have hkey : principal.key = below.1 := principal_key hf hprincipal
  refine ⟨depth,t,principal,below.2,acl,hdepth,ht,?_,?_,hacl,hout⟩
  · rw [hkey]
    exact hbelow
  · rw [hkey]
    exact hprincipal

/-- Outside the one kind the rule for disabled principals finds its outcomes again. -/
theorem disabled_again {rule : RuleConfig} {found : List RuleOutcome} {o : RuleOutcome}
    (hrule : rule = forRule c .disabledPrincipalRetainsAccess)
    (hruns : Runs c rules .disabledPrincipalRetainsAccess) (hmarked : ¬ LimitMarked f c rules)
    (h : disabledPrincipalRetainsAccess f rule = .ok found) (ho : o ∈ found) :
    FoundAgain casefold rule .disabledPrincipalRetainsAccess o := by
  obtain ⟨depth,t,principal,chain,acl,hdepth,ht,hbelow,hprincipal,hacl,hout⟩ :=
    disabled_source hf h ho
  have hmark : chain.truncated = f.shortAlong t (chain.keys.drop 1) := by
    rcases mem_disabledBelow.mp hbelow with ⟨-,hown⟩ | ⟨c',hc',hoff,hown⟩
    · rw [(Prod.mk.inj hown).2]
      rfl
    · obtain ⟨-,rfl⟩ := Prod.mk.inj hown
      obtain ⟨steps,hd,hkeys,-,⟨-,-,htruncated⟩ | ⟨hlength,hmore,htruncated⟩⟩ :=
        mem_chainsDown.mp hc'
      · rw [htruncated, hkeys]
        rfl
      · rw [htruncated, hkeys]
        cases hshort : f.shortAlong t steps with
        | true => exact hshort.symm
        | false =>
          rw [lastOf_keys hkeys] at hoff
          exact absurd ⟨hruns,depth,hrule ▸ hdepth,t,ht,steps,hd,hlength,hmore,hoff,hshort⟩
            hmarked
  obtain ⟨g,hg,again,hagain,hne,hall⟩ :=
    disabled_reports hf casefold hdepth hbelow hprincipal hacl hout
  have halike : ∀ a ∈ again, Alike o a := by
    intro a ha
    obtain ⟨hsubject,hband,hevidence,hqualifiers⟩ := hall a ha
    refine ⟨hsubject,hband,?_,hevidence⟩
    rw [hqualifiers, marked_qualifiers hout]
    unfold cutShort
    rw [hmark]
  obtain ⟨a,ha⟩ := List.exists_mem_of_ne_nil _ hne
  exact ⟨g,hg,again,hagain,⟨a,ha,halike a ha⟩,fun a ha =>
    ⟨.inr (halike a ha).band,fun _ => halike a ha⟩⟩

/-- Every rule finds its outcomes again, the rule for disabled principals outside the one kind. -/
theorem outcomes_again {rule : RuleId} {found : List RuleOutcome} {o : RuleOutcome}
    (hruns : Runs c rules rule) (hmarked : ¬ LimitMarked f c rules)
    (h : evaluateRule casefold f (forRule c rule) rule = .ok found) (ho : o ∈ found) :
    FoundAgain casefold (forRule c rule) rule o := by
  cases rule with
  | everyoneBroadAccess => exact everyone_again hf casefold h ho
  | authenticatedUsersBroadAccess => exact authenticatedUsers_again hf casefold h ho
  | domainUsersBroadAccess => exact domainUsers_again hf casefold h ho
  | directUserAce => exact directUser_again hf casefold h ho
  | disabledPrincipalRetainsAccess => exact disabled_again hf rfl hruns hmarked h ho
  | unresolvedSidOnAcl => exact unresolved_again hf casefold h ho
  | brokenInheritance => exact broken_again hf casefold h ho
  | deepGroupNesting => exact deep_again hf casefold h ho
  | redundantAccessPaths => exact redundant_again hf casefold h ho
  | emptyPermissionBearingGroup => exact empty_again hf casefold h ho
  | broadAccessOnSensitiveResource => exact sensitive_again hf casefold h ho

/-- A walk that ends at a disabled principal with members leaves a finding that does not come
back as it was. -/
theorem limit_lost {result : EvaluationResult sha256}
    (h : evaluate casefold sha256 f c rules = .ok result) (hmarked : LimitMarked f c rules) :
    ∃ finding ∈ result.findings, ¬ Reproduced casefold c finding := by
  obtain ⟨hruns,depth,hdepth,t,ht,steps,hd,hlength,hmore,hoff,hshort⟩ := hmarked
  obtain ⟨chain,hchain⟩ : ∃ c : Chain, c = ⟨t :: steps,f.edgesAlong t steps,true⟩ := ⟨_,rfl⟩
  have hkeys : chain.keys = t :: steps := by rw [hchain]
  have hin : chain ∈ f.chainsDown t depth := by
    apply mem_chainsDown.mpr
    rw [hchain]
    exact ⟨steps,hd,rfl,rfl,.inr ⟨hlength,hmore,rfl⟩⟩
  obtain ⟨principal,hprincipal⟩ : ∃ p, f.principal (RiskFacts.endOf t steps) = some p := by
    unfold isDisabled at hoff
    cases hp : f.principal (RiskFacts.endOf t steps) with
    | none =>
      rw [hp] at hoff
      cases hoff
    | some p => exact ⟨p,rfl⟩
  have hkey : principal.key = RiskFacts.endOf t steps := principal_key hf hprincipal
  have hbelow : (principal.key,chain) ∈ disabledBelow f t depth := by
    apply mem_disabledBelow.mpr
    right
    refine ⟨chain,hin,?_,?_⟩
    · rw [lastOf_keys hkeys]
      exact hoff
    · rw [lastOf_keys hkeys, hkey]
  obtain ⟨acl,hacl⟩ := List.exists_mem_of_ne_nil _ (listsNaming_ne hf ht)
  obtain ⟨found,hproduced⟩ := produced_of_runs h hruns
  obtain ⟨outcomes,houtcomes,-⟩ := bind_ok.mp hproduced
  rw [← hkey] at hprincipal
  obtain ⟨o,ho,hout⟩ := disabled_reached houtcomes hdepth ht hbelow hprincipal hacl
  obtain ⟨severity,hseverity,hfinding⟩ := produced_mem hproduced houtcomes ho
  refine ⟨_,(mem_evaluate h).mpr ⟨_,found,hruns,hproduced,hfinding⟩,?_⟩
  rintro ⟨again,hagain,hsame⟩
  obtain ⟨g,hg,reported,hreported,-,hall⟩ :=
    disabled_reports hf casefold hdepth hbelow hprincipal hacl hout
  rw [reproduce_eq hg] at hagain
  obtain ⟨reported',hreported',hagain⟩ := bind_ok.mp hagain
  rw [hreported] at hreported'
  cases hreported'
  obtain ⟨a,ha,severity',-,rfl,-⟩ := firstWith_some hagain
  have hqualifiers : sortedQualifiers a.qualifiers = sortedQualifiers o.qualifiers :=
    hsame.qualifiers
  have hmark : FactQualifier.membershipTruncated ∈ sortedQualifiers o.qualifiers := by
    rw [marked_qualifiers hout]
    unfold cutShort sortedQualifiers
    rw [hchain]
    simp
  rw [← hqualifiers, (hall a ha).2.2.2, hkeys, show (t :: steps).drop 1 = steps from rfl, hshort]
    at hmark
  unfold sortedQualifiers at hmark
  simp [not_truncated_acl acl] at hmark

end Passes

/-- The findings of a pass are all reproduced from their own evidence exactly when the walk below
no trustee ends at a disabled principal with recorded members. -/
theorem reproduced_iff (casefold : String → String) {sha256 : String → String}
    (collisionFree : Function.Injective sha256) {f : RiskFacts} (hf : Stored f)
    (c : RiskConfiguration) (rules : Option (List RuleId)) {result : EvaluationResult sha256}
    (h : evaluate casefold sha256 f c rules = .ok result) :
    (∀ finding ∈ result.findings, Reproduced casefold c finding) ↔ ¬ LimitMarked f c rules := by
  constructor
  · intro hall hmarked
    obtain ⟨finding,hfinding,hlost⟩ := limit_lost hf h hmarked
    exact hlost (hall finding hfinding)
  · intro hmarked finding hfinding
    obtain ⟨rule,found,hruns,hfound,hmem⟩ := (mem_evaluate h).mp hfinding
    obtain ⟨outcomes,hout,o,ho,severity,hseverity,rfl⟩ := mem_produced hfound hmem
    exact reproduced_of_foundAgain collisionFree hseverity
      (outcomes_again hf hruns hmarked hout ho)

/-! ### A disabled group at the limit -/

namespace Sample

/-- `G` may read a directory. -/
def grant : AceFacts where
  aceKey := "\\\\fs01\\finance|S-1-5-21-1-2-3-1001|allow|0x001200a9|0x00"
  containerKey := "\\\\fs01\\finance"
  layer := .ntfs
  trusteeKey := "S-1-5-21-1-2-3-1001"
  trusteeSid := "S-1-5-21-1-2-3-1001"
  aceType := .allow
  accessMask := some 0x1200a9
  orderIndex := some 0
  ntfs_masked := fun _ => Option.some_ne_none _
  granting := .inl (Option.some_ne_none _)
  key_ne := by decide
  trustee_ne := by decide
  sid_valid := by decide

def directory : ResourceFacts where
  resourceKey := "\\\\fs01\\finance"
  path := "\\\\fs01\\finance"
  shareKey := "fs01|finance"
  serverKey := "fs01"
  aces := [grant]
  key_ne := by decide

/-- A group that is recorded as disabled. -/
def retired : PrincipalFacts where
  key := "S-1-5-21-1-2-3-1002"
  sid := "S-1-5-21-1-2-3-1002"
  kind := .domainGroup
  enabled := some false
  key_ne := by decide

/-- `G` holds the disabled group, and that holds a user. -/
def nested : RiskFacts where
  resources := [directory]
  principals := [(retired.key,retired)]
  memberships :=
    [("S-1-5-21-1-2-3-1001",⟨"S-1-5-21-1-2-3-1001",[retired.key],some true,false,by decide⟩),
      (retired.key,⟨retired.key,["S-1-5-21-1-2-3-1003"],some true,false,by decide⟩)]

/-- One level of membership is walked. -/
def shallow : RiskConfiguration where
  optionOverrides := [(.disabledPrincipalRetainsAccess,[("max_membership_depth",.whole 1)])]

def only : Option (List RuleId) := some [.disabledPrincipalRetainsAccess]

theorem nested_evaluated : (evaluate id id nested shallow only).isOk = true := by decide +kernel

theorem nested_stored : Stored nested where
  containers := List.nodup_singleton _
  resourceLists := by
    intro r hr
    rw [List.mem_singleton.mp hr]
    exact ⟨fun a ha => by rw [List.mem_singleton.mp ha]; rfl,List.pairwise_singleton _ _⟩
  shareLists := by
    intro s hs
    cases hs
  entries := List.nodup_singleton _
  trustees := by
    intro a ha
    rw [show a = grant from List.mem_singleton.mp ha]
    decide
  principals := by
    intro e he
    rw [List.mem_singleton.mp he]
  memberships := by
    intro e he
    rcases List.mem_cons.mp he with rfl | he
    · rfl
    · rw [List.mem_singleton.mp he]

theorem nested_marked : LimitMarked nested shallow only := by
  refine ⟨⟨rfl,fun named hnamed => ?_⟩,1,rfl,"S-1-5-21-1-2-3-1001",by decide,[retired.key],
    ⟨by decide,by decide,trivial⟩,by decide,by decide,by decide,by decide⟩
  cases hnamed
  exact List.mem_singleton_self _

theorem nested_result : ∃ result, evaluate id id nested shallow only = .ok result := by
  have hok := nested_evaluated
  cases hresult : evaluate id id nested shallow only with
  | error e =>
    rw [hresult] at hok
    cases hok
  | ok result => exact ⟨result,rfl⟩

/-- The finding about the disabled group is marked as cut short and does not come back so. -/
theorem retired_lost : Stored nested ∧ ∃ result, evaluate id id nested shallow only = .ok result ∧
    ∃ finding ∈ result.findings, ¬ Reproduced id shallow finding := by
  obtain ⟨result,hresult⟩ := nested_result
  exact ⟨nested_stored,result,hresult,limit_lost nested_stored hresult nested_marked⟩

theorem nested_iff : ∃ result, evaluate id id nested shallow only = .ok result ∧
    ((∀ finding ∈ result.findings, Reproduced id shallow finding) ↔
      ¬ LimitMarked nested shallow only) := by
  obtain ⟨result,hresult⟩ := nested_result
  exact ⟨result,hresult,reproduced_iff id Function.injective_id nested_stored shallow only hresult⟩

end Sample

end Adg.ReproducedFindings
