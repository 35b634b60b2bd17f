import Adg.RiskRecords
import Adg.RightsCategories

/-!
# What an installation may change about the rules

The catalog says what each rule is and what it starts from; a configuration
overrides severities and thresholds and names the sensitive resources. A rule
reads its thresholds through checks, so one that cannot be applied as written
is refused and never read as something else.
-/

set_option autoImplicit false

namespace Adg.RuleSettings
open Adg.Observation Adg.SecurityIdentifier Adg.CanonicalJson Adg.AlertModel Adg.FindingModel
open Adg.RightsCategories Adg.RiskRecords

/-! ### The catalog -/

/-- The kinds of collected object a rule can depend on. -/
inductive FactKind where
  | principal
  | membershipEdge
  | server
  | smbShare
  | smbAce
  | ntfsResource
  | ntfsAce
  deriving DecidableEq, Repr

structure RuleDefinition where
  id : RuleId
  version : String
  bands : List SeverityBand
  defaultSeverities : List (SeverityBand × Severity)
  dependsOn : List FactKind
  defaultOptions : List (String × Json) := []
  defaultEnabled : Bool := true

/-- What the rules about entries read. -/
def aclKinds : List FactKind := [.ntfsResource, .ntfsAce, .smbShare, .smbAce]

/-- `definition_for`, over `CATALOG`. -/
def definitionFor : RuleId → RuleDefinition
  | .everyoneBroadAccess => {
      id := .everyoneBroadAccess
      version := "1.0"
      bands := [.read, .write, .fullControl, .nullDacl]
      defaultSeverities := [(.read,.high), (.write,.critical), (.fullControl,.critical),
        (.nullDacl,.critical)]
      defaultOptions := [("minimum_category",.text RightsCategory.read.value)]
      dependsOn := aclKinds }
  | .authenticatedUsersBroadAccess => {
      id := .authenticatedUsersBroadAccess
      version := "1.0"
      bands := [.read, .write, .fullControl]
      defaultSeverities := [(.read,.medium), (.write,.high), (.fullControl,.high)]
      defaultOptions := [("minimum_category",.text RightsCategory.read.value)]
      dependsOn := aclKinds }
  | .domainUsersBroadAccess => {
      id := .domainUsersBroadAccess
      version := "1.0"
      bands := [.read, .write, .fullControl]
      defaultSeverities := [(.read,.low), (.write,.medium), (.fullControl,.high)]
      defaultOptions := [("minimum_category",.text RightsCategory.read.value)]
      dependsOn := aclKinds }
  | .directUserAce => {
      id := .directUserAce
      version := "1.0"
      bands := [.default]
      defaultSeverities := [(.default,.low)]
      dependsOn := aclKinds ++ [.principal] }
  | .disabledPrincipalRetainsAccess => {
      id := .disabledPrincipalRetainsAccess
      version := "1.0"
      bands := [.default]
      defaultSeverities := [(.default,.medium)]
      defaultOptions := [("max_membership_depth",.whole 8)]
      dependsOn := aclKinds ++ [.principal, .membershipEdge] }
  | .unresolvedSidOnAcl => {
      id := .unresolvedSidOnAcl
      version := "1.0"
      bands := [.default]
      defaultSeverities := [(.default,.medium)]
      dependsOn := aclKinds ++ [.principal] }
  | .brokenInheritance => {
      id := .brokenInheritance
      version := "1.0"
      bands := [.protected, .diverged]
      defaultSeverities := [(.protected,.low), (.diverged,.informational)]
      defaultOptions := [("include_share_roots",.bool false), ("include_diverged",.bool true)]
      dependsOn := [.ntfsResource] }
  | .deepGroupNesting => {
      id := .deepGroupNesting
      version := "1.0"
      bands := [.default]
      defaultSeverities := [(.default,.low)]
      defaultOptions := [("max_depth",.whole 3)]
      dependsOn := [.ntfsAce, .smbAce, .membershipEdge, .principal] }
  | .redundantAccessPaths => {
      id := .redundantAccessPaths
      version := "1.0"
      bands := [.default]
      defaultSeverities := [(.default,.informational)]
      defaultOptions := [("minimum_paths",.whole 2), ("max_membership_depth",.whole 8)]
      dependsOn := aclKinds ++ [.membershipEdge, .principal] }
  | .emptyPermissionBearingGroup => {
      id := .emptyPermissionBearingGroup
      version := "1.0"
      bands := [.default]
      defaultSeverities := [(.default,.low)]
      dependsOn := [.ntfsAce, .smbAce, .membershipEdge, .principal] }
  | .broadAccessOnSensitiveResource => {
      id := .broadAccessOnSensitiveResource
      version := "1.0"
      bands := [.write, .fullControl]
      defaultSeverities := [(.write,.high), (.fullControl,.critical)]
      defaultOptions := [("minimum_category",.text RightsCategory.modify.value),
        ("broad_trustee_sids",.array [.text "S-1-1-0", .text "S-1-5-11", .text "S-1-5-32-545"]),
        ("broad_trustee_rids",.array [.whole 513, .whole 515])]
      dependsOn := aclKinds ++ [.principal] }

theorem definitionFor_id (rule : RuleId) : (definitionFor rule).id = rule := by
  cases rule <;> rfl

/-- `rules_affected_by`. -/
def rulesAffectedBy (changed : List FactKind) : List RuleId :=
  RuleId.all.filter fun rule => (definitionFor rule).dependsOn.any fun kind => changed.contains kind

/-! ### Sensitive resources -/

/-- One resource, or one subtree, that was declared sensitive. -/
structure SensitiveResource where
  label : String
  resourceKey : Option String := none
  pathPrefix : Option String := none
  shareKey : Option String := none

section Matching
variable (casefold : String → String)

/-- `_normalize_path`. -/
def normalizePath (value : String) : String :=
  casefold (String.ofList (ResourceFacts.withoutTrailing (String.ofList (strip value.toList))))

namespace SensitiveResource

/-- The constructor. -/
def build (label : String) (resourceKey pathPrefix shareKey : Option String) :
    Except DomainError SensitiveResource := do
  if strip label.toList = [] then
    throw { message := "A sensitive-resource entry needs a label saying what makes it sensitive. The label is what a reader is shown in place of a judgment ADG cannot make.", field := "label" }
  let count := ([resourceKey, pathPrefix, shareKey].filter given).length
  if count ≠ 1 then
    throw { message := s!"A sensitive-resource entry sets exactly one of resource_key, path_prefix or share_key; this one sets {count}.", field := "selector" }
  let folded := pathPrefix.map (normalizePath casefold)
  if folded = some "" then
    throw { message := "path_prefix must not be blank.", field := "path_prefix" }
  return ⟨label,resourceKey,folded,shareKey⟩

/-- The single selector, rendered. -/
def selector (t : SensitiveResource) : String :=
  match t.resourceKey, t.shareKey with
  | some key, _ => "resource_key=" ++ key
  | none, some key => "share_key=" ++ key
  | none, none => "path_prefix=" ++ orBlank t.pathPrefix

def matchesResource (t : SensitiveResource) (r : ResourceFacts) : Bool :=
  match t.resourceKey, t.shareKey with
  | some key, _ => r.resourceKey = key
  | none, some key => r.shareKey = key
  | none, none =>
    let candidate := normalizePath casefold r.path
    let folded := orBlank t.pathPrefix
    candidate = folded || (folded ++ "\\").toList.isPrefixOf candidate.toList

def matchesShare (t : SensitiveResource) (s : ShareFacts) : Bool :=
  match t.shareKey with
  | some key => s.shareKey = key
  | none => false

end SensitiveResource

end Matching

/-! ### The settings of a rule -/

/-- One rule's settings, merged with the catalog's. -/
structure RuleConfig where
  definition : RuleDefinition
  enabled : Bool
  severities : List (SeverityBand × Severity)
  options : List (String × Json)
  sensitiveResources : List SensitiveResource := []

namespace RuleConfig
variable (config : RuleConfig)

def severityFor (band : SeverityBand) : Except DomainError Severity :=
  match config.severities.lookup band with
  | some severity => .ok severity
  | none => .error { message := s!"Rule '{config.definition.id.value}' reported band '{band.value}', which it does not declare.", field := "band" }

def option (name : String) : Except DomainError Json :=
  match config.options.lookup name with
  | some value => .ok value
  | none => .error { message := s!"Rule '{config.definition.id.value}' read option '{name}', which it does not declare.", field := name }

def optionInt (name : String) (minimum : ℤ) : Except DomainError ℤ := do
  match ← config.option name with
  | .whole value =>
    if value < minimum then
      throw { message := s!"Option '{name}' of rule '{config.definition.id.value}' must be at least {minimum}; received {value}.", field := name }
    return value
  | _ => throw { message := s!"Option '{name}' of rule '{config.definition.id.value}' must be a whole number.", field := name }

def optionBool (name : String) : Except DomainError Bool := do
  match ← config.option name with
  | .bool value => return value
  | _ => throw { message := s!"Option '{name}' of rule '{config.definition.id.value}' must be true or false.", field := name }

/-- A category that names bits. -/
def optionCategory (name : String) : Except DomainError RightsCategory := do
  match (text? (some (← config.option name))).bind RightsCategory.ofValue with
  | none => throw { message := s!"Option '{name}' of rule '{config.definition.id.value}' must name a rights category.", field := name }
  | some category =>
    if category.requiredMask.isNone then
      throw { message := s!"Option '{name}' of rule '{config.definition.id.value}' names category '{category.value}', which has no required mask and so cannot be a threshold. 'none' and 'special' describe a result, not a level.", field := name }
    return category

def optionStrings (name : String) : Except DomainError (List String) := do
  match ← config.option name with
  | .array items =>
    match items.mapM fun item => text? (some item) with
    | some texts => return texts
    | none => throw { message := s!"Option '{name}' of rule '{config.definition.id.value}' must be a list of strings.", field := name }
  | _ => throw { message := s!"Option '{name}' of rule '{config.definition.id.value}' must be a list of strings.", field := name }

def optionInts (name : String) : Except DomainError (List ℤ) := do
  match ← config.option name with
  | .array items => items.mapM fun item =>
      match item with
      | .whole n => .ok n
      | _ => .error { message := s!"Option '{name}' of rule '{config.definition.id.value}' contains a value which is not a whole number.", field := name }
  | _ => throw { message := s!"Option '{name}' of rule '{config.definition.id.value}' must be a list of whole numbers.", field := name }

end RuleConfig

/-- The installation's settings. -/
structure RiskConfiguration where
  version : String := "default"
  disabledRules : List RuleId := []
  severityOverrides : List (RuleId × List (SeverityBand × Severity)) := []
  optionOverrides : List (RuleId × List (String × Json)) := []
  sensitiveResources : List SensitiveResource := []

/-- What is read of one mapping updated by another: the entry of the other, where it has one. -/
def updated {κ β : Type} (base overrides : List (κ × β)) : List (κ × β) := overrides ++ base

/-- `for_rule`. -/
def forRule (c : RiskConfiguration) (rule : RuleId) : RuleConfig where
  definition := definitionFor rule
  enabled := (definitionFor rule).defaultEnabled && !c.disabledRules.contains rule
  severities := updated (definitionFor rule).defaultSeverities
    ((c.severityOverrides.lookup rule).getD [])
  options := updated (definitionFor rule).defaultOptions ((c.optionOverrides.lookup rule).getD [])
  sensitiveResources := c.sensitiveResources

end Adg.RuleSettings
