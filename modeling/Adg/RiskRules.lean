import Adg.CanonicalSids
import Adg.ResolvedRights
import Adg.RuleSettings
import Adg.RiskEvidence

/-!
# The rules

Each rule is a predicate over a bundle of facts. It cites every record it
matched on, asks the access check itself what an entry grants, and says
nothing about a list nobody has read.
-/

set_option autoImplicit false

namespace Adg.RiskRules
open Adg.Observation Adg.SecurityIdentifier Adg.CanonicalSids Adg.AccessSubjects Adg.RightsAlgebra
open Adg.RightsCategories Adg.Evaluation Adg.SortedLists Adg.CanonicalJson Adg.AlertModel
open Adg.FindingModel Adg.RiskRecords Adg.FactBundles Adg.RiskEvidence Adg.RuleSettings

/-! ### What a rule reports -/

/-- One match. Facts only. -/
structure RuleOutcome where
  subject : FindingSubject
  band : SeverityBand
  evidence : Evidence
  qualifiers : Finset FactQualifier := ∅
  detail : List (String × Json) := []
  cited : evidence.items ≠ []

/-- A match over some cited records. -/
def outcomeOf (subject : FindingSubject) (band : SeverityBand) (first : EvidenceItem)
    (rest : List EvidenceItem) (qualifiers : Finset FactQualifier)
    (detail : List (String × Json)) : RuleOutcome :=
  ⟨subject,band,Evidence.of (first :: rest),qualifiers,detail,of_ne_nil (List.cons_ne_nil _ _)⟩

/-! ### Lists of entries -/

/-- `_entry_mask`. -/
def entryMask (a : AceFacts) : RightsMask :=
  match a.accessMask with
  | some mask => ⟨mask,if a.layer = .ntfs then .ntfs else .smbShare⟩
  | none => a.permission.elim ⟨0,.smbShare⟩ normalizeSharePermission

theorem entryMask_observed (a : AceFacts) : (entryMask a).layer ≠ .effective := by
  unfold entryMask
  cases a.accessMask with
  | some mask =>
    show (if a.layer = .ntfs then RightsLayer.ntfs else .smbShare) ≠ .effective
    split_ifs <;> decide
  | none =>
    cases a.permission with
    | none => exact fun h => RightsLayer.noConfusion h
    | some level => exact fun h => RightsLayer.noConfusion h

/-- `_acl_entry`. -/
def aclEntry (a : AceFacts) : AclEntry where
  trusteeKey := a.trusteeKey
  trusteeSid := a.trusteeSid
  aceType := a.aceType
  mask := entryMask a
  flags := a.aceFlags
  source := a.source
  orderIndex := a.orderIndex
  aceKey := some a.aceKey
  trustee_ne := a.trustee_ne
  mask_observed := entryMask_observed a

/-- `_token_for`: a token of exactly one SID. -/
def tokenFor (trusteeKey trusteeSid : String) : Except DomainError SubjectToken :=
  if hkey : trusteeKey ≠ "" then
    match hsid : canonicalizeSid trusteeSid with
    | .error e => .error e
    | .ok _ => .ok {
        subject := {
          key := trusteeKey
          sid := trusteeSid
          key_ne := hkey
          sid_valid := by rw [hsid]; rfl }
        assumption := .sidsOnly
        accessPath := .remoteSmb
        entries := [{ key := trusteeKey, sid := trusteeSid, origin := .subject, key_ne := hkey }]
        entries_ne := List.cons_ne_nil _ _
        keys_nodup := List.nodup_singleton _ }
  else .error { message := "A subject needs a storage key.", field := "key" }

/-- `_Acl`: the list of a resource or that of a share. -/
inductive Acl where
  | resource (r : ResourceFacts)
  | share (s : ShareFacts)

namespace Acl

def key : Acl → String
  | resource r => r.resourceKey
  | share s => s.shareKey

theorem key_ne : ∀ a : Acl, a.key ≠ ""
  | resource r => r.key_ne
  | share s => s.key_ne

def layer : Acl → AclLayer
  | resource _ => .ntfs
  | share _ => .smbShare

def aces : Acl → List AceFacts
  | resource r => r.aces
  | share s => s.aces

def container : Acl → EvidenceItem
  | resource r => forResource r
  | share s => forShare s

def qualifiers : Acl → Finset FactQualifier
  | resource r => r.qualifiers
  | share _ => ∅

def rightsLayer : Acl → RightsLayer
  | resource _ => .ntfs
  | share _ => .smbShare

def facts : Acl → DaclFacts
  | resource r => DaclFacts.make r.daclPresent r.daclProtected r.ownerSid none none
  | share _ => unownedPresentDacl

def subject (a : Acl) (principalKey discriminator : Option String) : FindingSubject :=
  match a with
  | resource r => ⟨some r.resourceKey,none,principalKey,discriminator,by simp [given, r.key_ne]⟩
  | share s => ⟨none,some s.shareKey,principalKey,discriminator,by simp [given, s.key_ne]⟩

/-- Every entry naming a trustee, in stored order. -/
def entriesNaming (a : Acl) (trusteeKey : String) : List AceFacts :=
  a.aces.filter fun e => e.trusteeKey = trusteeKey

/-- What this list grants a token holding only one trustee. -/
def evaluateFor (a : Acl) (trusteeKey trusteeSid : String) : Except DomainError AclEvaluation := do
  let token ← tokenFor trusteeKey trusteeSid
  evaluateAcl ((a.entriesNaming trusteeKey).map aclEntry) token a.rightsLayer a.facts

/-- The entries that are cited beside the container. -/
def cite (a : Acl) (trusteeKey : String) : List EvidenceItem :=
  (a.entriesNaming trusteeKey).map forAce

end Acl

/-- `_acls`: resources first, in key order, then the shares whose list was read. -/
def acls (f : RiskFacts) : List Acl :=
  (sortedBy (·.resourceKey) f.resources).map Acl.resource ++
    ((sortedBy (·.shareKey) f.shares).filter (·.aclObserved)).map Acl.share

/-- `band_for`. -/
def bandFor (mask : RightsMask) : SeverityBand :=
  if reaches mask .fullControl then .fullControl
  else if reaches mask .modify || reaches mask .write then .write
  else .read

/-- The first eligible entry of each trustee that was not seen before. -/
def unseen (eligible : AceFacts → Bool) : List String → List AceFacts → List AceFacts
  | _, [] => []
  | seen, a :: rest =>
    if !eligible a || seen.contains a.trusteeKey then unseen eligible seen rest
    else a :: unseen eligible (a.trusteeKey :: seen) rest

/-- A loop over every list that looks at each trustee once. -/
def overTrustees (f : RiskFacts) (eligible : Acl → AceFacts → Bool)
    (outcome : Acl → AceFacts → Except DomainError (Option RuleOutcome)) :
    Except DomainError (List RuleOutcome) :=
  List.flatten <$> (acls f).mapM fun acl =>
    List.reduceOption <$> (unseen (eligible acl) [] acl.aces).mapM (outcome acl)

/-! ### Broad trustees -/

def ruleVersion (config : RuleConfig) : String × Json :=
  ("rule_version",.text config.definition.version)

/-- What `_BroadTrusteeRule._for_acl` yields for a trustee. -/
def broadOutcome (config : RuleConfig) (threshold : RightsCategory) (acl : Acl) (ace : AceFacts) :
    Except DomainError (Option RuleOutcome) := do
  let evaluation ← acl.evaluateFor ace.trusteeKey ace.trusteeSid
  if !reaches evaluation.rights threshold then
    return none
  return some (outcomeOf (acl.subject none ace.trusteeKey) (bandFor evaluation.rights)
    acl.container (acl.cite ace.trusteeKey) acl.qualifiers
    [("trustee_sid",.text ace.trusteeSid), ("layer",.text acl.layer.value),
      ("rights_mask",.whole evaluation.rights.value.toNat),
      ("rights_label",.text (summarize evaluation.rights).label),
      ("minimum_category",.text threshold.value), ruleVersion config])

/-- `_BroadTrusteeRule.evaluate`. -/
def broadTrustee (matchesTrustee : AceFacts → Bool) (f : RiskFacts) (config : RuleConfig) :
    Except DomainError (List RuleOutcome) := do
  let threshold ← config.optionCategory "minimum_category"
  overTrustees f (fun _ ace => ace.grants && matchesTrustee ace) (broadOutcome config threshold)

def domainUsersRid : ℤ := 513

/-- `domain_relative_trustee`. -/
def domainRelativeTrustee (sidValue : String) (rid : ℤ) : Bool :=
  match (canonicalizeSid sidValue).toOption with
  | none => false
  | some value =>
    let subs := (subAuthorities value).getD []
    identifierAuthority value = some 5 && 4 < subs.length && subs.head? = some 21 &&
      (subs.getLast?.map fun sub => (sub : ℤ)) = some rid

def namesEveryone (ace : AceFacts) : Bool := ace.trusteeSid = everyoneSid

def namesAuthenticatedUsers (ace : AceFacts) : Bool := ace.trusteeSid = authenticatedUsersSid

def namesDomainUsers (ace : AceFacts) : Bool := domainRelativeTrustee ace.trusteeSid domainUsersRid

/-- A NULL DACL that was read, which is not one that was not. -/
def nullDaclOutcomes (f : RiskFacts) (config : RuleConfig) : List RuleOutcome :=
  ((sortedBy (·.resourceKey) f.resources).filter fun r =>
      !r.daclPresent && r.provenance = .observed).map fun r =>
    outcomeOf ⟨some r.resourceKey,none,none,some "null_dacl",by simp [given, r.key_ne]⟩ .nullDacl
      (forResource r) [] r.qualifiers
      [("path",.text r.path), ("layer",.text AclLayer.ntfs.value), ruleVersion config]

/-- `EveryoneBroadAccess.evaluate`. -/
def everyoneBroadAccess (f : RiskFacts) (config : RuleConfig) :
    Except DomainError (List RuleOutcome) := do
  let named ← broadTrustee namesEveryone f config
  return nullDaclOutcomes f config ++ named

/-- `AuthenticatedUsersBroadAccess`. -/
def authenticatedUsersBroadAccess (f : RiskFacts) (config : RuleConfig) :
    Except DomainError (List RuleOutcome) :=
  broadTrustee namesAuthenticatedUsers f config

/-- `DomainUsersBroadAccess`. -/
def domainUsersBroadAccess (f : RiskFacts) (config : RuleConfig) :
    Except DomainError (List RuleOutcome) :=
  broadTrustee namesDomainUsers f config

/-! ### Named trustees -/

def describedUser (f : RiskFacts) (key : String) : Bool := (f.principal key).any (·.isUser)

/-- What `DirectUserAce` yields for a trustee that is a user. -/
def directUserOutcome (f : RiskFacts) (config : RuleConfig) (acl : Acl) (ace : AceFacts) :
    Except DomainError (Option RuleOutcome) := do
  match f.principal ace.trusteeKey with
  | none => return none
  | some principal =>
    let evaluation ← acl.evaluateFor ace.trusteeKey ace.trusteeSid
    if evaluation.rights.isEmpty then
      return none
    return some (outcomeOf (acl.subject ace.trusteeKey none) .default acl.container
      (acl.cite ace.trusteeKey ++ [forPrincipal principal]) acl.qualifiers
      [("trustee_sid",.text ace.trusteeSid), ("trustee_label",.text principal.label),
        ("layer",.text acl.layer.value),
        ("rights_label",.text (summarize evaluation.rights).label), ruleVersion config])

/-- `DirectUserAce.evaluate`. -/
def directUserAce (f : RiskFacts) (config : RuleConfig) : Except DomainError (List RuleOutcome) :=
  overTrustees f (fun _ ace => ace.grants && describedUser f ace.trusteeKey)
    (directUserOutcome f config)

/-- The keys of `WELL_KNOWN_SID_NAMES`. -/
def wellKnownSids : List String :=
  ["S-1-0-0", "S-1-1-0", "S-1-2-0", "S-1-2-1", "S-1-3-0", "S-1-3-1", "S-1-3-4", "S-1-5-1",
    "S-1-5-2", "S-1-5-3", "S-1-5-4", "S-1-5-6", "S-1-5-7", "S-1-5-9", "S-1-5-11", "S-1-5-13",
    "S-1-5-15", "S-1-5-18", "S-1-5-19", "S-1-5-20", "S-1-5-32-544", "S-1-5-32-545",
    "S-1-5-32-546", "S-1-5-32-547", "S-1-5-32-551", "S-1-5-32-555", "S-1-5-32-559",
    "S-1-5-32-562", "S-1-5-33", "S-1-5-113", "S-1-5-114", "S-1-15-2-1"]

/-- `is_well_known` of a text that may not be a SID. -/
def isWellKnown (sidValue : String) : Bool :=
  match (canonicalizeSid sidValue).toOption with
  | none => false
  | some value => wellKnownSids.contains value || builtinPrefix.toList.isPrefixOf value.toList

/-- `_unresolved_reason`. -/
def unresolvedReason (principal : Option PrincipalFacts) (trusteeSid : String) : Option String :=
  match principal with
  | none => if isWellKnown trusteeSid then none else some "no_principal_record"
  | some p =>
    if p.isUnresolved then some (p.unresolvedReason.elim "unresolved" UnresolvedReason.value)
    else if p.isDeleted then some "deleted"
    else none

/-- What `UnresolvedSidOnAcl` yields for a trustee nothing resolved. -/
def unresolvedOutcome (f : RiskFacts) (config : RuleConfig) (acl : Acl) (ace : AceFacts) :
    Option RuleOutcome :=
  (unresolvedReason (f.principal ace.trusteeKey) ace.trusteeSid).map fun reason =>
    outcomeOf (acl.subject none ace.trusteeKey) .default acl.container
      (acl.cite ace.trusteeKey ++ (f.principal ace.trusteeKey).toList.map forPrincipal)
      acl.qualifiers
      [("trustee_sid",.text ace.trusteeSid), ("trustee_key",.text ace.trusteeKey),
        ("reason",.text reason), ("layer",.text acl.layer.value),
        ("last_known_name",textOrNull ((f.principal ace.trusteeKey).bind (·.displayName))),
        ruleVersion config]

/-- `UnresolvedSidOnAcl.evaluate`. -/
def unresolvedSidOnAcl (f : RiskFacts) (config : RuleConfig) :
    Except DomainError (List RuleOutcome) :=
  overTrustees f
    (fun _ ace => (unresolvedReason (f.principal ace.trusteeKey) ace.trusteeSid).isSome)
    fun acl ace => .ok (unresolvedOutcome f config acl ace)

/-! ### Memberships below a trustee -/

/-- Whether some entry of the list grants a trustee something. -/
def grantsTo (t : String) (acl : Acl) : Bool := acl.aces.any fun a => a.grants && a.trusteeKey = t

def Acl.place (acl : Acl) : String ×ₗ String := toLex (acl.layer.value,acl.key)

/-- The first list in each place. -/
def firstLists : List Acl → List Acl
  | [] => []
  | acl :: rest => acl :: (firstLists rest).filter fun other => other.place ≠ acl.place

/-- The lists that name a trustee, in order. -/
def listsNaming (f : RiskFacts) (t : String) : List Acl :=
  sortedBy Acl.place (firstLists ((acls f).filter (grantsTo t)))

/-- The trustees that some list grants something, in order. -/
def grantedTrustees (lists : List Acl) : List String :=
  sortedBy id (((lists.flatMap Acl.aces).filter AceFacts.grants).map (·.trusteeKey)).dedup

/-- `_trustee_index`. -/
def trusteeIndex (f : RiskFacts) : List (String × List Acl) :=
  (grantedTrustees (acls f)).map fun t => (t,listsNaming f t)

/-- `chain.keys[-1]`. -/
def lastOf (c : Chain) : String := c.keys.getLastD ""

def isDisabled (f : RiskFacts) (key : String) : Bool :=
  (f.principal key).any fun p => p.enabled = some false

/-- `_disabled_below`. -/
def disabledBelow (f : RiskFacts) (t : String) (depth : ℤ) : List (String × Chain) :=
  (if isDisabled f t then [(t,⟨[t],[],false⟩)] else []) ++
    ((f.chainsDown t depth).filter fun c => isDisabled f (lastOf c)).map fun c => (lastOf c,c)

/-- The part of a key behind its last separator, or all of it. -/
def tailOf (key : String) : String :=
  String.ofList (key.toList.reverse.takeWhile (· ≠ '|')).reverse

/-- `_sid_of`. -/
def sidOf (f : RiskFacts) (key : String) : String := (f.principal key).elim (tailOf key) (·.sid)

/-- What a chain that was cut short adds. -/
def cutShort (c : Chain) : Finset FactQualifier :=
  if c.truncated then {.membershipTruncated} else ∅

/-- `DisabledPrincipalRetainsAccess._outcome`. -/
def disabledOutcome (f : RiskFacts) (config : RuleConfig) (t : String) (principal : PrincipalFacts)
    (chain : Chain) (acl : Acl) : Except DomainError RuleOutcome := do
  let evaluation ← acl.evaluateFor t (sidOf f t)
  return outcomeOf (acl.subject principal.key t) .default acl.container
    (acl.cite t ++ [forPrincipal principal] ++ chain.edges.map forMembership)
    (acl.qualifiers ∪ cutShort chain)
    [("principal_label",.text principal.label), ("principal_sid",.text principal.sid),
      ("trustee_key",.text t), ("depth",.whole chain.depth),
      ("chain",.array (chain.keys.map Json.text)), ("layer",.text acl.layer.value),
      ("rights_label",.text (summarize evaluation.rights).label), ruleVersion config]

/-- `DisabledPrincipalRetainsAccess.evaluate`. -/
def disabledPrincipalRetainsAccess (f : RiskFacts) (config : RuleConfig) :
    Except DomainError (List RuleOutcome) := do
  let depth ← config.optionInt "max_membership_depth" 1
  List.flatten <$> (trusteeIndex f).mapM fun entry =>
    List.flatten <$> (disabledBelow f entry.1 depth).mapM fun below =>
      match f.principal below.1 with
      | none => .ok []
      | some principal => entry.2.mapM (disabledOutcome f config entry.1 principal below.2)

/-- Whether a chain goes deeper than another, or as deep and behind it in key order. -/
def Deeper (c best : Chain) : Prop :=
  best.depth < c.depth ∨ best.depth = c.depth ∧ best.keys < c.keys

instance (c best : Chain) : Decidable (Deeper c best) := inferInstanceAs (Decidable (_ ∨ _))

/-- `_deepest`. -/
def deepest (f : RiskFacts) (t : String) (limit : ℤ) : Option Chain :=
  (f.chainsDown t limit).foldl (fun best c =>
    match best with
    | none => some c
    | some b => if Deeper c b then some c else some b) none

/-- What the records of several lists that name a trustee are. -/
def citeLists (lists : List Acl) (t : String) : List EvidenceItem :=
  lists.map Acl.container ++ lists.flatMap fun acl => acl.cite t

theorem given_key {key : String} (h : key ≠ "") :
    given none || given none || given (some key) := by
  simp [given, h]

/-- What `DeepGroupNesting` yields for a trustee. -/
def deepOutcome (f : RiskFacts) (config : RuleConfig) (maximum : ℤ) (t : String)
    (lists : List Acl) : Option RuleOutcome :=
  match deepest f t (maximum+1) with
  | none => none
  | some chain =>
    if (chain.depth : ℤ) ≤ maximum then none
    else if hkey : t = "" then none
    else
      match citeLists lists t with
      | [] => none
      | first :: rest =>
        some (outcomeOf ⟨none,none,some t,none,given_key hkey⟩ .default first
          (rest ++ (f.principal t).toList.map forPrincipal ++ chain.edges.map forMembership)
          (f.qualifiersFor [t] ∪ cutShort chain)
          [("depth",.whole chain.depth), ("max_depth",.whole maximum),
            ("chain",.array (chain.keys.map Json.text)),
            ("trustee_label",textOrNull ((f.principal t).map (·.label))),
            ("resources",.array (lists.map fun acl => Json.text acl.key)), ruleVersion config])

/-- `DeepGroupNesting.evaluate`. -/
def deepGroupNesting (f : RiskFacts) (config : RuleConfig) :
    Except DomainError (List RuleOutcome) := do
  let maximum ← config.optionInt "max_depth" 1
  return (trusteeIndex f).filterMap fun entry => deepOutcome f config maximum entry.1 entry.2

/-- The first of the shortest chains. -/
def firstShortest (chains : List Chain) : Option Chain :=
  chains.foldl (fun existing c =>
    match existing with
    | none => some c
    | some b => if c.depth < b.depth then some c else some b) none

def describedGroup (f : RiskFacts) (key : String) : Bool := (f.principal key).any (·.isGroup)

/-- The trustees a list grants something, in order. -/
def routeTrustees (acl : Acl) : List String := grantedTrustees [acl]

/-- The chains below a trustee that do not end at a group, as `reached` collects them. -/
def chainsToMembers (f : RiskFacts) (depth : ℤ) (t : String) : List Chain :=
  (f.chainsDown t depth).filter fun c => !describedGroup f (lastOf c)

/-- `reached[member]`: for each trustee the chain that is kept, in the order of the trustees. -/
def routesTo (f : RiskFacts) (acl : Acl) (depth : ℤ) (member : String) : List (String × Chain) :=
  (routeTrustees acl).filterMap fun t =>
    (firstShortest ((chainsToMembers f depth t).filter fun c => lastOf c = member)).map fun c =>
      (t,c)

/-- The keys of `reached`, in order. -/
def reachedMembers (f : RiskFacts) (acl : Acl) (depth : ℤ) : List String :=
  sortedBy id ((routeTrustees acl).flatMap fun t => (chainsToMembers f depth t).map lastOf).dedup

/-- What `RedundantAccessPaths` yields for a member of some trustees of a list. -/
def redundantOutcome (f : RiskFacts) (config : RuleConfig) (minimum depth : ℤ) (acl : Acl)
    (member : String) : Option RuleOutcome :=
  let routes := routesTo f acl depth member
  if (routes.length : ℤ) < minimum then none
  else some (outcomeOf (acl.subject member none) .default acl.container
    (routes.flatMap (fun route => acl.cite route.1 ++ route.2.edges.map forMembership) ++
      (f.principal member).toList.map forPrincipal)
    (acl.qualifiers ∪
      if routes.any (·.2.truncated) then {FactQualifier.membershipTruncated} else ∅)
    [("principal_label",textOrNull ((f.principal member).map (·.label))),
      ("route_count",.whole routes.length), ("minimum_paths",.whole minimum),
      ("trustees",.array (routes.map fun route => Json.text route.1)),
      ("layer",.text acl.layer.value), ruleVersion config])

/-- `RedundantAccessPaths.evaluate`. -/
def redundantAccessPaths (f : RiskFacts) (config : RuleConfig) :
    Except DomainError (List RuleOutcome) := do
  let minimum ← config.optionInt "minimum_paths" 2
  let depth ← config.optionInt "max_membership_depth" 1
  return (acls f).flatMap fun acl =>
    (reachedMembers f acl depth).filterMap (redundantOutcome f config minimum depth acl)

/-- What `EmptyPermissionBearingGroup` yields for a trustee. -/
def emptyOutcome (f : RiskFacts) (config : RuleConfig) (t : String) (lists : List Acl) :
    Option RuleOutcome :=
  match f.membership t, f.principal t with
  | some membership, some principal =>
    if membership.enumerated ≠ some true || !membership.memberKeys.isEmpty ||
        !principal.isGroup then
      none
    else if hkey : t = "" then none
    else
      match citeLists lists t with
      | [] => none
      | first :: rest =>
        some (outcomeOf ⟨none,none,some t,none,given_key hkey⟩ .default first
          (rest ++ [forPrincipal principal, forMembership membership]) ∅
          [("group_label",.text principal.label), ("group_sid",.text principal.sid),
            ("resources",.array (lists.map fun acl => Json.text acl.key)), ruleVersion config])
  | _, _ => none

/-- `EmptyPermissionBearingGroup.evaluate`. -/
def emptyPermissionBearingGroup (f : RiskFacts) (config : RuleConfig) :
    Except DomainError (List RuleOutcome) :=
  .ok ((trusteeIndex f).filterMap fun entry => emptyOutcome f config entry.1 entry.2)

/-! ### Resources -/

/-- `BrokenInheritance._band`. -/
def brokenBand (r : ResourceFacts) (includeDiverged : Bool) : Option SeverityBand :=
  if r.daclProtected || r.boundaryReason = some .protectedDacl then some .protected
  else if includeDiverged && r.boundaryReason = some .aclDiffersFromParent then some .diverged
  else none

def brokenOutcome (config : RuleConfig) (includeRoots includeDiverged : Bool) (r : ResourceFacts) :
    Option RuleOutcome :=
  if r.isShareRoot && !includeRoots then none
  else (brokenBand r includeDiverged).map fun band =>
    outcomeOf ⟨some r.resourceKey,none,none,none,by simp [given, r.key_ne]⟩ band
      (forResource r) [] r.qualifiers
      [("path",.text r.path),
        ("boundary_reason",textOrNull (r.boundaryReason.map AclBoundaryReason.value)),
        ("dacl_protected",.bool r.daclProtected), ruleVersion config]

/-- `BrokenInheritance.evaluate`. -/
def brokenInheritance (f : RiskFacts) (config : RuleConfig) :
    Except DomainError (List RuleOutcome) := do
  let includeRoots ← config.optionBool "include_share_roots"
  let includeDiverged ← config.optionBool "include_diverged"
  return (sortedBy (·.resourceKey) f.resources).filterMap
    (brokenOutcome config includeRoots includeDiverged)

/-! ### Sensitive resources -/

section Sensitive
variable (casefold : String → String)

/-- `_tags_for`. -/
def tagsFor (tags : List SensitiveResource) : Acl → List SensitiveResource
  | .resource r => tags.filter fun t => t.matchesResource casefold r
  | .share s => tags.filter fun t => t.matchesShare s

/-- `_is_broad`. -/
def isBroad (sids : List String) (rids : List ℤ) (ace : AceFacts) : Bool :=
  sids.contains ace.trusteeSid || rids.any fun rid => domainRelativeTrustee ace.trusteeSid rid

theorem tag_ne (label : String) : "sensitive_resource:" ++ label ≠ "" := by
  intro h
  have hlength := congrArg (fun s => s.toList.length) h
  simp at hlength

/-- What `BroadAccessOnSensitiveResource` yields for a trustee. -/
def sensitiveOutcome (config : RuleConfig) (threshold : RightsCategory) (acl : Acl)
    (ace : AceFacts) : Except DomainError (Option RuleOutcome) := do
  match tagsFor casefold config.sensitiveResources acl with
  | [] => return none
  | tag :: _ =>
    let evaluation ← acl.evaluateFor ace.trusteeKey ace.trusteeSid
    if !reaches evaluation.rights threshold then
      return none
    return some (outcomeOf (acl.subject none ace.trusteeKey) (bandFor evaluation.rights)
      acl.container
      (acl.cite ace.trusteeKey ++ [forConfiguration ("sensitive_resource:" ++ tag.label)
        (.text tag.selector) (tag_ne tag.label)])
      acl.qualifiers
      [("trustee_sid",.text ace.trusteeSid), ("sensitivity_label",.text tag.label),
        ("sensitivity_selector",.text tag.selector), ("layer",.text acl.layer.value),
        ("rights_label",.text (summarize evaluation.rights).label), ruleVersion config])

/-- `BroadAccessOnSensitiveResource.evaluate`. -/
def broadAccessOnSensitiveResource (f : RiskFacts) (config : RuleConfig) :
    Except DomainError (List RuleOutcome) := do
  if config.sensitiveResources.isEmpty then
    return []
  let threshold ← config.optionCategory "minimum_category"
  let sids ← config.optionStrings "broad_trustee_sids"
  let rids ← config.optionInts "broad_trustee_rids"
  overTrustees f
    (fun acl ace => !(tagsFor casefold config.sensitiveResources acl).isEmpty && ace.grants &&
      isBroad sids rids ace)
    (sensitiveOutcome casefold config threshold)

/-- `RULES[rule_id].evaluate`. -/
def evaluateRule (f : RiskFacts) (config : RuleConfig) :
    RuleId → Except DomainError (List RuleOutcome)
  | .everyoneBroadAccess => everyoneBroadAccess f config
  | .authenticatedUsersBroadAccess => authenticatedUsersBroadAccess f config
  | .domainUsersBroadAccess => domainUsersBroadAccess f config
  | .directUserAce => directUserAce f config
  | .disabledPrincipalRetainsAccess => disabledPrincipalRetainsAccess f config
  | .unresolvedSidOnAcl => unresolvedSidOnAcl f config
  | .brokenInheritance => brokenInheritance f config
  | .deepGroupNesting => deepGroupNesting f config
  | .redundantAccessPaths => redundantAccessPaths f config
  | .emptyPermissionBearingGroup => emptyPermissionBearingGroup f config
  | .broadAccessOnSensitiveResource => broadAccessOnSensitiveResource casefold f config

end Sensitive

end Adg.RiskRules
