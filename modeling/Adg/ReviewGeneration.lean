import Adg.CanonicalJson
import Adg.ScopeClosure
import Adg.VersionReads

/-!
# Generating the items of a review

A campaign names scopes and a baseline instant. The entries of the access lists
that its scopes select at that instant are gathered, some are left out, and the
rest are folded into one item for every principal and target. An item carries
the digest of its entries and the campaign the digest of its items.
-/

set_option autoImplicit false

namespace Adg.ReviewGeneration
open Adg.Observation Adg.ObjectVersions Adg.VersionTable Adg.VersionReads Adg.SortedLists
open Adg.SecurityIdentifier Adg.CanonicalJson

inductive ReviewTargetKind where
  | share
  | resource
  deriving DecidableEq, Repr

def ReviewTargetKind.value : ReviewTargetKind → String
  | .share => "share"
  | .resource => "resource"

inductive CampaignFocus where
  | resource
  | principal
  deriving DecidableEq, Repr

def CampaignFocus.value : CampaignFocus → String
  | .resource => "resource"
  | .principal => "principal"

inductive ReviewScopeKind where
  | server
  | share
  | directoryTree
  | principal
  deriving DecidableEq, Repr

def ReviewScopeKind.value : ReviewScopeKind → String
  | .server => "server"
  | .share => "share"
  | .directoryTree => "directory_tree"
  | .principal => "principal"

/-- A scope with a key that is not blank. -/
structure CampaignScope where
  kind : ReviewScopeKind
  key : String
  keyed : strip key.toList ≠ []

structure GenerationOptions where
  includeInherited : Bool := false
  includeBuiltin : Bool := false
  includeDeny : Bool := true
  deriving DecidableEq, Repr

/-- `MAX_SCOPE_TARGETS`. -/
def maxScopeTargets : ℕ := 20000

/-- `MAX_CAMPAIGN_ITEMS`. -/
def maxCampaignItems : ℕ := 5000

/-- Why no items are produced. A state of a stored entry that lacks a column, or
holds what the column cannot, does not become a record. -/
inductive GenerationError where
  | scopeTooLarge (selected : ℕ)
  | campaignTooLarge (produced : ℕ)
  | malformed
  deriving DecidableEq, Repr

/-- `as_digestible`: what the evidence digest is taken over. -/
structure ReviewedEntry where
  targetKind : ReviewTargetKind
  aceKey : String
  trusteeSid : String
  trusteeKey : String
  aceType : AceType
  accessMask : Option ℤ
  permission : Option SharePermission
  aceFlags : Option ℤ
  source : Option AceSource
  inheritedFrom : Option String
  orderIndex : Option ℤ
  versionId : ℕ
  deriving DecidableEq, Repr

/-- An entry, and how it is known to have held at the baseline. -/
structure GrantEvidence where
  entry : ReviewedEntry
  observedFrom : Instant
  lastConfirmedAt : Instant
  certainty : Certainty
  deriving DecidableEq, Repr

/-- An entry on its target: what decides which item it belongs to, and what that says. -/
structure Grant where
  targetKind : ReviewTargetKind
  targetKey : String
  entry : ReviewedEntry
  deriving DecidableEq, Repr

structure ObservedGrant where
  targetKind : ReviewTargetKind
  targetKey : String
  targetPath : Option String
  evidence : GrantEvidence
  deriving DecidableEq, Repr

def ObservedGrant.grant (g : ObservedGrant) : Grant where
  targetKind := g.targetKind
  targetKey := g.targetKey
  entry := g.evidence.entry

/-! ### Entries of the record -/

def textColumn (state : State) (name : String) : Except GenerationError String :=
  match state.lookup name with
  | some (.text s) => .ok s
  | _ => .error .malformed

def optionalText (state : State) (name : String) : Except GenerationError (Option String) :=
  match state.lookup name with
  | some (.text s) => .ok (some s)
  | some .null => .ok none
  | _ => .error .malformed

def wholeColumn (state : State) (name : String) : Except GenerationError ℤ :=
  match state.lookup name with
  | some (.whole n) => .ok n
  | _ => .error .malformed

def optionalWhole (state : State) (name : String) : Except GenerationError (Option ℤ) :=
  match state.lookup name with
  | some (.whole n) => .ok (some n)
  | some .null => .ok none
  | _ => .error .malformed

def aceTypeOf : String → Except GenerationError AceType
  | "allow" => .ok .allow
  | "deny" => .ok .deny
  | _ => .error .malformed

/-- `AceSource.value`. -/
def sourceValue : AceSource → String
  | .explicit => "explicit"
  | .inherited => "inherited"

def aceSourceOf : String → Except GenerationError AceSource
  | "explicit" => .ok .explicit
  | "inherited" => .ok .inherited
  | _ => .error .malformed

def permissionOf : Option String → Except GenerationError (Option SharePermission)
  | none => .ok none
  | some "read" => .ok (some .read)
  | some "change" => .ok (some .change)
  | some "full" => .ok (some .full)
  | some _ => .error .malformed

/-- `share_ace_record` and the evidence `_share_grant` makes of it, with the target's key. -/
def shareEntry (versionId : ℕ) (state : State) :
    Except GenerationError (String × ReviewedEntry) := do
  let aceKey ← textColumn state "ace_key"
  let shareKey ← textColumn state "share_key"
  let trusteeSid ← textColumn state "trustee_sid"
  let trusteeKey ← textColumn state "trustee_key"
  let aceType ← textColumn state "ace_type" >>= aceTypeOf
  let accessMask ← optionalWhole state "access_mask"
  let permission ← optionalText state "permission" >>= permissionOf
  let orderIndex ← optionalWhole state "order_index"
  return (shareKey,
    { targetKind := .share
      aceKey := aceKey
      trusteeSid := trusteeSid
      trusteeKey := trusteeKey
      aceType := aceType
      accessMask := accessMask
      permission := permission
      aceFlags := none
      source := none
      inheritedFrom := none
      orderIndex := orderIndex
      versionId := versionId })

/-- `ntfs_ace_record` and the evidence `_ntfs_grant` makes of it, with the target's key. -/
def ntfsEntry (versionId : ℕ) (state : State) :
    Except GenerationError (String × ReviewedEntry) := do
  let aceKey ← textColumn state "ace_key"
  let resourceKey ← textColumn state "resource_key"
  let trusteeSid ← textColumn state "trustee_sid"
  let trusteeKey ← textColumn state "trustee_key"
  let aceType ← textColumn state "ace_type" >>= aceTypeOf
  let accessMask ← wholeColumn state "access_mask"
  let aceFlags ← wholeColumn state "ace_flags"
  let source ← textColumn state "source" >>= aceSourceOf
  let inheritedFrom ← optionalText state "inherited_from"
  let orderIndex ← optionalWhole state "order_index"
  return (resourceKey,
    { targetKind := .resource
      aceKey := aceKey
      trusteeSid := trusteeSid
      trusteeKey := trusteeKey
      aceType := aceType
      accessMask := some accessMask
      permission := none
      aceFlags := some aceFlags
      source := some source
      inheritedFrom := inheritedFrom
      orderIndex := orderIndex
      versionId := versionId })

/-- The entry a version of a kind of access list holds. -/
def entryOf (targetKind : ReviewTargetKind) (versionId : ℕ) (state : Option State) :
    Except GenerationError (String × ReviewedEntry) :=
  match state, targetKind with
  | none, _ => .error .malformed
  | some s, .share => shareEntry versionId s
  | some s, .resource => ntfsEntry versionId s

/-- `_share_grant` and `_ntfs_grant`. -/
def observedGrant (targetKind : ReviewTargetKind) (moment : Instant)
    (paths : List (String × Option String)) (v : ObjectVersion) :
    Except GenerationError ObservedGrant := do
  let (targetKey,entry) ← entryOf targetKind v.versionId v.state
  return { targetKind := targetKind
           targetKey := targetKey
           targetPath := (paths.lookup (v.containerKey.getD "")).join
           evidence :=
            { entry := entry
              observedFrom := v.validFrom
              lastConfirmedAt := v.lastSeenAt
              certainty := v.certaintyAt moment } }

/-- A text that says something. -/
def spoken (state : Option State) (name : String) : Option String :=
  match state.bind (·.lookup name) with
  | some (.text s) => if s = "" then none else some s
  | _ => none

/-- `_share_path`. -/
def sharePath (state : Option State) : Option String := do
  let server ← spoken state "server_key"
  let name ← spoken state "name"
  return "\\\\" ++ server ++ "\\" ++ name

/-- `_resource_path`. -/
def resourcePath (state : Option State) : Option String := spoken state "path"

/-- The path `_resources_under` reads, which may be empty. -/
def treePath (state : Option State) : Option String :=
  match state.bind (·.lookup "path") with
  | some (.text s) => some s
  | _ => none

/-! ### What the scopes select -/

section Selecting
variable (casefold : String → String) (t : Table) (moment : Instant)

/-- The dictionary from the keys of what was found to their paths. -/
def pathsOf (path : Option State → Option String) (found : List ObjectVersion) :
    List (String × Option String) :=
  (asDict found).map fun v => (v.key,path v.state)

/-- `_shares_for_scope`. -/
def sharesForScope (scope : CampaignScope) : List (String × Option String) :=
  pathsOf sharePath (match scope.kind with
    | .share => versionsAt t .smbShare [casefold scope.key] moment
    | .server => containedAt t .smbShare [casefold scope.key] moment
    | .directoryTree | .principal => [])

/-- `str.rstrip` of one character. -/
def stripEnd (c : Char) (text : String) : String :=
  String.ofList (text.toList.reverse.dropWhile (· = c)).reverse

/-- What `_resources_under` looks for. -/
def isUnder (root : String) (kind : ObservationKind) (key : String) : Bool :=
  kind = .ntfsResource &&
    (key = root || (stripEnd '\\' root ++ "\\").toList.isPrefixOf key.toList)

/-- The rows `_resources_for_scope` reads, one more than it may return. -/
def resourcesFound (ceiling : ℕ) (scope : CampaignScope) : List ObjectVersion :=
  match scope.kind with
  | .directoryTree =>
    (select t moment fun v => isUnder (casefold scope.key) v.kind v.key).take (ceiling+1)
  | .share => (containedAt t .ntfsResource [casefold scope.key] moment).take (ceiling+1)
  | .server => (relatedAt t .ntfsResource [casefold scope.key] moment).take (ceiling+1)
  | .principal => []

/-- `_resources_for_scope`. -/
def resourcesForScope (ceiling : ℕ) (scope : CampaignScope) :
    Except GenerationError (List (String × Option String)) :=
  let path := if scope.kind = .directoryTree then treePath else resourcePath
  let found := pathsOf path (resourcesFound casefold t moment ceiling scope)
  if ceiling < found.length then .error (.scopeTooLarge found.length) else .ok found

/-- `_grants_on_targets`. -/
def grantsOnTargets (ceiling : ℕ) (scope : CampaignScope) :
    Except GenerationError (List ObservedGrant) := do
  let shares := sharesForScope casefold t moment scope
  let resources ← resourcesForScope casefold t moment ceiling scope
  if ceiling < shares.length+resources.length then
    throw (.scopeTooLarge (shares.length+resources.length))
  let onShares ← ((containedAt t .smbAce (shares.map (·.1)) moment).take (ceiling*8)).mapM
    (observedGrant .share moment shares)
  let onResources ← ((containedAt t .ntfsAce (resources.map (·.1)) moment).take (ceiling*8)).mapM
    (observedGrant .resource moment resources)
  return onShares ++ onResources

/-- `_grants_naming_principal`. -/
def grantsNamingPrincipal (scope : CampaignScope) :
    Except GenerationError (List ObservedGrant) := do
  let shareVersions := relatedAt t .smbAce [scope.key] moment
  let ntfsVersions := relatedAt t .ntfsAce [scope.key] moment
  let containers (versions : List ObjectVersion) : List String :=
    versions.filterMap fun v => v.containerKey.filter (· ≠ "")
  let sharePaths := pathsOf sharePath
    (versionsAt t .smbShare (containers shareVersions) moment)
  let resourcePaths := pathsOf resourcePath
    (versionsAt t .ntfsResource (containers ntfsVersions) moment)
  let onShares ← shareVersions.mapM (observedGrant .share moment sharePaths)
  let onResources ← ntfsVersions.mapM (observedGrant .resource moment resourcePaths)
  return onShares ++ onResources

/-- `_grants_for_scope`. -/
def grantsForScope (focus : CampaignFocus) (ceiling : ℕ) (scope : CampaignScope) :
    Except GenerationError (List ObservedGrant) :=
  if focus = .principal then grantsNamingPrincipal t moment scope
  else grantsOnTargets casefold t moment ceiling scope

end Selecting

/-- A dictionary filled by `setdefault`: the first of a key stays. -/
def firstByKey {α κ : Type} [DecidableEq κ] (key : α → κ) : List α → List α
  | [] => []
  | a :: rest => a :: (firstByKey key rest).filter fun b => key b ≠ key a

/-- Where a grant stands among the grants. -/
def grantKey (g : Grant) : String ×ₗ String := toLex (g.targetKind.value,g.entry.aceKey)

/-- `grants_at`. -/
def grantsAt (casefold : String → String) (t : Table) (focus : CampaignFocus)
    (scopes : List CampaignScope) (moment : Instant) (targetCeiling : ℕ) :
    Except GenerationError (List ObservedGrant) := do
  let found ← scopes.mapM (grantsForScope casefold t moment focus targetCeiling)
  return sortedBy (fun g => grantKey g.grant) (firstByKey (fun g => grantKey g.grant) found.flatten)

/-- `principal_names_at`. -/
def principalNamesAt (t : Table) (keys : List String) (moment : Instant) :
    List (String × Option String) :=
  (asDict (versionsAt t .principal (keys.filter (· ≠ "")) moment)).map fun v =>
    (v.key,(spoken v.state "display_name").or
      ((spoken v.state "sam_account_name").or (spoken v.state "last_known_name")))

/-! ### Items -/

/-- `WELL_KNOWN_SID_NAMES`, its keys. -/
def wellKnownSids : List String :=
  ["S-1-0-0", "S-1-1-0", "S-1-2-0", "S-1-2-1", "S-1-3-0", "S-1-3-1", "S-1-3-4", "S-1-5-1",
    "S-1-5-2", "S-1-5-3", "S-1-5-4", "S-1-5-6", "S-1-5-7", "S-1-5-9", "S-1-5-11", "S-1-5-13",
    "S-1-5-15", "S-1-5-18", "S-1-5-19", "S-1-5-20", "S-1-5-32-544", "S-1-5-32-545",
    "S-1-5-32-546", "S-1-5-32-547", "S-1-5-32-551", "S-1-5-32-555", "S-1-5-32-559",
    "S-1-5-32-562", "S-1-5-33", "S-1-5-113", "S-1-5-114", "S-1-15-2-1"]

/-- `_is_well_known`: a trustee that does not parse is not. -/
def isWellKnown (sid : String) : Bool :=
  match Sid.parse sid with
  | .error _ => false
  | .ok parsed => parsed.value ∈ wellKnownSids || parsed.isBuiltin

/-- `_exclusion_reason`. -/
def exclusionReason (options : GenerationOptions) (entry : ReviewedEntry) : Option String :=
  if ¬ options.includeInherited ∧ entry.source = some .inherited then some "inherited"
  else if ¬ options.includeBuiltin ∧ isWellKnown entry.trusteeSid then some "builtin_trustee"
  else if ¬ options.includeDeny ∧ entry.aceType = .deny then some "deny"
  else none

abbrev NaturalKey := String ×ₗ String ×ₗ String

/-- `item_natural_key`. -/
def itemNaturalKey (g : Grant) : NaturalKey :=
  toLex (g.targetKind.value,toLex (g.targetKey,g.entry.trusteeKey))

def optionalJson {α : Type} (f : α → Json) : Option α → Json
  | none => .null
  | some a => f a

/-- `as_digestible`. -/
def ReviewedEntry.asDigestible (e : ReviewedEntry) : Json :=
  .object
    [("target_kind",.text e.targetKind.value),
      ("ace_key",.text e.aceKey),
      ("trustee_sid",.text e.trusteeSid),
      ("trustee_key",.text e.trusteeKey),
      ("ace_type",.text e.aceType.value),
      ("access_mask",optionalJson .whole e.accessMask),
      ("permission",optionalJson (fun p => .text (SharePermission.value p)) e.permission),
      ("ace_flags",optionalJson .whole e.aceFlags),
      ("source",optionalJson (fun s => .text (sourceValue s)) e.source),
      ("inherited_from",optionalJson .text e.inheritedFrom),
      ("order_index",optionalJson .whole e.orderIndex),
      ("version_id",.whole e.versionId)]

section Digests
variable (sha256 : String → String)

/-- `evidence_digest`. -/
def evidenceDigest (entries : List ReviewedEntry) : String :=
  sha256 (canonical (.array ((sortedBy (·.aceKey) entries).map (·.asDigestible))))

/-- `snapshot_digest`. -/
def snapshotDigest (items : List (NaturalKey × String)) : String :=
  let ordered := sortedBy (fun i : NaturalKey × String => toLex i) items
  sha256 (canonical (.array (ordered.map fun i =>
    .array [.array [.text (ofLex i.1).1,.text (ofLex (ofLex i.1).2).1,.text (ofLex (ofLex i.1).2).2],
      .text i.2])))

end Digests

structure DraftItem where
  focus : CampaignFocus
  targetKind : ReviewTargetKind
  targetKey : String
  targetPath : Option String
  principalKey : String
  principalSid : String
  principalDisplayName : Option String
  grants : List GrantEvidence
  digest : String
  certainty : Certainty
  deriving DecidableEq, Repr

def DraftItem.naturalKey (item : DraftItem) : NaturalKey :=
  toLex (item.targetKind.value,toLex (item.targetKey,item.principalKey))

/-- Where a certainty stands, the firmest first. -/
def weakness : Certainty → ℕ
  | .observed => 0
  | .inferred => 1
  | .backfilled => 2
  | .unobserved => 3

/-- `weakest_certainty`: the first of the weakest. -/
def weakestCertainty (grants : List GrantEvidence) : Certainty :=
  (grants.foldl (fun (weakest : Option Certainty) g => match weakest with
    | none => some g.certainty
    | some w => if weakness w < weakness g.certainty then some g.certainty else some w) none).getD
      .unobserved

structure GenerationResult where
  items : List DraftItem
  excluded : List (String × ℕ)
  digest : String
  deriving DecidableEq, Repr

section Items
variable (sha256 : String → String) (focus : CampaignFocus) (options : GenerationOptions)
  (names : List (String × Option String))

/-- `_build`, of the grants of one natural key. -/
def buildItem (first : ObservedGrant) (members : List ObservedGrant) : DraftItem :=
  let evidence := sortedBy (·.entry.aceKey) (members.map (·.evidence))
  let spokenPaths := members.filterMap fun g => g.targetPath.filter (· ≠ "")
  { focus := focus
    targetKind := first.targetKind
    targetKey := first.targetKey
    targetPath := spokenPaths.head?.or first.targetPath
    principalKey := first.evidence.entry.trusteeKey
    principalSid := first.evidence.entry.trusteeSid
    principalDisplayName := (names.lookup first.evidence.entry.trusteeKey).join
    grants := evidence
    digest := evidenceDigest sha256 (evidence.map (·.entry))
    certainty := weakestCertainty evidence }

/-- The grants that are reviewed. -/
def included (grants : List ObservedGrant) : List ObservedGrant :=
  grants.filter fun g => (exclusionReason options g.evidence.entry).isNone

/-- The natural keys of some grants, in order. -/
def naturalKeys (grants : List Grant) : List NaturalKey :=
  sortedBy id (grants.map itemNaturalKey).dedup

/-- One item for every natural key, in order. -/
def buildItems (grants : List ObservedGrant) : List DraftItem :=
  (naturalKeys (grants.map (·.grant))).filterMap fun key =>
    let members := grants.filter fun g => itemNaturalKey g.grant = key
    members.head?.map fun first => buildItem sha256 focus names first members

/-- The tally of what was left out, by reason. -/
def tallyExcluded (grants : List ObservedGrant) : List (String × ℕ) :=
  let reasons := grants.filterMap fun g => exclusionReason options g.evidence.entry
  (sortedBy id reasons.dedup).map fun r => (r,reasons.count r)

def fingerprints (items : List DraftItem) : List (NaturalKey × String) :=
  items.map fun item => (item.naturalKey,item.digest)

/-- `generate_items`. -/
def generateItems (grants : List ObservedGrant) (ceiling : ℕ) :
    Except GenerationError GenerationResult :=
  let kept := included options grants
  let produced := (naturalKeys (kept.map (·.grant))).length
  if ceiling < produced then .error (.campaignTooLarge produced)
  else
    let items := buildItems sha256 focus names kept
    .ok { items := items
          excluded := tallyExcluded options grants
          digest := snapshotDigest sha256 (fingerprints items) }

end Items

/-- What a campaign row says about its generation. -/
structure CampaignPlan where
  focus : CampaignFocus
  scopes : List CampaignScope
  options : GenerationOptions
  baselineAt : Instant

/-- `_generate_from_baseline`. -/
def generateFromBaseline (casefold sha256 : String → String) (t : Table) (plan : CampaignPlan) :
    Except GenerationError GenerationResult := do
  let grants ← grantsAt casefold t plan.focus plan.scopes plan.baselineAt maxScopeTargets
  let names := principalNamesAt t (grants.map (·.evidence.entry.trusteeKey)) plan.baselineAt
  generateItems sha256 plan.focus plan.options names grants maxCampaignItems

end Adg.ReviewGeneration
