import Adg.CurrentState
import Adg.ResourcePath

/-!
# What a reconciled scope may mark absent

A scope closes only kinds its collector reports, and only objects that a
selector finds inside the scope's key. The entries of an object are selected
through the object, and a domain's own objects through the run's principals.
-/

set_option autoImplicit false

namespace Adg.ScopeClosure
open Adg.Observation Adg.ObjectVersions Adg.KeyedTables Adg.CurrentState Adg.ResourcePath

inductive CollectorKind where
  | activeDirectory
  | smb
  | ntfs
  | localGroups
  deriving DecidableEq, Repr

def CollectorKind.value : CollectorKind → String
  | .activeDirectory => "active_directory"
  | .smb => "smb"
  | .ntfs => "ntfs"
  | .localGroups => "local_groups"

inductive ScopeKind where
  | domain
  | server
  | share
  | directoryTree
  | localGroupsHost
  deriving DecidableEq, Repr

def ScopeKind.value : ScopeKind → String
  | .domain => "domain"
  | .server => "server"
  | .share => "share"
  | .directoryTree => "directory_tree"
  | .localGroupsHost => "local_groups_host"

inductive LocalScoping where
  | any
  | domainOnly
  | hostOnly
  deriving DecidableEq, Repr

inductive Selector where
  | columnEquals (column : String) (scoping : LocalScoping)
  | directorySubtree (treeKey shareKey : String) (isShareRoot : Bool)
  | subtreeOfScopeKey
  | runDomains (column : String) (scoping : LocalScoping)
  | viaParent (column : String) (parent : ObservationKind) (scoping : LocalScoping)
  deriving DecidableEq, Repr

structure ClosureRule where
  kind : ObservationKind
  selector : Selector
  deriving DecidableEq, Repr

def adDomain : List ClosureRule :=
  [⟨.principal,.runDomains "domain_sid" .domainOnly⟩,
    ⟨.membershipEdge,.viaParent "group_key" .principal .domainOnly⟩]

def localGroupsOfHost : List ClosureRule :=
  [⟨.principal,.columnEquals "host_key" .hostOnly⟩,
    ⟨.membershipEdge,.columnEquals "host_key" .hostOnly⟩]

def smbServer : List ClosureRule :=
  [⟨.server,.columnEquals "server_key" .any⟩, ⟨.smbShare,.columnEquals "server_key" .any⟩,
    ⟨.smbAce,.viaParent "share_key" .smbShare .any⟩]

def smbShareScope : List ClosureRule :=
  [⟨.smbShare,.columnEquals "share_key" .any⟩, ⟨.smbAce,.viaParent "share_key" .smbShare .any⟩]

def ntfsAcesOfSelected : ClosureRule :=
  ⟨.ntfsAce,.viaParent "resource_key" .ntfsResource .any⟩

/-- `CLOSURE_RULES`. A pair that is absent closes nothing. -/
def closureRulesFor : CollectorKind → ScopeKind → List ClosureRule
  | .activeDirectory, .domain => adDomain
  | .localGroups, .localGroupsHost => localGroupsOfHost
  | .smb, .server => smbServer
  | .smb, .share => smbShareScope
  | .ntfs, .server => [⟨.ntfsResource,.columnEquals "server_key" .any⟩, ntfsAcesOfSelected]
  | .ntfs, .share => [⟨.ntfsResource,.columnEquals "share_key" .any⟩, ntfsAcesOfSelected]
  | .ntfs, .directoryTree => [⟨.ntfsResource,.subtreeOfScopeKey⟩, ntfsAcesOfSelected]
  | _, _ => []

/-- Every kind has one rule in a scope, and a parent that is selected through
is selected itself, before what hangs under it. -/
theorem closureRules_kinds (c : CollectorKind) (s : ScopeKind) :
    ((closureRulesFor c s).map (·.kind)).Nodup := by
  cases c <;> cases s <;> decide

/-- `directory_subtree_of`. -/
def directorySubtreeOf (casefold : String → String) (treeKey : String) :
    Except DomainError Selector := do
  let path ← parseUncPath treeKey
  return .directorySubtree (path.comparisonKey casefold) (path.shareKey casefold) path.isShareRoot

/-- `_resolved`. -/
def resolved (selector : Selector) (subtree : Option Selector) : Selector :=
  match selector, subtree with
  | .subtreeOfScopeKey, some s => s
  | _, _ => selector

def scopingOf : Selector → LocalScoping
  | .columnEquals _ scoping | .runDomains _ scoping | .viaParent _ _ scoping => scoping
  | .directorySubtree .. | .subtreeOfScopeKey => .any

section Candidates
variable (db : Database) (runId : RunId) (scopeKey : String)

/-- `_domains_observed_by`: the domains of the principals the run reported. -/
def domainsObservedBy : List String :=
  (((db.current .principal).entries.filter fun e => db.observed runId .principal e.1).filterMap
    fun e => textColumn e.2.columns "domain_sid").dedup

/-- `starts_with(key, tree || '\')`. -/
def beneath (treeKey key : String) : Bool := (treeKey.toList ++ [separator]).isPrefixOf key.toList

def inLocalScope (kind : ObservationKind) (entry : String × StoredRow) : LocalScoping → Bool
  | .any => true
  | .domainOnly => (Database.column kind entry "host_key").isNone
  | .hostOnly => (Database.column kind entry "host_key").isSome

/-- The conditions of one selector on a current-state row. The keys its parent
selected are given. -/
def selects (kind : ObservationKind) (selector : Selector) (parents : List String)
    (entry : String × StoredRow) : Bool :=
  let chosen := match selector with
    | .columnEquals column _ => Database.column kind entry column = some scopeKey
    | .directorySubtree treeKey shareKey isShareRoot =>
      decide (Database.column kind entry "share_key" = some shareKey) &&
        (isShareRoot || entry.1 = treeKey || beneath treeKey entry.1)
    | .runDomains column _ =>
      (Database.column kind entry column).any fun d => d ∈ domainsObservedBy db runId
    | .viaParent column _ _ => (Database.column kind entry column).any fun k => k ∈ parents
    | .subtreeOfScopeKey => false
  chosen && inLocalScope kind entry (scopingOf selector)

/-- `_scope_candidates`. A parent's own rule is looked up among the same rules,
so the recursion is no deeper than they are many. -/
def scopeCandidates (rules : List ClosureRule) (subtree : Option Selector) :
    ℕ → ObservationKind → List String
  | 0, _ => []
  | n+1, kind =>
    match rules.find? (·.kind = kind) with
    | none => []
    | some rule =>
      let selector := resolved rule.selector subtree
      let parents := match selector with
        | .viaParent _ parent _ => scopeCandidates rules subtree n parent
        | _ => []
      ((db.current kind).entries.filter (selects db runId scopeKey kind selector parents)).map (·.1)

end Candidates

end Adg.ScopeClosure
