import Adg.ObjectVersions
import Adg.ResourcePath

/-!
# Change scopes

A scope names a thing and selects, kind by kind, the versions that belong to
it. A kind without a rule is left out, and a key that names nothing is refused.
-/

set_option autoImplicit false

namespace Adg.ChangeScopes
open Adg.Observation Adg.ObjectVersions Adg.SecurityIdentifier Adg.ResourcePath

inductive ScopeTarget where
  | server
  | share
  | directoryTree
  | principal
  | group
  deriving DecidableEq, Repr

def ScopeTarget.value : ScopeTarget → String
  | .server => "server"
  | .share => "share"
  | .directoryTree => "directory_tree"
  | .principal => "principal"
  | .group => "group"

/-- A target and a key that is not blank. -/
structure ChangeScope where
  target : ScopeTarget
  key : String
  keyed : strip key.toList ≠ []

def ChangeScope.build (target : ScopeTarget) (key : String) : Except DomainError ChangeScope :=
  if h : strip key.toList ≠ [] then .ok ⟨target,key,h⟩
  else
    let name := target.value
    .error { message := s!"A {name} scope needs a key. An empty one would select the whole estate while looking like a filter.", field := "key" }

abbrev Predicate := ObjectVersion → Bool

def keyIs (value : String) : Predicate := fun v => v.key = value

/-- `starts_with` on a column that may be null. -/
def columnStarts (column : ObjectVersion → Option String) (head : String) : Predicate :=
  fun v => (column v).any fun c => head.toList.isPrefixOf c.toList

def containerIs (value : String) : Predicate := fun v => v.containerKey = some value

def relatedIs (value : String) : Predicate := fun v => v.relatedKey = some value

def memberOrGroupIs (value : String) : Predicate := fun v =>
  containerIs value v || relatedIs value v

/-- `_beneath`. -/
def beneath (column : ObjectVersion → Option String) (root mark : String) : Predicate :=
  columnStarts column (root ++ mark)

/-- `_under`. -/
def under (column : ObjectVersion → Option String) (root mark : String) : Predicate :=
  fun v => column v = some root || beneath column root mark v

def keyColumn (v : ObjectVersion) : Option String := some v.key

/-- `str.partition`, at the first bar. -/
def partitionBar (text : String) : String × String :=
  (String.ofList (text.toList.takeWhile (· ≠ '|')),
    String.ofList ((text.toList.dropWhile (· ≠ '|')).drop 1))

/-- `str.rpartition`, at the last bar: what stands before it, when there is one. -/
def rpartitionBar (text : String) : Option String × String :=
  let last := text.toList.reverse.takeWhile (· ≠ '|')
  let before := (text.toList.reverse.dropWhile (· ≠ '|')).drop 1
  (if '|' ∈ text.toList then some (String.ofList before.reverse) else none,
    String.ofList last.reverse)

section Folding
variable (casefold : String → String)

/-- `_unc_of_share`. -/
def uncOfShare (shareKey : String) : Except DomainError String := do
  let (server,share) := partitionBar shareKey
  if server = "" ∨ share = "" then
    throw { message := s!"'{shareKey}' is not a share key. A share key is <server>|<share>, which is how every share row in the database is spelled; anything else would select nothing and look like a share with no changes.", field := "key" }
  let path ← parseUncPath ("\\\\" ++ server ++ "\\" ++ share)
  return path.comparisonKey casefold

/-- `_principal_key`. -/
def principalKey (raw : String) : Except DomainError String :=
  let (host,candidate) := rpartitionBar raw
  match Sid.parse candidate with
  | .error _ => .error { message := s!"'{raw}' does not name a principal. A principal scope key is a SID, optionally prefixed with the host that scopes a BUILTIN SID (fs01|S-1-5-32-544).", field := "key" }
  | .ok sid => .ok (match host with
    | some h => casefold h ++ "|" ++ sid.value
    | none => sid.value)

/-- `_normalize`. -/
def normalize (scope : ChangeScope) : Except DomainError String :=
  match scope.target with
  | .directoryTree => (parseUncPath scope.key).map (·.comparisonKey casefold)
  | .principal | .group => principalKey casefold scope.key
  | .server | .share => .ok (casefold scope.key)

/-- `_RULES`, for a key that is spelled as the stored columns are. -/
def ruleFor (target : ScopeTarget) (key : String) (kind : ObservationKind) :
    Except DomainError (Option Predicate) :=
  match target, kind with
  | .server, .server => .ok (keyIs key)
  | .server, .smbShare => .ok (containerIs key)
  | .server, .smbAce => .ok (beneath keyColumn key "|")
  | .server, .ntfsResource => .ok (relatedIs key)
  | .server, .ntfsAce => .ok (columnStarts (·.containerKey) ("\\\\" ++ key ++ "\\"))
  | .server, .principal => .ok (containerIs key)
  | .server, .membershipEdge => .ok (beneath (·.containerKey) key "|")
  | .share, .smbShare => .ok (keyIs key)
  | .share, .smbAce => .ok (containerIs key)
  | .share, .ntfsResource => .ok (containerIs key)
  | .share, .ntfsAce => (uncOfShare casefold key).map fun root => under (·.containerKey) root "\\"
  | .directoryTree, .ntfsResource => .ok (under keyColumn key "\\")
  | .directoryTree, .ntfsAce => .ok (under (·.containerKey) key "\\")
  | .principal, .principal => .ok (keyIs key)
  | .principal, .membershipEdge => .ok (memberOrGroupIs key)
  | .principal, .smbAce => .ok (relatedIs key)
  | .principal, .ntfsAce => .ok (relatedIs key)
  | .group, .principal => .ok (keyIs key)
  | .group, .membershipEdge => .ok (containerIs key)
  | _, _ => .ok none

/-- `predicates_for`: every rule of the target is built, asked for or not. -/
def predicatesFor (scope : ChangeScope) :
    Except DomainError (ObservationKind → Option Predicate) := do
  let key ← normalize casefold scope
  let ace ← ruleFor casefold scope.target key .ntfsAce
  return fun kind => if kind = .ntfsAce then ace
    else ((ruleFor casefold scope.target key kind).toOption).join

end Folding

/-- `_restrict`: the kinds that are asked for, inside the scope. -/
def restrict (kinds : Option (List ObservationKind))
    (scope : Option (ObservationKind → Option Predicate)) (v : ObjectVersion) : Bool :=
  kinds.all (v.kind ∈ ·) && scope.all fun predicates => (predicates v.kind).any (· v)

end Adg.ChangeScopes
