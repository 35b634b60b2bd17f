import Adg.FindingModel
import Adg.Evaluation

/-!
# The records a rule reads

A rule sees records of entries, resources, shares, principals and memberships
and nothing else. Each record is written into a finding's evidence whole and
is read back from there, so that the evidence alone is enough to evaluate the
rule again.
-/

set_option autoImplicit false

namespace Adg.RiskRecords
open Adg.Observation Adg.AccessSubjects Adg.RightsAlgebra Adg.Evaluation Adg.CanonicalJson
open Adg.SecurityIdentifier Adg.AlertModel Adg.FindingModel

/-! ### Vocabularies -/

inductive AclLayer where
  | smbShare
  | ntfs
  deriving DecidableEq, Repr

namespace AclLayer

def value : AclLayer → String
  | smbShare => "smb_share"
  | ntfs => "ntfs"

def ofValue (text : String) : Option AclLayer := [smbShare, ntfs].find? (·.value = text)

@[simp] theorem ofValue_value (l : AclLayer) : ofValue l.value = some l := by
  cases l <;> rfl

end AclLayer

/-- `AceType(text)`. -/
def aceTypeOf (text : String) : Option AceType :=
  [AceType.allow, .deny].find? (·.value = text)

@[simp] theorem aceTypeOf_value (t : AceType) : aceTypeOf t.value = some t := by
  cases t <;> rfl

def sourceValue : AceSource → String
  | .explicit => "explicit"
  | .inherited => "inherited"

/-- `AceSource(text)`. -/
def sourceOf (text : String) : Option AceSource :=
  [AceSource.explicit, .inherited].find? (sourceValue · = text)

@[simp] theorem sourceOf_value (s : AceSource) : sourceOf (sourceValue s) = some s := by
  cases s <;> rfl

/-- `SharePermission(text)`. -/
def permissionOf (text : String) : Option SharePermission :=
  [SharePermission.read, .change, .full].find? (·.value = text)

@[simp] theorem permissionOf_value (p : SharePermission) : permissionOf p.value = some p := by
  cases p <;> rfl

/-- `PrincipalKind(text)`. -/
def kindOf (text : String) : Option PrincipalKind :=
  [PrincipalKind.user, .domainGroup, .localGroup, .computer, .managedServiceAccount, .wellKnown,
    .foreignSecurityPrincipal, .unresolved].find? (·.value = text)

@[simp] theorem kindOf_value (k : PrincipalKind) : kindOf k.value = some k := by
  cases k <;> rfl

inductive AclBoundaryReason where
  | shareRoot
  | scanRoot
  | protectedDacl
  | nullDacl
  | parentUnreadable
  | parentNullDacl
  | aclDiffersFromParent
  deriving DecidableEq, Repr

namespace AclBoundaryReason

def value : AclBoundaryReason → String
  | shareRoot => "share_root"
  | scanRoot => "scan_root"
  | protectedDacl => "protected_dacl"
  | nullDacl => "null_dacl"
  | parentUnreadable => "parent_unreadable"
  | parentNullDacl => "parent_null_dacl"
  | aclDiffersFromParent => "acl_differs_from_parent"

def ofValue (text : String) : Option AclBoundaryReason :=
  [shareRoot, scanRoot, protectedDacl, nullDacl, parentUnreadable, parentNullDacl,
    aclDiffersFromParent].find? (·.value = text)

@[simp] theorem ofValue_value (r : AclBoundaryReason) : ofValue r.value = some r := by
  cases r <;> rfl

end AclBoundaryReason

inductive ShareType where
  | disk
  | print
  | ipc
  | device
  | unknown
  deriving DecidableEq, Repr

namespace ShareType

def value : ShareType → String
  | disk => "disk"
  | print => "print"
  | ipc => "ipc"
  | device => "device"
  | unknown => "unknown"

def ofValue (text : String) : Option ShareType :=
  [disk, print, ipc, device, unknown].find? (·.value = text)

@[simp] theorem ofValue_value (t : ShareType) : ofValue t.value = some t := by
  cases t <;> rfl

end ShareType

inductive GroupScope where
  | domainLocal
  | global
  | universal
  | builtinLocal
  | unknown
  deriving DecidableEq, Repr

namespace GroupScope

def value : GroupScope → String
  | domainLocal => "domain_local"
  | global => "global"
  | universal => "universal"
  | builtinLocal => "builtin_local"
  | unknown => "unknown"

def ofValue (text : String) : Option GroupScope :=
  [domainLocal, global, universal, builtinLocal, unknown].find? (·.value = text)

@[simp] theorem ofValue_value (s : GroupScope) : ofValue s.value = some s := by
  cases s <;> rfl

end GroupScope

inductive GroupType where
  | security
  | distribution
  | unknown
  deriving DecidableEq, Repr

namespace GroupType

def value : GroupType → String
  | security => "security"
  | distribution => "distribution"
  | unknown => "unknown"

def ofValue (text : String) : Option GroupType :=
  [security, distribution, unknown].find? (·.value = text)

@[simp] theorem ofValue_value (t : GroupType) : ofValue t.value = some t := by
  cases t <;> rfl

end GroupType

inductive UnresolvedReason where
  | deleted
  | untrustedDomain
  | lookupFailed
  | unknown
  deriving DecidableEq, Repr

namespace UnresolvedReason

def value : UnresolvedReason → String
  | deleted => "deleted"
  | untrustedDomain => "untrusted_domain"
  | lookupFailed => "lookup_failed"
  | unknown => "unknown"

def ofValue (text : String) : Option UnresolvedReason :=
  [deleted, untrustedDomain, lookupFailed, unknown].find? (·.value = text)

@[simp] theorem ofValue_value (r : UnresolvedReason) : ofValue r.value = some r := by
  cases r <;> rfl

end UnresolvedReason

/-- Where a resource's DACL came from. -/
inductive AclProvenanceFacts where
  | observed
  | derived
  | unobserved
  deriving DecidableEq, Repr

namespace AclProvenanceFacts

def value : AclProvenanceFacts → String
  | observed => "observed"
  | derived => "derived"
  | unobserved => "unobserved"

def ofValue (text : String) : Option AclProvenanceFacts :=
  [observed, derived, unobserved].find? (·.value = text)

@[simp] theorem ofValue_value (p : AclProvenanceFacts) : ofValue p.value = some p := by
  cases p <;> rfl

end AclProvenanceFacts

/-! ### Reading attributes -/

section Attributes
variable (fields : List (String × Json)) (name : String)

/-- `str(attributes[name])`, of a text. -/
def textIn : Option String := text? (field? fields name)

/-- `_text(attributes.get(name))`. -/
def optionalTextIn : Option (Option String) :=
  match field? fields name with
  | none => some none
  | some .null => some none
  | some (.text s) => some (some s)
  | some _ => none

/-- `_enum(kind, attributes.get(name))`. -/
def optionalMemberIn {κ : Type} (ofValue : String → Option κ) : Option (Option κ) :=
  (optionalTextIn fields name).bind fun text =>
    match text with
    | none => some none
    | some s => (ofValue s).map some

def memberIn {κ : Type} (ofValue : String → Option κ) : Option κ :=
  (textIn fields name).bind ofValue

def truthIn : Option Bool :=
  match field? fields name with
  | some (.bool b) => some b
  | _ => none

def optionalTruthIn : Option (Option Bool) :=
  match field? fields name with
  | none => some none
  | some .null => some none
  | some (.bool b) => some (some b)
  | some _ => none

def wholeIn : Option ℤ :=
  match field? fields name with
  | some (.whole n) => some n
  | _ => none

def optionalWholeIn : Option (Option ℤ) :=
  match field? fields name with
  | none => some none
  | some .null => some none
  | some (.whole n) => some (some n)
  | some _ => none

/-- A list of texts. -/
def textsIn : Option (List String) :=
  match field? fields name with
  | none => some []
  | some .null => some []
  | some (.array items) => items.mapM fun item => text? (some item)
  | some _ => none

end Attributes

def wholeOrNull (n : Option ℤ) : Json := n.elim .null .whole

def truthOrNull (b : Option Bool) : Json := b.elim .null .bool

/-- An access mask as a number. -/
def maskOrNull (m : Option AccessMask) : Json := wholeOrNull (m.map fun v => (v.toNat : ℤ))

/-- An unsigned number of some width, where it is one. -/
def unsignedOf (width : ℕ) (n : ℤ) : Option (BitVec width) :=
  if 0 ≤ n ∧ n < 2^width then some (BitVec.ofInt width n) else none

theorem unsignedOf_toNat {width : ℕ} (v : BitVec width) : unsignedOf width v.toNat = some v := by
  have hbound : (v.toNat : ℤ) < 2^width := by exact_mod_cast v.isLt
  unfold unsignedOf
  rw [if_pos ⟨Int.natCast_nonneg _,hbound⟩, BitVec.ofInt_natCast, BitVec.ofNat_toNat,
    BitVec.setWidth_eq]

/-- `None` or an access mask. -/
def maskIn (fields : List (String × Json)) (name : String) : Option (Option AccessMask) :=
  (optionalWholeIn fields name).bind fun n => n.elim (some none) fun v => (unsignedOf 32 v).map some

/-- The byte of the inheritance flags. -/
def flagsIn (fields : List (String × Json)) (name : String) : Option AceFlags :=
  (wholeIn fields name).bind (unsignedOf 8)

/-! ### Entries -/

/-- One access control entry, on either layer, as a collector read it. The last three fields
are what the constructors it is handed to refuse. -/
structure AceFacts where
  aceKey : String
  containerKey : String
  layer : AclLayer
  trusteeKey : String
  trusteeSid : String
  aceType : AceType
  accessMask : Option AccessMask
  aceFlags : AceFlags := 0
  source : AceSource := .explicit
  permission : Option SharePermission := none
  orderIndex : Option ℤ := none
  ntfs_masked : layer = .ntfs → accessMask ≠ none
  granting : accessMask ≠ none ∨ permission ≠ none
  key_ne : aceKey ≠ ""
  trustee_ne : trusteeKey ≠ ""
  sid_valid : (canonicalizeSid trusteeSid).isOk = true

namespace AceFacts

def isAllow (a : AceFacts) : Bool := a.aceType = .allow

def appliesToThisObject (a : AceFacts) : Bool := a.aceFlags &&& AceFlag.inheritOnly = 0

/-- What the rules look for first: an entry that grants something where it is stored. -/
def grants (a : AceFacts) : Bool := a.isAllow && a.appliesToThisObject

/-- The order the store keeps a list in: unordered entries last, then by key. -/
def storedAt (a : AceFacts) : Bool ×ₗ (ℤ ×ₗ String) :=
  toLex (a.orderIndex.isNone,toLex (a.orderIndex.getD 0,a.aceKey))

def toEvidence (a : AceFacts) : List (String × Json) :=
  [("ace_key",.text a.aceKey), ("container_key",.text a.containerKey),
    ("layer",.text a.layer.value), ("trustee_key",.text a.trusteeKey),
    ("trustee_sid",.text a.trusteeSid), ("ace_type",.text a.aceType.value),
    ("access_mask",maskOrNull a.accessMask), ("ace_flags",.whole a.aceFlags.toNat),
    ("source",.text (sourceValue a.source)),
    ("permission",textOrNull (a.permission.map SharePermission.value)),
    ("order_index",wholeOrNull a.orderIndex)]

/-- The constructor and what is later asked of its result. -/
def build (aceKey containerKey : String) (layer : AclLayer) (trusteeKey trusteeSid : String)
    (aceType : AceType) (accessMask : Option AccessMask) (aceFlags : AceFlags)
    (source : AceSource) (permission : Option SharePermission) (orderIndex : Option ℤ) :
    Option AceFacts :=
  if h : ((layer = .ntfs → accessMask ≠ none) ∧ (accessMask ≠ none ∨ permission ≠ none)) ∧
      aceKey ≠ "" ∧ trusteeKey ≠ "" ∧ (canonicalizeSid trusteeSid).isOk = true then
    some ⟨aceKey,containerKey,layer,trusteeKey,trusteeSid,aceType,accessMask,aceFlags,source,
      permission,orderIndex,h.1.1,h.1.2,h.2.1,h.2.2.1,h.2.2.2⟩
  else none

def fromEvidence (attributes : List (String × Json)) : Option AceFacts := do
  let aceKey ← textIn attributes "ace_key"
  let containerKey ← textIn attributes "container_key"
  let layer ← memberIn attributes "layer" AclLayer.ofValue
  let trusteeKey ← textIn attributes "trustee_key"
  let trusteeSid ← textIn attributes "trustee_sid"
  let aceType ← memberIn attributes "ace_type" aceTypeOf
  let accessMask ← maskIn attributes "access_mask"
  let aceFlags ← flagsIn attributes "ace_flags"
  let source ← memberIn attributes "source" sourceOf
  let permission ← optionalMemberIn attributes "permission" permissionOf
  let orderIndex ← optionalWholeIn attributes "order_index"
  build aceKey containerKey layer trusteeKey trusteeSid aceType accessMask aceFlags source
    permission orderIndex

end AceFacts

section Records
variable {κ : Type} {fields : List (String × Json)} {name : String}

theorem textIn_of {s : String} (h : field? fields name = some (.text s)) :
    textIn fields name = some s := by
  unfold textIn
  rw [h]
  rfl

theorem memberIn_of {ofValue : String → Option κ} {s : String} {k : κ}
    (h : field? fields name = some (.text s)) (hk : ofValue s = some k) :
    memberIn fields name ofValue = some k := by
  unfold memberIn
  rw [textIn_of h]
  exact hk

theorem optionalTextIn_of {s : Option String} (h : field? fields name = some (textOrNull s)) :
    optionalTextIn fields name = some s := by
  unfold optionalTextIn
  rw [h]
  cases s <;> rfl

theorem optionalMemberIn_of {ofValue : String → Option κ} {value : κ → String}
    (hvalue : ∀ k, ofValue (value k) = some k) {k : Option κ}
    (h : field? fields name = some (textOrNull (k.map value))) :
    optionalMemberIn fields name ofValue = some k := by
  unfold optionalMemberIn
  rw [optionalTextIn_of h]
  cases k with
  | none => rfl
  | some k => simp [hvalue]

theorem truthIn_of {b : Bool} (h : field? fields name = some (.bool b)) :
    truthIn fields name = some b := by
  unfold truthIn
  rw [h]

theorem optionalTruthIn_of {b : Option Bool} (h : field? fields name = some (truthOrNull b)) :
    optionalTruthIn fields name = some b := by
  unfold optionalTruthIn
  rw [h]
  cases b <;> rfl

theorem wholeIn_of {n : ℤ} (h : field? fields name = some (.whole n)) :
    wholeIn fields name = some n := by
  unfold wholeIn
  rw [h]

theorem optionalWholeIn_of {n : Option ℤ} (h : field? fields name = some (wholeOrNull n)) :
    optionalWholeIn fields name = some n := by
  unfold optionalWholeIn
  rw [h]
  cases n <;> rfl

theorem maskIn_of {m : Option AccessMask} (h : field? fields name = some (maskOrNull m)) :
    maskIn fields name = some m := by
  unfold maskIn
  rw [optionalWholeIn_of (n := m.map fun v => (v.toNat : ℤ)) h, Option.bind_some]
  cases m with
  | none => rfl
  | some v => rw [Option.map_some, Option.elim_some, unsignedOf_toNat, Option.map_some]

theorem flagsIn_of {v : AceFlags} (h : field? fields name = some (.whole v.toNat)) :
    flagsIn fields name = some v := by
  unfold flagsIn
  rw [wholeIn_of h, Option.bind_some, unsignedOf_toNat]

theorem textsIn_of {l : List String}
    (h : field? fields name = some (.array (l.map Json.text))) :
    textsIn fields name = some l := by
  have hread : ∀ l : List String,
      (l.map Json.text).mapM (fun item => text? (some item)) = some l := by
    intro l
    induction l with
    | nil => rfl
    | cons s rest ih =>
      rw [List.map_cons, List.mapM_cons, ih]
      rfl
  unfold textsIn
  rw [h]
  exact hread l

end Records

theorem AceFacts.build_eq (a : AceFacts) : AceFacts.build a.aceKey a.containerKey a.layer
    a.trusteeKey a.trusteeSid a.aceType a.accessMask a.aceFlags a.source a.permission
    a.orderIndex = some a :=
  dif_pos ⟨⟨a.ntfs_masked,a.granting⟩,a.key_ne,a.trustee_ne,a.sid_valid⟩

/-- An entry is read back from its evidence. -/
theorem AceFacts.fromEvidence_toEvidence (a : AceFacts) : fromEvidence a.toEvidence = some a := by
  unfold fromEvidence
  rw [textIn_of (s := a.aceKey) rfl, textIn_of (s := a.containerKey) rfl,
    memberIn_of (s := a.layer.value) rfl (AclLayer.ofValue_value _),
    textIn_of (s := a.trusteeKey) rfl, textIn_of (s := a.trusteeSid) rfl,
    memberIn_of (s := a.aceType.value) rfl (aceTypeOf_value _),
    maskIn_of (m := a.accessMask) rfl, flagsIn_of (v := a.aceFlags) rfl,
    memberIn_of (s := sourceValue a.source) rfl (sourceOf_value _),
    optionalMemberIn_of permissionOf_value (k := a.permission) rfl,
    optionalWholeIn_of (n := a.orderIndex) rfl]
  simp only [Option.bind_eq_bind, Option.bind_some]
  exact a.build_eq

/-! ### Resources and shares -/

/-- One directory, its descriptor-level facts and the entries on its DACL. -/
structure ResourceFacts where
  resourceKey : String
  path : String
  shareKey : String
  serverKey : String
  ownerSid : Option String := none
  daclPresent : Bool := true
  daclProtected : Bool := false
  inheritanceEnabled : Bool := true
  isAclBoundary : Bool := false
  boundaryReason : Option AclBoundaryReason := none
  undeliveredAceCount : ℤ := 0
  depthFromShareRoot : Option ℤ := none
  provenance : AclProvenanceFacts := .observed
  derivedDistance : Option ℤ := none
  aces : List AceFacts := []
  key_ne : resourceKey ≠ ""

namespace ResourceFacts

/-- `path.rstrip("\\")`. -/
def withoutTrailing (path : String) : List Char :=
  (path.toList.reverse.dropWhile (· = '\\')).reverse

def isShareRoot (r : ResourceFacts) : Bool :=
  match r.depthFromShareRoot with
  | some depth => depth = 0
  | none => (withoutTrailing r.path).count '\\' ≤ 3

def aceCountShort (r : ResourceFacts) : Bool := 0 < r.undeliveredAceCount

/-- What keeps a finding over this resource short of directly observed. -/
def qualifiers (r : ResourceFacts) : Finset FactQualifier :=
  (if r.provenance = .derived then
    insert .aclDerived (if r.derivedDistance.any (1 < ·) then {.aclDerivedDistant} else ∅)
    else ∅) ∪
  if r.aceCountShort then {.aceCountShort} else ∅

def toEvidence (r : ResourceFacts) : List (String × Json) :=
  [("resource_key",.text r.resourceKey), ("path",.text r.path), ("share_key",.text r.shareKey),
    ("server_key",.text r.serverKey), ("owner_sid",textOrNull r.ownerSid),
    ("dacl_present",.bool r.daclPresent), ("dacl_protected",.bool r.daclProtected),
    ("inheritance_enabled",.bool r.inheritanceEnabled), ("is_acl_boundary",.bool r.isAclBoundary),
    ("boundary_reason",textOrNull (r.boundaryReason.map AclBoundaryReason.value)),
    ("undelivered_ace_count",.whole r.undeliveredAceCount),
    ("depth_from_share_root",wholeOrNull r.depthFromShareRoot),
    ("provenance",.text r.provenance.value), ("derived_distance",wholeOrNull r.derivedDistance)]

def fromEvidence (attributes : List (String × Json)) (aces : List AceFacts) :
    Option ResourceFacts := do
  let resourceKey ← textIn attributes "resource_key"
  let path ← textIn attributes "path"
  let shareKey ← textIn attributes "share_key"
  let serverKey ← textIn attributes "server_key"
  let ownerSid ← optionalTextIn attributes "owner_sid"
  let daclPresent ← truthIn attributes "dacl_present"
  let daclProtected ← truthIn attributes "dacl_protected"
  let inheritanceEnabled ← truthIn attributes "inheritance_enabled"
  let isAclBoundary ← truthIn attributes "is_acl_boundary"
  let boundaryReason ← optionalMemberIn attributes "boundary_reason" AclBoundaryReason.ofValue
  let undeliveredAceCount ← wholeIn attributes "undelivered_ace_count"
  let depthFromShareRoot ← optionalWholeIn attributes "depth_from_share_root"
  let provenance ← memberIn attributes "provenance" AclProvenanceFacts.ofValue
  let derivedDistance ← optionalWholeIn attributes "derived_distance"
  if h : resourceKey ≠ "" then
    return ⟨resourceKey,path,shareKey,serverKey,ownerSid,daclPresent,daclProtected,
      inheritanceEnabled,isAclBoundary,boundaryReason,undeliveredAceCount,depthFromShareRoot,
      provenance,derivedDistance,aces,h⟩
  else none

/-- A directory is read back from its evidence, with the entries that are handed over. -/
theorem fromEvidence_toEvidence (r : ResourceFacts) (aces : List AceFacts) :
    fromEvidence r.toEvidence aces = some { r with aces := aces } := by
  unfold fromEvidence
  rw [textIn_of (s := r.resourceKey) rfl, textIn_of (s := r.path) rfl,
    textIn_of (s := r.shareKey) rfl, textIn_of (s := r.serverKey) rfl,
    optionalTextIn_of (s := r.ownerSid) rfl, truthIn_of (b := r.daclPresent) rfl,
    truthIn_of (b := r.daclProtected) rfl, truthIn_of (b := r.inheritanceEnabled) rfl,
    truthIn_of (b := r.isAclBoundary) rfl,
    optionalMemberIn_of AclBoundaryReason.ofValue_value (k := r.boundaryReason) rfl,
    wholeIn_of (n := r.undeliveredAceCount) rfl, optionalWholeIn_of (n := r.depthFromShareRoot) rfl,
    memberIn_of (s := r.provenance.value) rfl (AclProvenanceFacts.ofValue_value _),
    optionalWholeIn_of (n := r.derivedDistance) rfl]
  simp only [Option.bind_eq_bind, Option.bind_some]
  exact dif_pos r.key_ne

end ResourceFacts

/-- One SMB share and the entries on its share-level ACL. -/
structure ShareFacts where
  shareKey : String
  serverKey : String
  name : String
  shareType : ShareType := .disk
  isSpecial : Option Bool := none
  aclObserved : Bool := true
  aces : List AceFacts := []
  key_ne : shareKey ≠ ""

namespace ShareFacts

def toEvidence (s : ShareFacts) : List (String × Json) :=
  [("share_key",.text s.shareKey), ("server_key",.text s.serverKey), ("name",.text s.name),
    ("share_type",.text s.shareType.value), ("is_special",truthOrNull s.isSpecial),
    ("acl_observed",.bool s.aclObserved)]

def fromEvidence (attributes : List (String × Json)) (aces : List AceFacts) :
    Option ShareFacts := do
  let shareKey ← textIn attributes "share_key"
  let serverKey ← textIn attributes "server_key"
  let name ← textIn attributes "name"
  let shareType ← memberIn attributes "share_type" ShareType.ofValue
  let isSpecial ← optionalTruthIn attributes "is_special"
  let aclObserved ← truthIn attributes "acl_observed"
  if h : shareKey ≠ "" then
    return ⟨shareKey,serverKey,name,shareType,isSpecial,aclObserved,aces,h⟩
  else none

/-- A share is read back from its evidence, with the entries that are handed over. -/
theorem fromEvidence_toEvidence (s : ShareFacts) (aces : List AceFacts) :
    fromEvidence s.toEvidence aces = some { s with aces := aces } := by
  unfold fromEvidence
  rw [textIn_of (s := s.shareKey) rfl, textIn_of (s := s.serverKey) rfl,
    textIn_of (s := s.name) rfl,
    memberIn_of (s := s.shareType.value) rfl (ShareType.ofValue_value _),
    optionalTruthIn_of (b := s.isSpecial) rfl, truthIn_of (b := s.aclObserved) rfl]
  simp only [Option.bind_eq_bind, Option.bind_some]
  exact dif_pos s.key_ne

end ShareFacts

/-! ### Principals and memberships -/

/-- What is known about one principal. -/
structure PrincipalFacts where
  key : String
  sid : String
  kind : PrincipalKind
  displayName : Option String := none
  samAccountName : Option String := none
  enabled : Option Bool := none
  isDeleted : Bool := false
  groupScope : Option GroupScope := none
  groupType : Option GroupType := none
  hostKey : Option String := none
  domainSid : Option String := none
  unresolvedReason : Option UnresolvedReason := none
  key_ne : key ≠ ""

namespace PrincipalFacts

def isGroup (p : PrincipalFacts) : Bool := p.kind = .domainGroup || p.kind = .localGroup

def isUser (p : PrincipalFacts) : Bool := p.kind = .user || p.kind = .managedServiceAccount

def isUnresolved (p : PrincipalFacts) : Bool := p.kind = .unresolved

/-- `display_name or sam_account_name or sid`. -/
def label (p : PrincipalFacts) : String :=
  if given p.displayName then orBlank p.displayName
  else if given p.samAccountName then orBlank p.samAccountName else p.sid

def toEvidence (p : PrincipalFacts) : List (String × Json) :=
  [("key",.text p.key), ("sid",.text p.sid), ("kind",.text p.kind.value),
    ("display_name",textOrNull p.displayName), ("sam_account_name",textOrNull p.samAccountName),
    ("enabled",truthOrNull p.enabled), ("is_deleted",.bool p.isDeleted),
    ("group_scope",textOrNull (p.groupScope.map GroupScope.value)),
    ("group_type",textOrNull (p.groupType.map GroupType.value)),
    ("host_key",textOrNull p.hostKey), ("domain_sid",textOrNull p.domainSid),
    ("unresolved_reason",textOrNull (p.unresolvedReason.map UnresolvedReason.value))]

def fromEvidence (attributes : List (String × Json)) : Option PrincipalFacts := do
  let key ← textIn attributes "key"
  let sid ← textIn attributes "sid"
  let kind ← memberIn attributes "kind" kindOf
  let displayName ← optionalTextIn attributes "display_name"
  let samAccountName ← optionalTextIn attributes "sam_account_name"
  let enabled ← optionalTruthIn attributes "enabled"
  let isDeleted ← truthIn attributes "is_deleted"
  let groupScope ← optionalMemberIn attributes "group_scope" GroupScope.ofValue
  let groupType ← optionalMemberIn attributes "group_type" GroupType.ofValue
  let hostKey ← optionalTextIn attributes "host_key"
  let domainSid ← optionalTextIn attributes "domain_sid"
  let unresolvedReason ← optionalMemberIn attributes "unresolved_reason" UnresolvedReason.ofValue
  if h : key ≠ "" then
    return ⟨key,sid,kind,displayName,samAccountName,enabled,isDeleted,groupScope,groupType,
      hostKey,domainSid,unresolvedReason,h⟩
  else none

/-- A principal is read back from its evidence. -/
theorem fromEvidence_toEvidence (p : PrincipalFacts) : fromEvidence p.toEvidence = some p := by
  unfold fromEvidence
  rw [textIn_of (s := p.key) rfl, textIn_of (s := p.sid) rfl,
    memberIn_of (s := p.kind.value) rfl (kindOf_value _),
    optionalTextIn_of (s := p.displayName) rfl, optionalTextIn_of (s := p.samAccountName) rfl,
    optionalTruthIn_of (b := p.enabled) rfl, truthIn_of (b := p.isDeleted) rfl,
    optionalMemberIn_of GroupScope.ofValue_value (k := p.groupScope) rfl,
    optionalMemberIn_of GroupType.ofValue_value (k := p.groupType) rfl,
    optionalTextIn_of (s := p.hostKey) rfl, optionalTextIn_of (s := p.domainSid) rfl,
    optionalMemberIn_of UnresolvedReason.ofValue_value (k := p.unresolvedReason) rfl]
  simp only [Option.bind_eq_bind, Option.bind_some]
  exact dif_pos p.key_ne

end PrincipalFacts

/-- The direct members of one group, and whether anybody enumerated it. -/
structure MembershipFacts where
  groupKey : String
  memberKeys : List String := []
  enumerated : Option Bool := none
  truncated : Bool := false
  key_ne : groupKey ≠ ""

namespace MembershipFacts

def toEvidence (m : MembershipFacts) : List (String × Json) :=
  [("group_key",.text m.groupKey), ("member_keys",.array (m.memberKeys.map Json.text)),
    ("enumerated",truthOrNull m.enumerated), ("truncated",.bool m.truncated)]

def fromEvidence (attributes : List (String × Json)) : Option MembershipFacts := do
  let groupKey ← textIn attributes "group_key"
  let memberKeys ← textsIn attributes "member_keys"
  let enumerated ← optionalTruthIn attributes "enumerated"
  let truncated ← truthIn attributes "truncated"
  if h : groupKey ≠ "" then return ⟨groupKey,memberKeys,enumerated,truncated,h⟩ else none

/-- A membership record is read back from its evidence. -/
theorem fromEvidence_toEvidence (m : MembershipFacts) : fromEvidence m.toEvidence = some m := by
  unfold fromEvidence
  rw [textIn_of (s := m.groupKey) rfl, textsIn_of (l := m.memberKeys) rfl,
    optionalTruthIn_of (b := m.enumerated) rfl, truthIn_of (b := m.truncated) rfl]
  simp only [Option.bind_eq_bind, Option.bind_some]
  exact dif_pos m.key_ne

/-- The record reduced to one member, for evidence that names a single chain. -/
def restrictedTo (m : MembershipFacts) (memberKey : String) : MembershipFacts :=
  { m with memberKeys := [memberKey] }

end MembershipFacts

end Adg.RiskRecords
