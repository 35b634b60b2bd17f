import Adg.AccessSubjects
import Adg.OrderedRules

/-!
# The access check over one DACL

`evaluateAcl` is the walk Windows performs when asked for the maximum allowed
rights: the owner's implicit rights first, then every entry in stored order.
The walk refines `OrderedRules.settleAll` over the entries that apply and
match, and that is the only fact later modules use about its accumulators.
-/

set_option autoImplicit false

namespace Adg.Evaluation
open Adg.Observation Adg.AccessConditions Adg.RightsAlgebra Adg.AccessSubjects

def maxAclEntries : ℕ := 4096

/-- `OWNER_IMPLICIT_RIGHTS`. -/
def ownerImplicitRights : RightsMask := ⟨NtfsRight.readControl ||| NtfsRight.writeDac,.ntfs⟩

@[ext]
structure AclEntry where
  trusteeKey : String
  trusteeSid : String
  aceType : AceType
  mask : RightsMask
  flags : AceFlags := 0
  source : AceSource := .explicit
  orderIndex : Option ℤ := none
  aceKey : Option String := none
  inheritedFrom : Option String := none
  trusteeName : Option String := none
  trustee_ne : trusteeKey ≠ "" := by decide
  mask_observed : mask.layer ≠ .effective := by decide

instance : DecidableEq AclEntry := fun _ _ => decidable_of_iff _ AclEntry.ext_iff.symm

namespace AclEntry

def layer (e : AclEntry) : RightsLayer := e.mask.layer

def isAllow (e : AclEntry) : Bool := e.aceType = .allow

def isInherited (e : AclEntry) : Bool := e.source = .inherited

def appliesToThisObject (e : AclEntry) : Bool := e.flags &&& AceFlag.inheritOnly = 0

def normalized (e : AclEntry) : NormalizedRights := normalizeMask e.mask

def namesSubstitutionPlaceholder (e : AclEntry) : Bool :=
  e.trusteeSid ∈ [creatorOwnerSid, creatorGroupSid]

def namesOwnerRights (e : AclEntry) : Bool := e.trusteeSid = ownerRightsSid

/-- What the entry names once its generic bits are expanded. -/
def expanded (e : AclEntry) : AccessMask := e.mask.expandGenerics.value

@[simp] theorem normalized_value (e : AclEntry) : e.normalized.normalized.value = e.expanded := rfl

theorem expanded_specific (e : AclEntry) : Specific e.expanded :=
  RightsMask.expanded_specific e.mask

end AclEntry

inductive OrderViolationKind where
  | inheritedBeforeExplicit
  | allowBeforeDeny
  deriving DecidableEq, Repr

def OrderViolationKind.value : OrderViolationKind → String
  | .inheritedBeforeExplicit => "inherited_before_explicit"
  | .allowBeforeDeny => "allow_before_deny"

structure OrderViolation where
  kind : OrderViolationKind
  position : ℕ
  entry : AclEntry
  earlierPosition : ℕ
  earlierEntry : AclEntry

def OrderViolation.record (v : OrderViolation) : ViolationRecord where
  kind := v.kind.value
  position := v.position
  trusteeSid := v.entry.trusteeSid
  earlierPosition := v.earlierPosition
  earlierTrusteeSid := v.earlierEntry.trusteeSid

/-- The loop state of `canonical_order_violations`. -/
structure OrderScan where
  violations : List OrderViolation := []
  firstInherited : Option (AclEntry × ℕ) := none
  firstExplicitAllow : Option (AclEntry × ℕ) := none

def violationAt (kind : OrderViolationKind) (entry : AclEntry × ℕ) :
    Option (AclEntry × ℕ) → List OrderViolation
  | none => []
  | some earlier => [⟨kind,entry.2,entry.1,earlier.2,earlier.1⟩]

def scanEntry (scan : OrderScan) (entry : AclEntry × ℕ) : OrderScan :=
  if entry.1.isInherited then
    { scan with firstInherited := scan.firstInherited <|> some entry }
  else
    let scan := { scan with
      violations := scan.violations ++
        violationAt .inheritedBeforeExplicit entry scan.firstInherited }
    if entry.1.isAllow then
      { scan with firstExplicitAllow := scan.firstExplicitAllow <|> some entry }
    else
      { scan with
        violations := scan.violations ++
          violationAt .allowBeforeDeny entry scan.firstExplicitAllow }

def canonicalOrderViolations (entries : List AclEntry) : List OrderViolation :=
  (entries.zipIdx.foldl scanEntry {}).violations

/-- Descriptor facts. An owner that was recorded always has a key. -/
structure DaclFacts where
  daclPresent : Bool := true
  daclProtected : Bool := false
  ownerSid : Option String := none
  ownerKey : Option String := none
  declaredAceCount : Option ℕ := none
  owner_keyed : ownerSid ≠ none → ownerKey ≠ none := by decide

/-- The constructor: a missing owner key defaults to the owner's SID. -/
def DaclFacts.make (daclPresent daclProtected : Bool) (ownerSid ownerKey : Option String)
    (declaredAceCount : Option ℕ) : DaclFacts where
  daclPresent := daclPresent
  daclProtected := daclProtected
  ownerSid := ownerSid
  ownerKey := ownerKey <|> ownerSid
  declaredAceCount := declaredAceCount
  owner_keyed := by cases ownerKey <;> simp

/-- `UNOWNED_PRESENT_DACL`. -/
def unownedPresentDacl : DaclFacts := {}

structure AppliedAce where
  entry : AclEntry
  matched : TokenSid
  position : ℕ
  considered : RightsMask
  contributed : RightsMask

def AppliedAce.viaGroup (a : AppliedAce) : Bool := 0 < a.matched.depth || a.matched.isAssumed

structure AclEvaluation where
  layer : RightsLayer
  rights : RightsMask
  grantedBy : List AppliedAce := []
  deniedBy : List AppliedAce := []
  superseded : List AppliedAce := []
  ownerRights : Option RightsMask := none
  canonicalRights : Option RightsMask := none
  orderViolations : List OrderViolation := []
  entriesEvaluated : ℕ := 0
  entriesSupplied : ℕ := 0
  findings : List AccessFinding := []

def AclEvaluation.orderDependent (ev : AclEvaluation) : Bool :=
  match ev.canonicalRights with
  | none => false
  | some canonical => canonical ≠ ev.rights

/-- `_Walk`. -/
structure Walk where
  layer : RightsLayer
  granted : AccessMask := 0
  denied : AccessMask := 0
  allowUnion : AccessMask := 0
  denyUnion : AccessMask := 0
  grantedBy : List AppliedAce := []
  deniedBy : List AppliedAce := []
  superseded : List AppliedAce := []
  findings : List AccessFinding := []
  evaluated : ℕ := 0

namespace Walk

def note (w : Walk) (findings : List AccessFinding) : Walk :=
  { w with findings := w.findings ++ findings }

/-- An entry matched: it is counted, and its generic bits are reported. -/
def tally (w : Walk) (findings : List AccessFinding) : Walk :=
  { w with evaluated := w.evaluated+1, findings := w.findings ++ findings }

/-- The record of an entry at its position, with what survives of its mask. -/
def applied (w : Walk) (entry : AclEntry) (matched : TokenSid) (position : ℕ) : AppliedAce where
  entry := entry
  matched := matched
  position := position
  considered := entry.normalized.normalized
  contributed := ⟨entry.expanded &&& ~~~(if entry.isAllow then w.denied else w.granted),w.layer⟩

def allow (w : Walk) (a : AppliedAce) : Walk :=
  let w := { w with allowUnion := w.allowUnion ||| a.considered.value }
  if a.contributed.value ≠ 0 then
    { w with granted := w.granted ||| a.contributed.value, grantedBy := w.grantedBy ++ [a] }
  else { w with superseded := w.superseded ++ [a] }

def refuse (w : Walk) (a : AppliedAce) : Walk :=
  let w := { w with denyUnion := w.denyUnion ||| a.considered.value }
  if a.contributed.value ≠ 0 then
    { w with denied := w.denied ||| a.contributed.value, deniedBy := w.deniedBy ++ [a] }
  else { w with superseded := w.superseded ++ [a] }

def fold (w : Walk) (a : AppliedAce) : Walk := if a.entry.isAllow then w.allow a else w.refuse a

end Walk

/-- `_owner_rights`, and the findings that explain it. -/
def ownerRightsOf (ownerTokenSid : Option TokenSid) (facts : DaclFacts)
    (entries : List AclEntry) : Option RightsMask × List AccessFinding :=
  match facts.ownerSid with
  | none => (none,[])
  | some owner =>
    if ownerTokenSid.isNone then (none,[])
    else if entries.any (fun e => e.namesOwnerRights && e.appliesToThisObject) then
      (none,[{ condition := .ownerRightsAce, detail := [("owner_sid", .text owner)] }])
    else
      (some ownerImplicitRights,
        [{ condition := .ownerImplicitRights
           detail := [("owner_sid", .text owner), ("owner_key", .optional facts.ownerKey),
             ("rights", .text (hex8 ownerImplicitRights.value))] }])

/-- `_match`: by storage key, except that OWNER RIGHTS names the owner. -/
def matchEntry (entry : AclEntry) (token : SubjectToken) (ownerTokenSid : Option TokenSid) :
    Option TokenSid :=
  if entry.namesOwnerRights then ownerTokenSid else token.entry entry.trusteeKey

/-- The finding an unmatched entry may leave behind. -/
def unmatchedFindings (entry : AclEntry) (position : ℕ) (token : SubjectToken) :
    List AccessFinding :=
  if entry.trusteeSid ∈ logonSessionSids then
    [{ condition := .logonTypeTrustee
       detail := [("trustee_sid", .text entry.trusteeSid),
         ("ace_type", .text entry.aceType.value),
         ("access_path", .text token.accessPath.value), ("position", .number position)] }]
  else []

def genericFindings (entry : AclEntry) : List AccessFinding :=
  if entry.normalized.wasGeneric then
    [{ condition := .genericRightsExpanded
       detail := [("trustee_sid", .text entry.trusteeSid),
         ("raw", .text (hex8 entry.normalized.raw.value)),
         ("expanded", .text (hex8 entry.normalized.normalized.value))] }]
  else []

/-- `_apply`. -/
def applyEntry (token : SubjectToken) (ownerTokenSid : Option TokenSid) (w : Walk)
    (row : AclEntry × ℕ) : Walk :=
  let (entry, position) := row
  if !entry.appliesToThisObject then w
  else if entry.namesSubstitutionPlaceholder then
    w.note [{ condition := .creatorOwnerAce
              detail := [("trustee_sid", .text entry.trusteeSid),
                ("ace_type", .text entry.aceType.value), ("position", .number position)] }]
  else
    match matchEntry entry token ownerTokenSid with
    | none => w.note (unmatchedFindings entry position token)
    | some matched =>
      let w := w.tally (genericFindings entry)
      w.fold (w.applied entry matched position)

/-- `_null_dacl`. -/
def nullDacl (layer : RightsLayer) (facts : DaclFacts) (supplied : ℕ) : AclEvaluation where
  layer := layer
  rights := ⟨fileAllAccess,layer⟩
  entriesSupplied := supplied
  findings :=
    { condition := .nullDacl, detail := [("owner_sid", .optional facts.ownerSid)] } ::
      (if supplied ≠ 0 then
        [{ condition := .aceCountMismatch
           detail := [("declared", .number 0), ("held", .number supplied),
             ("reason", .text "null_dacl")] }] else [])

/-- `_note_rights_conditions`. -/
def rightsConditions (rights : RightsMask) : List AccessFinding :=
  (if rights.isIndeterminate then
    [{ condition := .indeterminateRights, detail := [("rights", .text (hex8 rights.value))] }]
    else []) ++
  (if rights.unrecognizedBits ≠ 0 then
    [{ condition := .unrecognizedRightsBits
       detail := [("bits", .text (hex8 rights.unrecognizedBits))] }] else [])

/-- The findings raised once the walk is over. -/
def closingFindings (facts : DaclFacts) (supplied considered : List AclEntry)
    (violations : List OrderViolation) (rights canonical : RightsMask) : List AccessFinding :=
  (if considered = [] then [{ condition := .emptyDacl }] else []) ++
  (if facts.daclProtected then [{ condition := .protectedDacl }] else []) ++
  (if maxAclEntries < supplied.length then
    [{ condition := .aclTruncated
       detail := [("supplied", .number supplied.length), ("evaluated", .number maxAclEntries)] }]
    else []) ++
  (match facts.declaredAceCount with
    | none => []
    | some declared =>
      if declared ≠ supplied.length then
        [{ condition := .aceCountMismatch
           detail := [("declared", .number declared), ("held", .number supplied.length)] }]
      else []) ++
  (if violations.isEmpty then [] else
    [{ condition := .nonCanonicalDacl
       detail := [("violations", .violations (violations.map (·.record)))] }]) ++
  (if canonical ≠ rights then
    [{ condition := .orderDependentResult
       detail := [("evaluated", .text (hex8 rights.value)),
         ("canonical", .text (hex8 canonical.value))] }] else []) ++
  rightsConditions rights

/-- The key the token holds the owner by, if it does. -/
def ownerTokenSidOf (token : SubjectToken) (facts : DaclFacts) : Option TokenSid :=
  facts.ownerKey.bind token.entry

/-- The whole pass over a list of entries, from the owner's rights on. -/
def walkOver (entries : List AclEntry) (token : SubjectToken) (layer : RightsLayer)
    (facts : DaclFacts) : Walk :=
  let ownerTokenSid := ownerTokenSidOf token facts
  let (_, notes) := ownerRightsOf ownerTokenSid facts entries
  entries.zipIdx.foldl (applyEntry token ownerTokenSid) (({ layer } : Walk).note notes)

def withOwner (rights : RightsMask) : Option RightsMask → Except DomainError RightsMask
  | none => .ok rights
  | some owner => rights.union ⟨owner.value,rights.layer⟩

/-- `evaluate_acl`. -/
def evaluateAcl (supplied : List AclEntry) (token : SubjectToken) (layer : RightsLayer)
    (facts : DaclFacts) : Except DomainError AclEvaluation := do
  if layer = .effective then
    throw { message := "An ACL is evaluated at the layer it belongs to. The EFFECTIVE layer is the result of crossing two of them, which the resolver does.", field := "layer" }
  match supplied.find? (·.layer ≠ layer) with
  | some entry =>
    throw { message := s!"Entry for {entry.trusteeSid} carries a '{entry.layer.value}' mask in a '{layer.value}' evaluation. Crossing layers silently is the one mistake the rights model exists to prevent.", field := "entries" }
  | none => pure ()
  if !facts.daclPresent then
    return nullDacl layer facts supplied.length
  let considered := supplied.take maxAclEntries
  let ownerRights := (ownerRightsOf (ownerTokenSidOf token facts) facts considered).1
  let walk := walkOver considered token layer facts
  let rights ← withOwner ⟨walk.granted,layer⟩ ownerRights
  let canonical ← withOwner ⟨walk.allowUnion &&& ~~~walk.denyUnion,layer⟩ ownerRights
  let violations := canonicalOrderViolations considered
  return {
    layer := layer
    rights := rights
    grantedBy := walk.grantedBy
    deniedBy := walk.deniedBy
    superseded := walk.superseded
    ownerRights := ownerRights
    canonicalRights := some canonical
    orderViolations := violations
    entriesEvaluated := walk.evaluated
    entriesSupplied := supplied.length
    findings := walk.findings ++
      closingFindings facts supplied considered violations rights canonical }

end Adg.Evaluation
