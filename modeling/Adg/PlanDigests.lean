import Adg.ChangePlans

/-!
# Digests of a plan

A snapshot, a step and a plan are each digested over the fields that say what
they are. The fields that say when something was learned, or how it is shown,
are left out. Two of them have one digest exactly when they agree in the fields
that are digested.
-/

set_option autoImplicit false

namespace Adg.PlanDigests
open Adg.Observation Adg.CanonicalJson Adg.ChangePlans Adg.SortedLists
open Adg.ReviewGeneration (optionalJson sourceValue)

/-! ### Fields that may be absent -/

/-- A rendering that tells values apart and is never a null. -/
structure Legible {α : Type} (f : α → Json) : Prop where
  injective : ∀ a b, Same (f a) (f b) → a = b
  some_value : ∀ a, ¬ Same (f a) .null

theorem optional_same {α : Type} {f : α → Json} (hf : Legible f) {x y : Option α}
    (h : sortKeys (optionalJson f x) = sortKeys (optionalJson f y)) : x = y := by
  cases x with
  | none =>
    cases y with
    | none => rfl
    | some b => exact absurd h.symm (hf.some_value b)
  | some a =>
    cases y with
    | none => exact absurd h (hf.some_value a)
    | some b => exact congrArg some (hf.injective a b h)

theorem text_legible : Legible Json.text :=
  ⟨fun _ _ h => by simpa [Same, sortKeys] using h,fun _ h => by simp [Same, sortKeys] at h⟩

theorem whole_legible : Legible Json.whole :=
  ⟨fun _ _ h => by simpa [Same, sortKeys] using h,fun _ h => by simp [Same, sortKeys] at h⟩

/-- The members of an enumeration are told apart by their values. -/
theorem value_legible {α : Type} {value : α → String} (h : Function.Injective value) :
    Legible fun a => Json.text (value a) :=
  ⟨fun _ _ hab => h (text_legible.injective _ _ hab),fun _ => text_legible.some_value _⟩

theorem source_injective : Function.Injective sourceValue := by
  intro a b h
  cases a <;> cases b <;> first | rfl | exact absurd h (by decide)

theorem changeKind_injective : Function.Injective PlannedChangeKind.value := by
  intro a b h
  cases a <;> cases b <;> first | rfl | exact absurd h (by decide)

theorem targetKind_injective : Function.Injective ChangeTargetKind.value := by
  intro a b h
  cases a <;> cases b <;> first | rfl | exact absurd h (by decide)

/-! ### Snapshots -/

/-- `EntrySnapshot.as_digestible`, field by field. -/
def entryDocument (e : EntryFields) : List (String × Json) :=
  [("ace_key",.text e.aceKey),
    ("trustee_sid",.text e.trusteeSid),
    ("trustee_key",.text e.trusteeKey),
    ("ace_type",.text e.aceType.value),
    ("access_mask",optionalJson .whole e.accessMask),
    ("permission",optionalJson (fun p => .text (SharePermission.value p)) e.permission),
    ("ace_flags",optionalJson .whole e.aceFlags),
    ("source",optionalJson (fun s => .text (sourceValue s)) e.source),
    ("inherited_from",optionalJson .text e.inheritedFrom),
    ("order_index",optionalJson .whole e.orderIndex)]

/-- `EntrySnapshot.as_digestible`. -/
def entryDigestible (e : EntryFields) : Json := .object (entryDocument e)

theorem entryNames_nodup : ["ace_key","trustee_sid","trustee_key","ace_type","access_mask",
    "permission","ace_flags","source","inherited_from","order_index"].Nodup := by decide

theorem entryDigestible_legible : Legible entryDigestible := by
  constructor
  · intro e o h
    have hvalues := h.values rfl entryNames_nodup
    simp only [entryDocument, List.map_cons, List.map_nil, List.cons.injEq, and_true] at hvalues
    obtain ⟨h1,h2,h3,h4,h5,h6,h7,h8,h9,h10⟩ := hvalues
    cases e
    cases o
    rw [EntryFields.mk.injEq]
    exact ⟨text_legible.injective _ _ h1,text_legible.injective _ _ h2,
      text_legible.injective _ _ h3,(value_legible AceType.value_injective).injective _ _ h4,
      optional_same whole_legible h5,optional_same (value_legible SharePermission.value_injective) h6,
      optional_same whole_legible h7,optional_same (value_legible source_injective) h8,
      optional_same text_legible h9,optional_same whole_legible h10⟩
  · intro e h
    simp [Same, entryDigestible, sortKeys] at h

/-- What of a membership is digested. -/
structure Edge where
  groupKey : String
  memberKey : String
  memberSid : String
  edgeKind : MembershipEdgeKind
  deriving DecidableEq, Repr

def edgeOf (m : MembershipFields) : Edge where
  groupKey := m.groupKey
  memberKey := m.memberKey
  memberSid := m.memberSid
  edgeKind := m.edgeKind

/-- `MembershipSnapshot.as_digestible`, field by field. -/
def edgeDocument (m : Edge) : List (String × Json) :=
  [("group_key",.text m.groupKey),
    ("member_key",.text m.memberKey),
    ("member_sid",.text m.memberSid),
    ("edge_kind",.text m.edgeKind.value)]

/-- `MembershipSnapshot.as_digestible`. -/
def edgeDigestible (m : Edge) : Json := .object (edgeDocument m)

theorem edgeNames_nodup :
    ["group_key","member_key","member_sid","edge_kind"].Nodup := by decide

theorem edgeDigestible_legible : Legible edgeDigestible := by
  constructor
  · intro m n h
    have hvalues := h.values rfl edgeNames_nodup
    simp only [edgeDocument, List.map_cons, List.map_nil, List.cons.injEq, and_true] at hvalues
    obtain ⟨h1,h2,h3,h4⟩ := hvalues
    cases m
    cases n
    rw [Edge.mk.injEq]
    exact ⟨text_legible.injective _ _ h1,text_legible.injective _ _ h2,
      text_legible.injective _ _ h3,(value_legible MembershipEdgeKind.value_injective).injective _ _ h4⟩
  · intro m h
    simp [Same, edgeDigestible, sortKeys] at h

/-! ### Steps -/

/-- What of a step is digested. -/
structure DigestedChange where
  sequenceIndex : ℤ
  kind : PlannedChangeKind
  targetKind : ChangeTargetKind
  targetKey : String
  principalSid : String
  principalKey : String
  entry : Option EntryFields
  membership : Option Edge
  afterAccessMask : Option ℤ
  afterPermission : Option SharePermission
  replacementGroupKey : Option String
  replacementGroupSid : Option String
  itemId : Option String
  decisionId : Option String
  riskFindingKey : Option String
  deriving DecidableEq

def digested (c : ChangeFields) : DigestedChange where
  sequenceIndex := c.sequenceIndex
  kind := c.kind
  targetKind := c.targetKind
  targetKey := c.targetKey
  principalSid := c.principalSid
  principalKey := c.principalKey
  entry := c.entry.map (·.toEntryFields)
  membership := c.membership.map fun m => edgeOf m.toMembershipFields
  afterAccessMask := c.afterAccessMask
  afterPermission := c.afterPermission
  replacementGroupKey := c.replacementGroupKey
  replacementGroupSid := c.replacementGroupSid
  itemId := c.itemId
  decisionId := c.decisionId
  riskFindingKey := c.riskFindingKey

/-- `PlannedChange.as_digestible`, field by field. -/
def changeDocument (d : DigestedChange) : List (String × Json) :=
  [("sequence_index",.whole d.sequenceIndex),
    ("kind",.text d.kind.value),
    ("target_kind",.text d.targetKind.value),
    ("target_key",.text d.targetKey),
    ("principal_sid",.text d.principalSid),
    ("principal_key",.text d.principalKey),
    ("entry",optionalJson entryDigestible d.entry),
    ("membership",optionalJson edgeDigestible d.membership),
    ("after_access_mask",optionalJson .whole d.afterAccessMask),
    ("after_permission",
      optionalJson (fun p => .text (SharePermission.value p)) d.afterPermission),
    ("replacement_group_key",optionalJson .text d.replacementGroupKey),
    ("replacement_group_sid",optionalJson .text d.replacementGroupSid),
    ("item_id",optionalJson .text d.itemId),
    ("decision_id",optionalJson .text d.decisionId),
    ("risk_finding_key",optionalJson .text d.riskFindingKey)]

/-- `PlannedChange.as_digestible`. -/
def changeDigestible (d : DigestedChange) : Json := .object (changeDocument d)

theorem changeNames_nodup : ["sequence_index","kind","target_kind","target_key","principal_sid",
    "principal_key","entry","membership","after_access_mask","after_permission",
    "replacement_group_key","replacement_group_sid","item_id","decision_id",
    "risk_finding_key"].Nodup := by decide

theorem changeDigestible_legible : Legible changeDigestible := by
  constructor
  · intro c d h
    have hvalues := h.values rfl changeNames_nodup
    simp only [changeDocument, List.map_cons, List.map_nil, List.cons.injEq, and_true] at hvalues
    obtain ⟨h1,h2,h3,h4,h5,h6,h7,h8,h9,h10,h11,h12,h13,h14,h15⟩ := hvalues
    cases c
    cases d
    rw [DigestedChange.mk.injEq]
    exact ⟨whole_legible.injective _ _ h1,
      (value_legible changeKind_injective).injective _ _ h2,
      (value_legible targetKind_injective).injective _ _ h3,
      text_legible.injective _ _ h4,text_legible.injective _ _ h5,
      text_legible.injective _ _ h6,optional_same entryDigestible_legible h7,
      optional_same edgeDigestible_legible h8,optional_same whole_legible h9,
      optional_same (value_legible SharePermission.value_injective) h10,
      optional_same text_legible h11,optional_same text_legible h12,
      optional_same text_legible h13,optional_same text_legible h14,
      optional_same text_legible h15⟩
  · intro d h
    simp [Same, changeDigestible, sortKeys] at h

section Digests
variable (sha256 : String → String)

/-- `_digest`. -/
def digestOf (payload : Json) : String := sha256 (canonical payload)

theorem digestOf_iff {sha256 : String → String} (collisionFree : Function.Injective sha256)
    {v w : Json} : digestOf sha256 v = digestOf sha256 w ↔ Same v w := by
  unfold digestOf
  rw [collisionFree.eq_iff, canonical_eq_iff]

/-- `EntrySnapshot.content_digest`. -/
def entryDigest (e : EntryFields) : String := digestOf sha256 (entryDigestible e)

theorem entryDigest_iff {sha256 : String → String} (collisionFree : Function.Injective sha256)
    {e o : EntryFields} : entryDigest sha256 e = entryDigest sha256 o ↔ e = o := by
  unfold entryDigest
  rw [digestOf_iff collisionFree]
  exact ⟨entryDigestible_legible.injective e o,fun h => h ▸ rfl⟩

/-- `MembershipSnapshot.content_digest`. -/
def membershipDigest (m : MembershipFields) : String := digestOf sha256 (edgeDigestible (edgeOf m))

/-- `PlannedChange.precondition_digest`. A step carries one or the other. -/
def preconditionDigest (c : ChangeFields) : String :=
  match c.entry, c.membership with
  | some e, _ => entryDigest sha256 e.toEntryFields
  | none, some m => membershipDigest sha256 m.toMembershipFields
  | none, none => ""

/-! ### Plans -/

/-- `PLAN_DOCUMENT_VERSION`. -/
def planDocumentVersion : String := "1.0"

/-- What of a plan is digested. -/
structure PlanContent where
  planId : String
  title : String
  rationale : String
  campaignId : Option String
  requestedBySubject : String
  basisToken : String
  simulationId : Option String
  changes : List DigestedChange
  deriving DecidableEq

/-- The material of `plan_digest`, field by field. -/
def planDocument (p : PlanContent) : List (String × Json) :=
  [("document_version",.text planDocumentVersion),
    ("plan_id",.text p.planId),
    ("title",.text p.title),
    ("rationale",.text p.rationale),
    ("campaign_id",optionalJson .text p.campaignId),
    ("requested_by_subject",.text p.requestedBySubject),
    ("basis_token",.text p.basisToken),
    ("simulation_id",optionalJson .text p.simulationId),
    ("changes",.array (p.changes.map changeDigestible))]

/-- `plan_digest`, of what is digested. -/
def planDigest (p : PlanContent) : String := digestOf sha256 (.object (planDocument p))

theorem planNames_nodup : ["document_version","plan_id","title","rationale","campaign_id",
    "requested_by_subject","basis_token","simulation_id","changes"].Nodup := by decide

/-- Plans with one digest agree in all that is digested. -/
theorem planDigest_iff {sha256 : String → String} (collisionFree : Function.Injective sha256)
    {p q : PlanContent} : planDigest sha256 p = planDigest sha256 q ↔ p = q := by
  unfold planDigest
  rw [digestOf_iff collisionFree]
  constructor
  · intro h
    have hvalues := h.values rfl planNames_nodup
    simp only [planDocument, List.map_cons, List.map_nil, List.cons.injEq, and_true] at hvalues
    obtain ⟨-,h2,h3,h4,h5,h6,h7,h8,h9⟩ := hvalues
    have hchanges : p.changes = q.changes := by
      have hitems : (p.changes.map changeDigestible).map sortKeys =
          (q.changes.map changeDigestible).map sortKeys := Same.items h9
      rw [List.map_map, List.map_map] at hitems
      exact (List.map_injective_iff.mpr fun c d => changeDigestible_legible.injective c d) hitems
    cases p
    cases q
    rw [PlanContent.mk.injEq]
    exact ⟨text_legible.injective _ _ h2,text_legible.injective _ _ h3,
      text_legible.injective _ _ h4,optional_same text_legible h5,
      text_legible.injective _ _ h6,text_legible.injective _ _ h7,
      optional_same text_legible h8,hchanges⟩
  · rintro rfl
    rfl

end Digests

end Adg.PlanDigests
