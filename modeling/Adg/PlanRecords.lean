import Adg.AuditChain
import Adg.KeyedTables
import Adg.PlanDigests

/-!
# Stored plans

A plan is a row and a row for each of its steps. A row of a step has one column
for the state the step was written against, which holds the document of its
entry, or that of its membership when there is no entry. A step is made again
from its row. What a membership says beyond its two ends and its kind is read
from that column, whichever of the two documents is in it.
-/

set_option autoImplicit false

namespace Adg.PlanRecords
open Adg.Observation Adg.SecurityIdentifier Adg.SortedLists Adg.CanonicalJson Adg.ChangePlans
open Adg.PlanDigests
open Adg.AuditChain (UtcMoment padded padded_length)
open Adg.ReviewGeneration (optionalJson sourceValue)
open Adg.Fallible (bind_ok mapped_ok mapM_of_ok)

/-! ### Instants -/

/-- The number at the front of a text, and what stands behind the mark after it. -/
def readNumber (width : ℕ) (cs : List Char) : ℕ × List Char :=
  (Nat.ofDigitChars 10 (cs.take width) 0,cs.drop (width+1))

theorem readNumber_padded {width n : ℕ} (hw : 0 < width) (hn : n < 10^width) (c : Char)
    (rest : List Char) : readNumber width (padded width n ++ c :: rest) = (n,rest) := by
  have hlength := padded_length hw hn
  have hvalue : Nat.ofDigitChars 10 (padded width n) 0 = n := by
    rw [padded, Nat.ofDigitChars_append, Nat.ofDigitChars_replicate_zero, Nat.mul_zero,
      Nat.ofDigitChars_ten_toDigits]
  have hmark : (padded width n ++ [c]).length = width+1 := by
    rw [List.length_append, hlength, List.length_singleton]
  have hbehind : (padded width n ++ c :: rest).drop (width+1) = rest := by
    rw [← List.singleton_append, ← List.append_assoc, List.drop_left' hmark]
  unfold readNumber
  rw [List.take_left' hlength, hvalue, hbehind]

/-- `datetime.fromisoformat`, of the texts that `isoformat` writes. -/
def fromIsoformat (text : String) : Option UtcMoment :=
  let year := readNumber 4 text.toList
  let month := readNumber 2 year.2
  let day := readNumber 2 month.2
  let hour := readNumber 2 day.2
  let minute := readNumber 2 hour.2
  let second := readNumber 2 minute.2
  let microsecond := readNumber 6 second.2
  if h : (year.1 < 10^4 ∧ month.1 < 10^2 ∧ day.1 < 10^2) ∧
      hour.1 < 10^2 ∧ minute.1 < 10^2 ∧ second.1 < 10^2 ∧ microsecond.1 < 10^6 then
    some ⟨year.1,month.1,day.1,hour.1,minute.1,second.1,microsecond.1,h.1,h.2⟩
  else none

/-- An instant is read as it was written. -/
theorem fromIsoformat_back (m : UtcMoment) : fromIsoformat m.isoformat = some m := by
  obtain ⟨y,mo,d,h,mi,s,u,hc,hk⟩ := m
  have hyear := readNumber_padded (by decide) hc.1
  have hmonth := readNumber_padded (by decide) hc.2.1
  have hday := readNumber_padded (by decide) hc.2.2
  have hhour := readNumber_padded (by decide) hk.1
  have hminute := readNumber_padded (by decide) hk.2.1
  have hsecond := readNumber_padded (by decide) hk.2.2.1
  have hmicro := readNumber_padded (by decide) hk.2.2.2
  unfold fromIsoformat UtcMoment.isoformat
  simp only [String.toList_ofList, hyear, hmonth, hday, hhour, hminute, hsecond, hmicro]
  exact dif_pos ⟨hc,hk⟩

/-! ### Documents -/

/-- A JSON object, as it is stored and read back. -/
abbrev Document := List (String × Json)

/-- A stored value that is not what it should be, or that a constructor refuses. -/
inductive ReadFailure where
  | malformed
  | refused (error : DomainError)
  deriving DecidableEq

/-- The member of an enumeration that a text is the value of. -/
def memberOf {α : Type} (members : List α) (value : α → String) (text : String) : Option α :=
  members.find? (value · = text)

def aceTypes : List AceType := [.allow, .deny]

def permissions : List SharePermission := [.read, .change, .full]

def sources : List AceSource := [.explicit, .inherited]

def principalKinds : List PrincipalKind :=
  [.user, .domainGroup, .localGroup, .computer, .managedServiceAccount, .wellKnown,
    .foreignSecurityPrincipal, .unresolved]

def asText : Json → Option String
  | .text s => some s
  | _ => none

def asWhole : Json → Option ℤ
  | .whole n => some n
  | _ => none

def asInstant (v : Json) : Option UtcMoment := (asText v).bind fromIsoformat

def asMember {α : Type} (members : List α) (value : α → String) (v : Json) : Option α :=
  (asText v).bind (memberOf members value)

/-- `document[name]`. -/
def fieldAt {α : Type} (read : Json → Option α) (d : Document) (name : String) :
    Except ReadFailure α :=
  match (d.lookup name).bind read with
  | some a => .ok a
  | none => .error .malformed

/-- `document.get(name)`. -/
def optionalAt {α : Type} (read : Json → Option α) (d : Document) (name : String) :
    Except ReadFailure (Option α) :=
  let v := (d.lookup name).getD .null
  if v = .null then .ok none
  else match read v with
    | some a => .ok (some a)
    | none => .error .malformed

/-- A reading that undoes a rendering. -/
structure Undoes {α : Type} (read : Json → Option α) (write : α → Json) : Prop where
  back : ∀ a, read (write a) = some a
  null : read .null = none

theorem text_undone : Undoes asText Json.text := ⟨fun _ => rfl,rfl⟩

theorem whole_undone : Undoes asWhole Json.whole := ⟨fun _ => rfl,rfl⟩

theorem instant_undone : Undoes asInstant fun m => .text (UtcMoment.isoformat m) := by
  constructor
  · intro m
    rw [asInstant, asText, Option.bind_some, fromIsoformat_back]
  · rfl

theorem member_undone {α : Type} {members : List α} {value : α → String}
    (hall : ∀ a, a ∈ members) (hvalues : (members.map value).Nodup) :
    Undoes (asMember members value) fun a => .text (value a) :=
  ⟨fun a => KeyedTables.find_keyed hvalues (hall a),rfl⟩

theorem aceType_undone : Undoes (asMember aceTypes AceType.value) fun a => .text a.value :=
  member_undone (by rintro ⟨⟩ <;> decide) (by decide)

theorem permission_undone :
    Undoes (asMember permissions SharePermission.value) fun p => .text p.value :=
  member_undone (by rintro ⟨⟩ <;> decide) (by decide)

theorem source_undone : Undoes (asMember sources sourceValue) fun s => .text (sourceValue s) :=
  member_undone (by rintro ⟨⟩ <;> decide) (by decide)

theorem principalKind_undone :
    Undoes (asMember principalKinds PrincipalKind.value) fun k => .text k.value :=
  member_undone (by rintro ⟨⟩ <;> decide) (by decide)

section Fields
variable {α : Type} {read : Json → Option α} {write : α → Json} {d : Document} {name : String}

theorem fieldAt_back (h : Undoes read write) {a : α} (hd : d.lookup name = some (write a)) :
    fieldAt read d name = .ok a := by
  unfold fieldAt
  rw [hd, Option.bind_some, h.back]

theorem optionalAt_back (h : Undoes read write) {a : Option α}
    (hd : d.lookup name = some (optionalJson write a)) : optionalAt read d name = .ok a := by
  unfold optionalAt
  rw [hd, Option.getD_some]
  cases a with
  | none => exact if_pos rfl
  | some a =>
    have hread : read (optionalJson write (some a)) = some a := h.back a
    have hvalue : optionalJson write (some a) ≠ .null := by
      intro hnull
      rw [hnull, h.null] at hread
      cases hread
    rw [if_neg hvalue, hread]

theorem optionalAt_absent (hd : d.lookup name = none) : optionalAt read d name = .ok none := by
  unfold optionalAt
  rw [hd]
  exact if_pos rfl

end Fields

/-! ### Snapshots and their documents -/

/-- Where a snapshot was copied from, and when it was seen. -/
structure Provenance where
  versionId : Option ℤ := none
  observedFrom : Option UtcMoment := none
  lastConfirmedAt : Option UtcMoment := none
  deriving DecidableEq

/-- `EntrySnapshot`, provenance included. -/
structure EntryRecord where
  snapshot : EntrySnapshot
  provenance : Provenance := {}
  deriving DecidableEq

/-- `MembershipSnapshot`, provenance included. -/
structure MembershipRecord where
  snapshot : MembershipSnapshot
  provenance : Provenance := {}
  deriving DecidableEq

def provenanceDocument (p : Provenance) : Document :=
  [("version_id",optionalJson .whole p.versionId),
    ("observed_from",optionalJson (fun m => .text (UtcMoment.isoformat m)) p.observedFrom),
    ("last_confirmed_at",optionalJson (fun m => .text (UtcMoment.isoformat m)) p.lastConfirmedAt)]

/-- `EntrySnapshot.document`. -/
def entryRecordDocument (sha256 : String → String) (r : EntryRecord) : Document :=
  entryDocument r.snapshot.toEntryFields ++ provenanceDocument r.provenance ++
    [("content_digest",.text (entryDigest sha256 r.snapshot.toEntryFields))]

/-- `MembershipSnapshot.document`. -/
def membershipRecordDocument (sha256 : String → String) (r : MembershipRecord) : Document :=
  edgeDocument (edgeOf r.snapshot.toMembershipFields) ++
    [("member_kind",optionalJson (fun k => .text (PrincipalKind.value k)) r.snapshot.memberKind),
      ("group_display_name",optionalJson .text r.snapshot.groupDisplayName),
      ("member_display_name",optionalJson .text r.snapshot.memberDisplayName)] ++
    provenanceDocument r.provenance ++
    [("content_digest",.text (membershipDigest sha256 r.snapshot.toMembershipFields))]

/-- An entry through its constructor. -/
def makeEntry (f : EntryFields) : Except ReadFailure EntrySnapshot :=
  match h : checkEntry f with
  | .ok () => .ok ⟨f,h⟩
  | .error e => .error (.refused e)

theorem makeEntry_back (e : EntrySnapshot) : makeEntry e.toEntryFields = .ok e := by
  unfold makeEntry
  split
  next => rfl
  next error herror =>
    rw [e.checked] at herror
    cases herror

/-- A membership through its constructor. -/
def makeMembership (f : MembershipFields) : Except ReadFailure MembershipSnapshot :=
  match h : checkMembership f with
  | .ok () => .ok ⟨f,h⟩
  | .error e => .error (.refused e)

theorem makeMembership_ok {f : MembershipFields} (h : checkMembership f = .ok ()) :
    makeMembership f = .ok ⟨f,h⟩ := by
  unfold makeMembership
  split
  next => rfl
  next error herror =>
    rw [h] at herror
    cases herror

def readProvenance (d : Document) : Except ReadFailure Provenance := do
  let versionId ← optionalAt asWhole d "version_id"
  let observedFrom ← optionalAt asInstant d "observed_from"
  let lastConfirmedAt ← optionalAt asInstant d "last_confirmed_at"
  return {
    versionId := versionId
    observedFrom := observedFrom
    lastConfirmedAt := lastConfirmedAt }

/-- `EntrySnapshot.from_document`. -/
def entryFromDocument (d : Document) : Except ReadFailure EntryRecord := do
  let aceKey ← fieldAt asText d "ace_key"
  let trusteeSid ← fieldAt asText d "trustee_sid"
  let trusteeKey ← fieldAt asText d "trustee_key"
  let aceType ← fieldAt (asMember aceTypes AceType.value) d "ace_type"
  let accessMask ← optionalAt asWhole d "access_mask"
  let permission ← optionalAt (asMember permissions SharePermission.value) d "permission"
  let aceFlags ← optionalAt asWhole d "ace_flags"
  let source ← optionalAt (asMember sources sourceValue) d "source"
  let inheritedFrom ← optionalAt asText d "inherited_from"
  let orderIndex ← optionalAt asWhole d "order_index"
  let provenance ← readProvenance d
  let snapshot ← makeEntry {
    aceKey := aceKey
    trusteeSid := trusteeSid
    trusteeKey := trusteeKey
    aceType := aceType
    accessMask := accessMask
    permission := permission
    aceFlags := aceFlags
    source := source
    inheritedFrom := inheritedFrom
    orderIndex := orderIndex }
  return ⟨snapshot,provenance⟩

def edgeKinds : List MembershipEdgeKind :=
  [.directoryGroupMember, .primaryGroup, .localGroupMember, .wellKnownImplicit]

theorem edgeKind_undone :
    Undoes (asMember edgeKinds MembershipEdgeKind.value) fun k => .text k.value :=
  member_undone (by rintro ⟨⟩ <;> decide) (by decide)

/-- `MembershipSnapshot.from_document`. -/
def membershipFromDocument (d : Document) : Except ReadFailure MembershipRecord := do
  let groupKey ← fieldAt asText d "group_key"
  let memberKey ← fieldAt asText d "member_key"
  let memberSid ← fieldAt asText d "member_sid"
  let edgeKind ← fieldAt (asMember edgeKinds MembershipEdgeKind.value) d "edge_kind"
  let memberKind ← optionalAt (asMember principalKinds PrincipalKind.value) d "member_kind"
  let groupDisplayName ← optionalAt asText d "group_display_name"
  let memberDisplayName ← optionalAt asText d "member_display_name"
  let provenance ← readProvenance d
  let snapshot ← makeMembership {
    groupKey := groupKey
    memberKey := memberKey
    memberSid := memberSid
    edgeKind := edgeKind
    memberKind := memberKind
    groupDisplayName := groupDisplayName
    memberDisplayName := memberDisplayName }
  return ⟨snapshot,provenance⟩

/-- A document that ends with a provenance, and the digest behind it. -/
theorem readProvenance_back (front : Document) (p : Provenance) (digest : Json)
    (h : ∀ name ∈ ["version_id","observed_from","last_confirmed_at"],
      front.lookup name = none) :
    readProvenance (front ++ provenanceDocument p ++ [("content_digest",digest)]) = .ok p := by
  have hfield : ∀ name ∈ ["version_id","observed_from","last_confirmed_at"], ∀ v,
      (provenanceDocument p).lookup name = some v →
      (front ++ provenanceDocument p ++ [("content_digest",digest)]).lookup name = some v := by
    intro name hname v hv
    rw [List.lookup_append, List.lookup_append, h name hname, Option.none_or, hv, Option.some_or]
  have hversion := optionalAt_back whole_undone (a := p.versionId)
    (hfield "version_id" (by simp) _ rfl)
  have hobserved := optionalAt_back instant_undone (a := p.observedFrom)
    (hfield "observed_from" (by simp) _ rfl)
  have hconfirmed := optionalAt_back instant_undone (a := p.lastConfirmedAt)
    (hfield "last_confirmed_at" (by simp) _ rfl)
  unfold readProvenance
  rw [hversion, hobserved, hconfirmed]
  rfl

/-- An entry is read from its document as it was. -/
theorem entryFromDocument_back (sha256 : String → String) (r : EntryRecord) :
    entryFromDocument (entryRecordDocument sha256 r) = .ok r := by
  have hfield : ∀ name v, (entryDocument r.snapshot.toEntryFields).lookup name = some v →
      (entryRecordDocument sha256 r).lookup name = some v := by
    intro name v hv
    rw [entryRecordDocument, List.append_assoc, List.lookup_append, hv, Option.some_or]
  have h1 := fieldAt_back text_undone (hfield "ace_key" _ rfl)
  have h2 := fieldAt_back text_undone (hfield "trustee_sid" _ rfl)
  have h3 := fieldAt_back text_undone (hfield "trustee_key" _ rfl)
  have h4 := fieldAt_back aceType_undone (hfield "ace_type" _ rfl)
  have h5 := optionalAt_back whole_undone (hfield "access_mask" _ rfl)
  have h6 := optionalAt_back permission_undone (hfield "permission" _ rfl)
  have h7 := optionalAt_back whole_undone (hfield "ace_flags" _ rfl)
  have h8 := optionalAt_back source_undone (hfield "source" _ rfl)
  have h9 := optionalAt_back text_undone (hfield "inherited_from" _ rfl)
  have h10 := optionalAt_back whole_undone (hfield "order_index" _ rfl)
  have hprovenance : readProvenance (entryRecordDocument sha256 r) = .ok r.provenance := by
    apply readProvenance_back
    intro name hname
    simp only [List.mem_cons, List.not_mem_nil, or_false] at hname
    rcases hname with rfl | rfl | rfl <;> rfl
  unfold entryFromDocument
  rw [h1, h2, h3, h4, h5, h6, h7, h8, h9, h10, hprovenance]
  show (makeEntry r.snapshot.toEntryFields >>= fun snapshot =>
    (.ok ⟨snapshot,r.provenance⟩ : Except ReadFailure EntryRecord)) = .ok r
  rw [makeEntry_back]
  rfl

/-- A membership is read from its document as it was. -/
theorem membershipFromDocument_back (sha256 : String → String) (r : MembershipRecord) :
    membershipFromDocument (membershipRecordDocument sha256 r) = .ok r := by
  have h1 : fieldAt asText (membershipRecordDocument sha256 r) "group_key" =
      .ok r.snapshot.groupKey := fieldAt_back text_undone rfl
  have h2 : fieldAt asText (membershipRecordDocument sha256 r) "member_key" =
      .ok r.snapshot.memberKey := fieldAt_back text_undone rfl
  have h3 : fieldAt asText (membershipRecordDocument sha256 r) "member_sid" =
      .ok r.snapshot.memberSid := fieldAt_back text_undone rfl
  have h4 : fieldAt (asMember edgeKinds MembershipEdgeKind.value)
      (membershipRecordDocument sha256 r) "edge_kind" = .ok r.snapshot.edgeKind :=
    fieldAt_back edgeKind_undone rfl
  have h5 : optionalAt (asMember principalKinds PrincipalKind.value)
      (membershipRecordDocument sha256 r) "member_kind" = .ok r.snapshot.memberKind :=
    optionalAt_back principalKind_undone rfl
  have h6 : optionalAt asText (membershipRecordDocument sha256 r) "group_display_name" =
      .ok r.snapshot.groupDisplayName := optionalAt_back text_undone rfl
  have h7 : optionalAt asText (membershipRecordDocument sha256 r) "member_display_name" =
      .ok r.snapshot.memberDisplayName := optionalAt_back text_undone rfl
  have hprovenance : readProvenance (membershipRecordDocument sha256 r) = .ok r.provenance := by
    apply readProvenance_back
    intro name hname
    simp only [List.mem_cons, List.not_mem_nil, or_false] at hname
    rcases hname with rfl | rfl | rfl <;> rfl
  unfold membershipFromDocument
  rw [h1, h2, h3, h4, h5, h6, h7, hprovenance]
  show (makeMembership r.snapshot.toMembershipFields >>= fun snapshot =>
    (.ok ⟨snapshot,r.provenance⟩ : Except ReadFailure MembershipRecord)) = .ok r
  rw [makeMembership_ok r.snapshot.checked]
  rfl

/-! ### Steps and their rows -/

/-- The fields of a `PlannedChange`, what is not digested included. -/
structure RecordedFields where
  changeId : ℕ
  sequenceIndex : ℤ
  kind : PlannedChangeKind
  targetKind : ChangeTargetKind
  targetKey : String
  targetDisplay : Option String := none
  principalSid : String := ""
  principalKey : String := ""
  principalDisplayName : Option String := none
  entry : Option EntryRecord := none
  membership : Option MembershipRecord := none
  afterAccessMask : Option ℤ := none
  afterPermission : Option SharePermission := none
  replacementGroupKey : Option String := none
  replacementGroupSid : Option String := none
  replacementGroupDisplayName : Option String := none
  itemId : Option String := none
  decisionId : Option String := none
  proposalId : Option String := none
  riskFindingKey : Option String := none
  notes : Option String := none
  deriving DecidableEq

/-- What of a step its checks and its digest read. -/
def RecordedFields.toChange (c : RecordedFields) : ChangeFields where
  changeId := c.changeId
  sequenceIndex := c.sequenceIndex
  kind := c.kind
  targetKind := c.targetKind
  targetKey := c.targetKey
  targetDisplay := c.targetDisplay
  principalSid := c.principalSid
  principalKey := c.principalKey
  entry := c.entry.map (·.snapshot)
  membership := c.membership.map (·.snapshot)
  afterAccessMask := c.afterAccessMask
  afterPermission := c.afterPermission
  replacementGroupKey := c.replacementGroupKey
  replacementGroupSid := c.replacementGroupSid
  replacementGroupDisplayName := c.replacementGroupDisplayName
  itemId := c.itemId
  decisionId := c.decisionId
  riskFindingKey := c.riskFindingKey

/-- `PlannedChange`, with all its fields. -/
structure RecordedChange extends RecordedFields where
  checked : checkChange toRecordedFields.toChange = .ok ()
  deriving DecidableEq

def RecordedChange.planned (c : RecordedChange) : PlannedChange :=
  ⟨c.toRecordedFields.toChange,c.checked⟩

/-- A step through its constructor. -/
def makeChange (f : RecordedFields) : Except ReadFailure RecordedChange :=
  match h : checkChange f.toChange with
  | .ok () => .ok ⟨f,h⟩
  | .error e => .error (.refused e)

theorem makeChange_ok {f : RecordedFields} (h : checkChange f.toChange = .ok ()) :
    makeChange f = .ok ⟨f,h⟩ := by
  unfold makeChange
  split
  next => rfl
  next error herror =>
    rw [h] at herror
    cases herror

/-- A row of `remediation_planned_changes`. -/
structure ChangeRow where
  changeId : ℕ
  planId : String
  sequenceIndex : ℤ
  kind : PlannedChangeKind
  targetKind : ChangeTargetKind
  targetKey : String
  targetDisplay : Option String
  principalSid : String
  principalKey : String
  principalDisplayName : Option String
  aceKey : Option String
  groupKey : Option String
  memberKey : Option String
  edgeKind : Option MembershipEdgeKind
  beforeState : Document
  beforeDigest : String
  afterAccessMask : Option ℤ
  afterPermission : Option SharePermission
  replacementGroupKey : Option String
  replacementGroupSid : Option String
  replacementGroupDisplayName : Option String
  itemId : Option String
  decisionId : Option String
  proposalId : Option String
  riskFindingKey : Option String
  notes : Option String

/-- The document of a step's entry, or that of its membership when it has no entry. -/
def beforeDocument (sha256 : String → String) (c : RecordedFields) : Document :=
  match c.entry, c.membership with
  | some e, _ => entryRecordDocument sha256 e
  | none, some m => membershipRecordDocument sha256 m
  | none, none => []

/-- `_change_values`. -/
def changeValues (sha256 : String → String) (planId : String) (c : RecordedFields) :
    ChangeRow where
  changeId := c.changeId
  planId := planId
  sequenceIndex := c.sequenceIndex
  kind := c.kind
  targetKind := c.targetKind
  targetKey := c.targetKey
  targetDisplay := c.targetDisplay
  principalSid := c.principalSid
  principalKey := c.principalKey
  principalDisplayName := c.principalDisplayName
  aceKey := c.entry.map (·.snapshot.aceKey)
  groupKey := c.membership.map (·.snapshot.groupKey)
  memberKey := c.membership.map (·.snapshot.memberKey)
  edgeKind := c.membership.map (·.snapshot.edgeKind)
  beforeState := beforeDocument sha256 c
  beforeDigest := preconditionDigest sha256 c.toChange
  afterAccessMask := c.afterAccessMask
  afterPermission := c.afterPermission
  replacementGroupKey := c.replacementGroupKey
  replacementGroupSid := c.replacementGroupSid
  replacementGroupDisplayName := c.replacementGroupDisplayName
  itemId := c.itemId
  decisionId := c.decisionId
  proposalId := c.proposalId
  riskFindingKey := c.riskFindingKey
  notes := c.notes

def required {α : Type} (column : Option α) : Except ReadFailure α :=
  match column with
  | some a => .ok a
  | none => .error .malformed

/-- `document.get(name, default)`, of a text. -/
def textOr (d : Document) (name default : String) : Except ReadFailure String :=
  match d.lookup name with
  | none => .ok default
  | some v => required (asText v)

def storedEntry (row : ChangeRow) : Except ReadFailure (Option EntryRecord) :=
  match row.aceKey with
  | none => .ok none
  | some _ => (entryFromDocument row.beforeState).map some

def storedMembership (row : ChangeRow) : Except ReadFailure (Option MembershipRecord) :=
  match row.groupKey with
  | none => .ok none
  | some groupKey => do
    let memberKey ← required row.memberKey
    let memberSid ← textOr row.beforeState "member_sid" ""
    let edgeKind ← required row.edgeKind
    let memberKind ←
      optionalAt (asMember principalKinds PrincipalKind.value) row.beforeState "member_kind"
    let groupDisplayName ← optionalAt asText row.beforeState "group_display_name"
    let memberDisplayName ← optionalAt asText row.beforeState "member_display_name"
    let versionId ← optionalAt asWhole row.beforeState "version_id"
    let snapshot ← makeMembership {
      groupKey := groupKey
      memberKey := memberKey
      memberSid := memberSid
      edgeKind := edgeKind
      memberKind := memberKind
      groupDisplayName := groupDisplayName
      memberDisplayName := memberDisplayName }
    return some ⟨snapshot,{ versionId := versionId }⟩

/-- `_change`. -/
def changeOf (row : ChangeRow) : Except ReadFailure RecordedChange := do
  let entry ← storedEntry row
  let membership ← storedMembership row
  makeChange {
    changeId := row.changeId
    sequenceIndex := row.sequenceIndex
    kind := row.kind
    targetKind := row.targetKind
    targetKey := row.targetKey
    targetDisplay := row.targetDisplay
    principalSid := row.principalSid
    principalKey := row.principalKey
    principalDisplayName := row.principalDisplayName
    entry := entry
    membership := membership
    afterAccessMask := row.afterAccessMask
    afterPermission := row.afterPermission
    replacementGroupKey := row.replacementGroupKey
    replacementGroupSid := row.replacementGroupSid
    replacementGroupDisplayName := row.replacementGroupDisplayName
    itemId := row.itemId
    decisionId := row.decisionId
    proposalId := row.proposalId
    riskFindingKey := row.riskFindingKey
    notes := row.notes }

/-- A membership beside an entry, of which the two ends and the kind are kept. -/
def besideEntry (m : MembershipFields) : MembershipFields where
  groupKey := m.groupKey
  memberKey := m.memberKey
  memberSid := ""
  edgeKind := m.edgeKind

theorem besideEntry_checked (m : MembershipSnapshot) :
    checkMembership (besideEntry m.toMembershipFields) = .ok () := m.checked

/-- What is read of a membership that was stored beside an entry, or alone. -/
def keptMembership (entry : Option EntryRecord) (m : MembershipRecord) : MembershipRecord :=
  match entry with
  | some e =>
    ⟨⟨besideEntry m.snapshot.toMembershipFields,besideEntry_checked m.snapshot⟩,
      { versionId := e.provenance.versionId }⟩
  | none => ⟨m.snapshot,{ versionId := m.provenance.versionId }⟩

/-- What is read of a step that was stored. -/
def keptFields (c : RecordedFields) : RecordedFields :=
  { c with membership := c.membership.map (keptMembership c.entry) }

theorem keptFields_checked (c : RecordedChange) :
    checkChange (keptFields c.toRecordedFields).toChange = .ok () := by
  have hgroup : ∀ e m, (keptMembership e m).snapshot.groupKey = m.snapshot.groupKey := by
    rintro (_ | e) m <;> rfl
  have hsame := checkChange_membership c.toRecordedFields.toChange
    (keptFields c.toRecordedFields).toChange.membership (by
      unfold keptFields RecordedFields.toChange
      simp only [Option.map_map, Function.comp_def, hgroup])
  rw [c.checked] at hsame
  exact hsame

def kept (c : RecordedChange) : RecordedChange :=
  ⟨keptFields c.toRecordedFields,keptFields_checked c⟩

section Reading
variable (sha256 : String → String) (planId : String)

theorem storedEntry_back (c : RecordedFields) :
    storedEntry (changeValues sha256 planId c) = .ok c.entry := by
  unfold storedEntry changeValues beforeDocument
  cases c.entry with
  | none => rfl
  | some e =>
    show (entryFromDocument (entryRecordDocument sha256 e)).map some = _
    rw [entryFromDocument_back]
    rfl

/-- The document of an entry, beside which a membership is read. -/
theorem entryRecordDocument_beside (e : EntryRecord) :
    textOr (entryRecordDocument sha256 e) "member_sid" "" = .ok "" ∧
    optionalAt (asMember principalKinds PrincipalKind.value) (entryRecordDocument sha256 e)
      "member_kind" = .ok none ∧
    optionalAt asText (entryRecordDocument sha256 e) "group_display_name" = .ok none ∧
    optionalAt asText (entryRecordDocument sha256 e) "member_display_name" = .ok none ∧
    optionalAt asWhole (entryRecordDocument sha256 e) "version_id" =
      .ok e.provenance.versionId :=
  ⟨rfl,optionalAt_absent rfl,optionalAt_absent rfl,optionalAt_absent rfl,
    optionalAt_back whole_undone rfl⟩

/-- The document of a membership, from which it is read. -/
theorem membershipRecordDocument_alone (m : MembershipRecord) :
    textOr (membershipRecordDocument sha256 m) "member_sid" "" = .ok m.snapshot.memberSid ∧
    optionalAt (asMember principalKinds PrincipalKind.value) (membershipRecordDocument sha256 m)
      "member_kind" = .ok m.snapshot.memberKind ∧
    optionalAt asText (membershipRecordDocument sha256 m) "group_display_name" =
      .ok m.snapshot.groupDisplayName ∧
    optionalAt asText (membershipRecordDocument sha256 m) "member_display_name" =
      .ok m.snapshot.memberDisplayName ∧
    optionalAt asWhole (membershipRecordDocument sha256 m) "version_id" =
      .ok m.provenance.versionId :=
  ⟨rfl,optionalAt_back principalKind_undone rfl,optionalAt_back text_undone rfl,
    optionalAt_back text_undone rfl,optionalAt_back whole_undone rfl⟩

theorem storedMembership_back (c : RecordedFields) :
    storedMembership (changeValues sha256 planId c) =
      .ok (c.membership.map (keptMembership c.entry)) := by
  unfold storedMembership changeValues beforeDocument
  cases c.membership with
  | none => rfl
  | some m =>
    cases c.entry with
    | none =>
      obtain ⟨hsid,hkind,hgroup,hmember,hversion⟩ := membershipRecordDocument_alone sha256 m
      simp only [Option.map_some, hsid, hkind, hgroup, hmember, hversion]
      show (makeMembership m.snapshot.toMembershipFields >>= fun snapshot =>
        (.ok (some ⟨snapshot,_⟩) : Except ReadFailure (Option MembershipRecord))) = _
      rw [makeMembership_ok m.snapshot.checked]
      rfl
    | some e =>
      obtain ⟨hsid,hkind,hgroup,hmember,hversion⟩ := entryRecordDocument_beside sha256 e
      simp only [Option.map_some, hsid, hkind, hgroup, hmember, hversion]
      show (makeMembership (besideEntry m.snapshot.toMembershipFields) >>= fun snapshot =>
        (.ok (some ⟨snapshot,_⟩) : Except ReadFailure (Option MembershipRecord))) = _
      rw [makeMembership_ok (besideEntry_checked m.snapshot)]
      rfl

/-- A step that was stored is read, with what is kept of its membership. -/
theorem changeOf_values (c : RecordedChange) :
    changeOf (changeValues sha256 planId c.toRecordedFields) = .ok (kept c) := by
  unfold changeOf
  rw [storedEntry_back, storedMembership_back]
  exact makeChange_ok (keptFields_checked c)

end Reading

/-- A membership that is read as it was stored. -/
def Remembered (entry : Option EntryRecord) (m : MembershipRecord) : Prop :=
  m.provenance.observedFrom = none ∧ m.provenance.lastConfirmedAt = none ∧
  ∀ e, entry = some e → m.snapshot.memberSid = "" ∧ m.snapshot.memberKind = none ∧
    m.snapshot.groupDisplayName = none ∧ m.snapshot.memberDisplayName = none ∧
    m.provenance.versionId = e.provenance.versionId

theorem keptMembership_iff (entry : Option EntryRecord) (m : MembershipRecord) :
    keptMembership entry m = m ↔ Remembered entry m := by
  obtain ⟨⟨⟨groupKey,memberKey,memberSid,edgeKind,memberKind,groupName,memberName⟩,hm⟩,
    ⟨versionId,observedFrom,lastConfirmedAt⟩⟩ := m
  cases entry with
  | none => simp [keptMembership, Remembered, eq_comm]
  | some e =>
    simp only [keptMembership, Remembered, besideEntry, MembershipRecord.mk.injEq,
      MembershipSnapshot.mk.injEq, MembershipFields.mk.injEq, Provenance.mk.injEq, true_and,
      Option.some.injEq, forall_eq']
    tauto

/-- A step is read as it was stored when its membership is. -/
theorem kept_iff (c : RecordedChange) :
    kept c = c ↔ ∀ m, c.membership = some m → Remembered c.entry m := by
  have hfields : kept c = c ↔ c.membership.map (keptMembership c.entry) = c.membership := by
    obtain ⟨c,hc⟩ := c
    rw [RecordedChange.mk.injEq]
    constructor
    · intro h
      exact congrArg RecordedFields.membership h
    · intro h
      show { c with membership := c.membership.map (keptMembership c.entry) } = c
      rw [h]
  rw [hfields]
  cases c.membership with
  | none => simp
  | some m => simp [keptMembership_iff]

end Adg.PlanRecords
