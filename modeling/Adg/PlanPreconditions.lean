import Adg.CampaignReading
import Adg.KeyedTables
import Adg.PlanDigests

/-!
# Preconditions of a plan

A step carries what it was written against. What the record holds of its target
now is read from the timelines, and each step gets one of four verdicts: it is
as it was, it is something else, it is gone, or nobody has looked. A target that
was measured absent is read like one that nobody has looked at.
-/

set_option autoImplicit false

namespace Adg.PlanPreconditions
open Adg.Observation Adg.ObjectVersions Adg.VersionTable Adg.VersionReads Adg.SortedLists
open Adg.CanonicalJson Adg.ChangePlans Adg.PlanDigests
open Adg.ReviewGeneration (ReviewTargetKind ReviewedEntry GrantEvidence ObservedGrant
  GenerationError entryOf observedGrant)
open Adg.DriftReads (ReviewTarget targetObservation grantsOnTargetsAt bucket targetPresenceAt
  coveringAt keysOf)
open Adg.CampaignReading (aceKind)
open Adg.Fallible (bind_ok mapped_ok mapError_ok mapM_succeeds)

inductive PreconditionVerdict where
  | satisfied
  | changed
  | missing
  | unobserved
  deriving DecidableEq, Repr

def PreconditionVerdict.blocksExport (v : PreconditionVerdict) : Bool := v ≠ .satisfied

/-- What the record holds of the target of a step. -/
structure ObservedState where
  targetObserved : Bool
  entry : Option EntrySnapshot := none
  membershipPresent : Option Bool := none
  lastObservedAt : Option Instant := none

structure PreconditionDetail where
  targetKind : ChangeTargetKind
  targetKey : String
  principalSid : String
  lastObservedAt : Option Instant
  differences : List (String × Json × Json) := []

structure ChangePrecondition where
  changeId : ℕ
  sequenceIndex : ℤ
  verdict : PreconditionVerdict
  expectedDigest : String
  observedDigest : Option String
  summary : String
  detail : PreconditionDetail

/-! ### The verdict of one step -/

/-- `_differences`. -/
def differences (expected observed : EntryFields) : List (String × Json × Json) :=
  ((entryDocument expected).zip (entryDocument observed)).filterMap fun p =>
    if p.1.2 = p.2.2 then none else some (p.1.1,p.1.2,p.2.2)

/-- `_render`. -/
def renderValue : Json → String
  | .whole n => hexMask n
  | .null => "unset"
  | .text s => s
  | other => canonical other

/-- `_changed_sentence`. -/
def changedSentence (expected observed : EntryFields) : String :=
  let parts := (differences expected observed).map fun d =>
    s!"{d.1} was {renderValue d.2.1} and is now {renderValue d.2.2}"
  if parts = [] then
    s!"Entry {observed.aceKey} no longer matches what the plan was written against."
  else
    let edits := String.intercalate ", " parts
    s!"Entry {observed.aceKey} has been edited since the plan was written: {edits}. The change described here would act on an entry nobody reviewed."

section Verdict
variable (sha256 : String → String)

/-- `_entry_verdict`. -/
def entryVerdict (c : PlannedChange) (entry : EntrySnapshot) (observed : ObservedState) :
    PreconditionVerdict × Option String × String × List (String × Json × Json) :=
  match observed.entry with
  | none => (.missing,none,
      s!"Entry {entry.aceKey} is no longer on {orElseText c.targetDisplay c.targetKey}. Either the change has already been made or something else was. A plan is not shortened on that assumption: confirm what happened and write a plan against current state.",
      [])
  | some current =>
    let digest := entryDigest sha256 current.toEntryFields
    if digest = preconditionDigest sha256 c.toChangeFields then
      (.satisfied,some digest,
        s!"Entry {current.aceKey} is exactly as it was when the plan was written.",[])
    else
      (.changed,some digest,changedSentence entry.toEntryFields current.toEntryFields,
        differences entry.toEntryFields current.toEntryFields)

/-- `_membership_verdict`. -/
def membershipVerdict (c : PlannedChange) (edge : MembershipSnapshot) (observed : ObservedState) :
    PreconditionVerdict × Option String × String × List (String × Json × Json) :=
  let member := orElseText edge.memberDisplayName edge.memberKey
  let group := orElseText edge.groupDisplayName edge.groupKey
  if observed.membershipPresent = some true then
    (.satisfied,some (preconditionDigest sha256 c.toChangeFields),
      s!"{member} is still a member of {group}.",[])
  else
    (.missing,none,
      s!"{member} is no longer a member of {group}. Somebody has removed the membership since this plan was written.",
      [])

/-- What is said of a target that is not observed. -/
def unobservedVerdict (c : PlannedChange) :
    PreconditionVerdict × Option String × String × List (String × Json × Json) :=
  (.unobserved,none,
    s!"ADG holds no current reading of {orElseText c.targetDisplay c.targetKey}. This is not evidence that the change has been made — it is evidence that nobody has looked. Collect the target and re-check before exporting.",
    [])

/-- `evaluate_change`. A step carries an entry or an edge. -/
def evaluateChange (c : PlannedChange) (observed : ObservedState) : ChangePrecondition :=
  let said :=
    if observed.targetObserved = false then unobservedVerdict c
    else match c.entry, c.membership with
      | some entry, _ => entryVerdict sha256 c entry observed
      | none, some edge => membershipVerdict sha256 c edge observed
      | none, none => unobservedVerdict c
  { changeId := c.changeId
    sequenceIndex := c.sequenceIndex
    verdict := said.1
    expectedDigest := preconditionDigest sha256 c.toChangeFields
    observedDigest := said.2.1
    summary := said.2.2.1
    detail :=
      { targetKind := c.targetKind
        targetKey := c.targetKey
        principalSid := c.principalSid
        lastObservedAt := observed.lastObservedAt
        differences := said.2.2.2 } }

/-- What stands for a step that has no reading. -/
def nothingObserved : ObservedState := { targetObserved := false }

/-- `evaluate_plan`, the preconditions of the report. -/
def evaluatePlan (changes : List PlannedChange) (observations : ℕ → Option ObservedState) :
    List ChangePrecondition :=
  (inOrder changes).map fun c =>
    evaluateChange sha256 c ((observations c.changeId).getD nothingObserved)

end Verdict

/-- `PreconditionReport.satisfied`. -/
def satisfied (preconditions : List ChangePrecondition) : Bool :=
  !preconditions.any fun p => p.verdict.blocksExport

/-! ### What is observed -/

/-- A stored entry that is no record, or one that no snapshot can hold. -/
inductive ReadError where
  | generation (error : GenerationError)
  | refused (error : DomainError)
  deriving DecidableEq

/-- The fields `_snapshot` copies. -/
def entryFields (e : ReviewedEntry) : EntryFields where
  aceKey := e.aceKey
  trusteeSid := e.trusteeSid
  trusteeKey := e.trusteeKey
  aceType := e.aceType
  accessMask := e.accessMask
  permission := e.permission
  aceFlags := e.aceFlags
  source := e.source
  inheritedFrom := e.inheritedFrom
  orderIndex := e.orderIndex

/-- `_snapshot`. -/
def snapshot (e : ReviewedEntry) : Except DomainError EntrySnapshot :=
  match h : checkEntry (entryFields e) with
  | .ok () => .ok ⟨entryFields e,h⟩
  | .error error => .error error

/-- The target of the entry of a step. -/
def reviewTarget (c : ChangeFields) : ReviewTarget where
  kind := if c.targetKind = .share then .share else .resource
  key := c.targetKey

def entryTargets (changes : List PlannedChange) : List ReviewTarget :=
  (changes.filter (·.entry.isSome)).map fun c => reviewTarget c.toChangeFields

def groupKeys (changes : List PlannedChange) : List String :=
  (changes.filterMap (·.membership)).map (·.groupKey)

section Reading
variable (t : Table) (moment : Instant)

/-- `_current_members`, of one of the groups. -/
def currentMembers (keys : List String) (group : String) : List String :=
  (containedAt t .membershipEdge keys moment).filterMap fun v =>
    if v.containerKey = some group then v.relatedKey else none

/-- `_observed_groups`. -/
def observedGroups (keys : List String) : List String :=
  (coveringAt t moment .principal keys).map (·.key)

/-- The entry of a target that has a key. -/
def entryOn (grants : List ObservedGrant) (target : ReviewTarget) (aceKey : String) :
    Option ObservedGrant :=
  (bucket grants target).find? fun g => g.evidence.entry.aceKey = aceKey

/-- The entry that was found, as it stands. -/
def currentEntry : Option ObservedGrant → Except DomainError (Option EntrySnapshot)
  | none => .ok none
  | some g => (snapshot g.evidence.entry).map some

/-- What `observed_state` holds for one of the steps. -/
def stateOf (changes : List PlannedChange) (grants : List ObservedGrant) (c : PlannedChange) :
    Except DomainError ObservedState :=
  match c.entry, c.membership with
  | some entry, _ =>
    let found := entryOn grants (reviewTarget c.toChangeFields) entry.aceKey
    (currentEntry found).map fun current => {
      targetObserved := (targetPresenceAt t moment (entryTargets changes)
        (reviewTarget c.toChangeFields)).any (·.isPresent)
      entry := current
      lastObservedAt := found.map (·.evidence.lastConfirmedAt) }
  | none, some edge => .ok {
      targetObserved := edge.groupKey ∈ observedGroups t moment (groupKeys changes)
      membershipPresent := some (edge.memberKey ∈
        currentMembers t moment (groupKeys changes) edge.groupKey) }
  | none, none => .ok nothingObserved

/-- `observed_state`. -/
def observedState (changes : List PlannedChange) :
    Except ReadError (List (ℕ × ObservedState)) := do
  let grants ← (grantsOnTargetsAt t moment (entryTargets changes)).mapError .generation
  changes.mapM fun c =>
    ((stateOf t moment changes grants c).mapError .refused).map fun state => (c.changeId,state)

end Reading

/-- A dictionary that was written in order: the last value of a key stays. -/
def dictionary (states : List (ℕ × ObservedState)) (changeId : ℕ) : Option ObservedState :=
  states.reverse.lookup changeId

/-! ### What a verdict says -/

/-- Timelines whose versions do not overlap at an instant and whose entries are records. -/
structure Readable (t : Table) (moment : Instant) : Prop where
  once : ∀ v ∈ t.rows, ∀ w ∈ t.rows, v.object = w.object → v.covers moment = true →
    w.covers moment = true → v = w
  entries : ∀ kind, ∀ v ∈ answering t moment, v.kind = aceKind kind →
    ∃ key e, entryOf kind v.versionId v.state = .ok (key,e) ∧ v.containerKey = some key ∧
      v.key = e.aceKey ∧ checkEntry (entryFields e) = .ok ()

section Standing
variable (t : Table) (moment : Instant)

/-- The object a step acts on. -/
def targetObject (c : ChangeFields) : Object :=
  match c.entry, c.membership with
  | none, some edge => (.principal,edge.groupKey)
  | _, _ => (targetObservation (reviewTarget c).kind,c.targetKey)

def Covered (object : Object) : Prop :=
  ∃ v ∈ t.rows, v.covers moment = true ∧ v.object = object

def Present (object : Object) : Prop :=
  ∃ v ∈ t.rows, v.covers moment = true ∧ v.object = object ∧ v.isPresent = true

/-- A tombstone covers the instant. -/
def Gone (object : Object) : Prop :=
  ∃ v ∈ t.rows, v.covers moment = true ∧ v.object = object ∧ v.isPresent = false

/-- An entry with these fields is on a target. -/
def Carries (target : ReviewTarget) (f : EntryFields) : Prop :=
  ∃ v ∈ answering t moment, v.kind = aceKind target.kind ∧
    v.containerKey = some target.key ∧
    ∃ key e, entryOf target.kind v.versionId v.state = .ok (key,e) ∧ entryFields e = f

/-- Some membership stands between a group and a member. -/
def Joined (edge : MembershipFields) : Prop :=
  ∃ v ∈ answering t moment, v.kind = .membershipEdge ∧ v.containerKey = some edge.groupKey ∧
    v.relatedKey = some edge.memberKey

/-- The membership itself stands: the kind of an edge is part of what it is. -/
def EdgePresent (edge : MembershipFields) : Prop :=
  ∃ v ∈ answering t moment, v.kind = .membershipEdge ∧ v.containerKey = some edge.groupKey ∧
    v.relatedKey = some edge.memberKey ∧
    v.state.bind (·.lookup "edge_kind") = some (.text edge.edgeKind.value)

/-- What a step was written against is there as it was. -/
def AsFrozen (c : ChangeFields) : Prop :=
  match c.entry, c.membership with
  | none, some edge => EdgePresent t moment edge.toMembershipFields
  | some entry, _ => Carries t moment (reviewTarget c) entry.toEntryFields
  | none, none => False

/-- The entry of a step is there with other content. -/
def Otherwise (c : ChangeFields) : Prop :=
  ∃ entry, c.entry = some entry ∧ ∃ f, f.aceKey = entry.aceKey ∧ f ≠ entry.toEntryFields ∧
    Carries t moment (reviewTarget c) f

/-- The verdicts that a step may get, each exactly where it is true. -/
structure Classified (c : ChangeFields) (verdict : PreconditionVerdict) : Prop where
  satisfied : verdict = .satisfied ↔ Present t moment (targetObject c) ∧ AsFrozen t moment c
  changed : verdict = .changed ↔ Present t moment (targetObject c) ∧ Otherwise t moment c
  missing : verdict = .missing ↔ Gone t moment (targetObject c) ∨
    (Present t moment (targetObject c) ∧ ¬ AsFrozen t moment c ∧ ¬ Otherwise t moment c)
  unobserved : verdict = .unobserved ↔ ¬ Covered t moment (targetObject c)

/-- A tombstone and a missing version can be told apart for a step: the target of its entry
was not measured absent, or its group was and nobody is a member, and the edge that stands
is the one it names. -/
def ToldApart (c : ChangeFields) : Prop :=
  match c.entry, c.membership with
  | none, some edge =>
    (Gone t moment (targetObject c) → ¬ Joined t moment edge.toMembershipFields) ∧
      (Present t moment (targetObject c) → Joined t moment edge.toMembershipFields →
        EdgePresent t moment edge.toMembershipFields)
  | _, _ => ¬ Gone t moment (targetObject c)

end Standing

/-- The verdict a report gives a step. -/
def verdictIn (preconditions : List ChangePrecondition) (c : ChangeFields) :
    Option PreconditionVerdict :=
  (preconditions.find? fun p => p.changeId = c.changeId).map (·.verdict)

/-- Every step of a plan gets the verdict that is true of it. -/
def ReportExact (t : Table) (moment : Instant) (changes : List PlannedChange)
    (preconditions : List ChangePrecondition) : Prop :=
  ∀ c ∈ changes, ∃ verdict, verdictIn preconditions c.toChangeFields = some verdict ∧
    Classified t moment c.toChangeFields verdict

/-! ### What the reads find -/

section Found
variable {t : Table} {moment : Instant} {targets : List ReviewTarget} {target : ReviewTarget}

theorem presence_found {v : ObjectVersion}
    (h : targetPresenceAt t moment targets target = some v) :
    v ∈ t.rows ∧ v.covers moment = true ∧
      v.object = (targetObservation target.kind,target.key) := by
  have hkey := List.find?_some h
  have hread := asDict_subset _ (List.mem_of_find?_eq_some h)
  unfold coveringAt at hread
  rw [mem_sortedBy, List.mem_filter] at hread
  simp only [Bool.and_eq_true, decide_eq_true_eq] at hread hkey
  exact ⟨hread.1,hread.2.1,Prod.ext hread.2.2.1 hkey⟩

/-- A target is read as there exactly when it is. -/
theorem presence_iff (hread : Readable t moment) (hin : target ∈ targets) :
    (targetPresenceAt t moment targets target).any (·.isPresent) = true ↔
      Present t moment (targetObservation target.kind,target.key) := by
  rw [Option.any_eq_true]
  constructor
  · rintro ⟨v,hv,hpresent⟩
    obtain ⟨hrow,hcovers,hobject⟩ := presence_found hv
    exact ⟨v,hrow,hcovers,hobject,hpresent⟩
  · rintro ⟨v,hv,hcovers,hobject,hpresent⟩
    have hcovered : DriftReads.Covered t moment target :=
      ⟨v,hv,hcovers,congrArg Prod.fst hobject,congrArg Prod.snd hobject⟩
    obtain ⟨w,hw⟩ := Option.isSome_iff_exists.mp (DriftReads.presence_covered hin hcovered)
    obtain ⟨hrow,hwcovers,hwobject⟩ := presence_found hw
    obtain rfl := hread.once v hv w hrow (hobject.trans hwobject.symm) hcovers hwcovers
    exact ⟨v,hw,hpresent⟩

theorem mem_keysOf {kind : ReviewTargetKind} {key : String} :
    key ∈ keysOf kind targets ↔ ⟨kind,key⟩ ∈ targets := by
  unfold keysOf
  rw [List.mem_map]
  constructor
  · rintro ⟨target,htarget,rfl⟩
    obtain ⟨hin,hkind⟩ := List.mem_filter.mp htarget
    obtain rfl := of_decide_eq_true hkind
    exact hin
  · intro hin
    exact ⟨⟨kind,key⟩,List.mem_filter.mpr ⟨hin,by simp⟩,rfl⟩

theorem mem_containedAt {kind : ObservationKind} {keys : List String} {v : ObjectVersion} :
    v ∈ containedAt t kind keys moment ↔
      v ∈ answering t moment ∧ v.kind = kind ∧ ∃ key ∈ keys, v.containerKey = some key := by
  unfold containedAt
  rw [mem_select]
  simp only [Bool.and_eq_true, decide_eq_true_eq, Option.any_eq_true]
  constructor
  · rintro ⟨hv,hkind,key,hkey,hin⟩
    exact ⟨hv,hkind,key,hin,hkey⟩
  · rintro ⟨hv,hkind,key,hin,hkey⟩
    exact ⟨hv,hkind,key,hkey,hin⟩

/-- What a grant keeps of the version it is made from. -/
theorem observedGrant_ok {kind : ReviewTargetKind} {paths : List (String × Option String)}
    {v : ObjectVersion} {g : ObservedGrant} (h : observedGrant kind moment paths v = .ok g) :
    g.targetKind = kind ∧
      entryOf kind v.versionId v.state = .ok (g.targetKey,g.evidence.entry) := by
  obtain ⟨⟨key,e⟩,hentry,h⟩ := bind_ok.mp h
  obtain rfl := Except.ok.inj h
  exact ⟨rfl,hentry⟩

/-- The entries on targets of one kind are read, each from one version. -/
theorem entries_read (hread : Readable t moment) (kind : ReviewTargetKind)
    (paths : List (String × Option String)) (keys : List String) :
    ∃ grants, (containedAt t (aceKind kind) keys moment).mapM (observedGrant kind moment paths) =
        .ok grants ∧
      (∀ g ∈ grants, g.targetKind = kind) ∧ ∀ key ∈ keys, ∀ e,
        (∃ g ∈ grants, g.targetKey = key ∧ g.evidence.entry = e) ↔
          ∃ v ∈ answering t moment, v.kind = aceKind kind ∧ v.containerKey = some key ∧
            ∃ target, entryOf kind v.versionId v.state = .ok (target,e) := by
  have heach : ∀ v ∈ containedAt t (aceKind kind) keys moment,
      ∃ g, observedGrant kind moment paths v = .ok g := by
    intro v hv
    obtain ⟨hanswers,hkind,-⟩ := mem_containedAt.mp hv
    obtain ⟨key,e,hentry,-⟩ := hread.entries kind v hanswers hkind
    exact ⟨_,bind_ok.mpr ⟨(key,e),hentry,rfl⟩⟩
  obtain ⟨grants,hgrants,hmem⟩ := mapM_succeeds heach
  refine ⟨grants,hgrants,?_,?_⟩
  · intro g hg
    obtain ⟨v,-,hv⟩ := (hmem g).mp hg
    exact (observedGrant_ok hv).1
  · intro key hkey e
    constructor
    · rintro ⟨g,hg,rfl,rfl⟩
      obtain ⟨v,hv,hmade⟩ := (hmem g).mp hg
      obtain ⟨hanswers,hkind,-⟩ := mem_containedAt.mp hv
      have hentry := (observedGrant_ok hmade).2
      obtain ⟨target,e,hread,hcontainer,-⟩ := hread.entries kind v hanswers hkind
      obtain ⟨rfl,-⟩ := Prod.mk.inj (Except.ok.inj (hentry.symm.trans hread))
      exact ⟨v,hanswers,hkind,hcontainer,_,hentry⟩
    · rintro ⟨v,hanswers,hkind,hcontainer,target,hentry⟩
      obtain ⟨_,_,hagain,hkept,-⟩ := hread.entries kind v hanswers hkind
      obtain ⟨rfl,-⟩ := Prod.mk.inj (Except.ok.inj (hentry.symm.trans hagain))
      have hv := mem_containedAt.mpr ⟨hanswers,hkind,key,hkey,hcontainer⟩
      obtain ⟨g,hg⟩ := heach v hv
      obtain ⟨htarget,hsame⟩ := Prod.mk.inj
        (Except.ok.inj ((observedGrant_ok hg).2.symm.trans hentry))
      refine ⟨g,(hmem g).mpr ⟨v,hv,hg⟩,?_,hsame⟩
      rw [htarget]
      exact Option.some.inj (hkept.symm.trans hcontainer)

/-- The entries of all targets are read, and the bucket of a target has those that are on it. -/
theorem grants_read (hread : Readable t moment) (targets : List ReviewTarget) :
    ∃ grants, grantsOnTargetsAt t moment targets = .ok grants ∧ ∀ target ∈ targets, ∀ e,
      (∃ g ∈ bucket grants target, g.evidence.entry = e) ↔
        ∃ v ∈ answering t moment, v.kind = aceKind target.kind ∧
          v.containerKey = some target.key ∧
            ∃ key, entryOf target.kind v.versionId v.state = .ok (key,e) := by
  obtain ⟨onShares,hshares,hshareKind,hshareEntries⟩ := entries_read hread .share
    (ReviewGeneration.pathsOf ReviewGeneration.sharePath
      (versionsAt t .smbShare ((keysOf .share targets).filter (· ≠ "")) moment))
    (keysOf .share targets)
  obtain ⟨onResources,hresources,hresourceKind,hresourceEntries⟩ := entries_read hread .resource
    (ReviewGeneration.pathsOf ReviewGeneration.resourcePath
      (versionsAt t .ntfsResource ((keysOf .resource targets).filter (· ≠ "")) moment))
    (keysOf .resource targets)
  refine ⟨onShares ++ onResources,
    bind_ok.mpr ⟨onShares,hshares,bind_ok.mpr ⟨onResources,hresources,rfl⟩⟩,?_⟩
  rintro ⟨kind,key⟩ hin e
  have hbucket : ∀ g, g ∈ bucket (onShares ++ onResources) ⟨kind,key⟩ ↔
      (g ∈ onShares ∨ g ∈ onResources) ∧ g.targetKind = kind ∧ g.targetKey = key := by
    intro g
    unfold bucket
    rw [mem_sortedBy, List.mem_filter, List.mem_append]
    simp
  have hkey := mem_keysOf.mpr hin
  cases kind with
  | share =>
    rw [← hshareEntries key hkey e]
    constructor
    · rintro ⟨g,hg,he⟩
      obtain ⟨hg,hkind,htarget⟩ := (hbucket g).mp hg
      rcases hg with hg | hg
      · exact ⟨g,hg,htarget,he⟩
      · rw [hresourceKind g hg] at hkind
        cases hkind
    · rintro ⟨g,hg,htarget,he⟩
      exact ⟨g,(hbucket g).mpr ⟨.inl hg,hshareKind g hg,htarget⟩,he⟩
  | resource =>
    rw [← hresourceEntries key hkey e]
    constructor
    · rintro ⟨g,hg,he⟩
      obtain ⟨hg,hkind,htarget⟩ := (hbucket g).mp hg
      rcases hg with hg | hg
      · rw [hshareKind g hg] at hkind
        cases hkind
      · exact ⟨g,hg,htarget,he⟩
    · rintro ⟨g,hg,htarget,he⟩
      exact ⟨g,(hbucket g).mpr ⟨.inr hg,hresourceKind g hg,htarget⟩,he⟩

/-- Two entries of one key on one target are one. -/
theorem carries_once (hread : Readable t moment) {f f' : EntryFields}
    (hf : Carries t moment target f) (hf' : Carries t moment target f')
    (hkey : f.aceKey = f'.aceKey) : f = f' := by
  obtain ⟨v,hv,hkind,-,key,e,he,rfl⟩ := hf
  obtain ⟨w,hw,hwkind,-,key',e',he',rfl⟩ := hf'
  obtain ⟨_,_,hr,-,hvkey,-⟩ := hread.entries _ v hv hkind
  obtain ⟨_,_,hr',-,hwkey,-⟩ := hread.entries _ w hw hwkind
  obtain ⟨-,rfl⟩ := Prod.mk.inj (Except.ok.inj (he.symm.trans hr))
  obtain ⟨-,rfl⟩ := Prod.mk.inj (Except.ok.inj (he'.symm.trans hr'))
  obtain ⟨hvrow,hvcovers⟩ := List.mem_filter.mp hv
  obtain ⟨hwrow,hwcovers⟩ := List.mem_filter.mp hw
  have hobject : v.object = w.object :=
    Prod.ext (hkind.trans hwkind.symm) (hvkey.trans (hkey.trans hwkey.symm))
  obtain rfl := hread.once v hvrow w hwrow hobject (Bool.and_eq_true_iff.mp hvcovers).1
    (Bool.and_eq_true_iff.mp hwcovers).1
  obtain ⟨-,rfl⟩ := Prod.mk.inj (Except.ok.inj (he.symm.trans he'))
  rfl

/-- A target that a version covers is there or gone, and not both. -/
theorem covered_iff {object : Object} :
    Covered t moment object ↔ Present t moment object ∨ Gone t moment object := by
  constructor
  · rintro ⟨v,hv,hcovers,hobject⟩
    cases hpresent : v.isPresent with
    | true => exact .inl ⟨v,hv,hcovers,hobject,hpresent⟩
    | false => exact .inr ⟨v,hv,hcovers,hobject,hpresent⟩
  · rintro (⟨v,hv,hcovers,hobject,-⟩ | ⟨v,hv,hcovers,hobject,-⟩)
    · exact ⟨v,hv,hcovers,hobject⟩
    · exact ⟨v,hv,hcovers,hobject⟩

theorem not_gone (hread : Readable t moment) {object : Object} (h : Present t moment object) :
    ¬ Gone t moment object := by
  obtain ⟨v,hv,hcovers,hobject,hpresent⟩ := h
  rintro ⟨w,hw,hwcovers,hwobject,hgone⟩
  obtain rfl := hread.once v hv w hw (hobject.trans hwobject.symm) hcovers hwcovers
  rw [hpresent] at hgone
  cases hgone

end Found

/-! ### The state of a step -/

section States
variable {t : Table} {moment : Instant} {changes : List PlannedChange} {c : PlannedChange}

theorem snapshot_of_checked {e : ReviewedEntry} (h : checkEntry (entryFields e) = .ok ()) :
    ∃ s, snapshot e = .ok s ∧ s.toEntryFields = entryFields e := by
  unfold snapshot
  split
  next hchecked => exact ⟨_,rfl,rfl⟩
  next error herror =>
    rw [h] at herror
    cases herror

theorem targetObject_of_entry {entry : EntrySnapshot} (he : c.entry = some entry) :
    targetObject c.toChangeFields = (targetObservation (reviewTarget c.toChangeFields).kind,
      (reviewTarget c.toChangeFields).key) := by
  unfold targetObject
  rw [he]
  rfl

/-- A step without an entry acts on a membership. -/
theorem edge_of_no_entry (hn : c.entry = none) : ∃ edge, c.membership = some edge := by
  by_cases hk : c.kind = .removeGroupMember
  · obtain ⟨-,edge,hedge,-⟩ := c.edge_of_removal hk
    exact ⟨edge,hedge⟩
  · obtain ⟨entry,hentry⟩ := c.entry_of_other hk
    rw [hn] at hentry
    cases hentry

/-- The state of a step on an entry: whether its target is there, and what stands under
the key of the entry. -/
structure ReadsEntry (t : Table) (moment : Instant) (c : PlannedChange) (entry : EntrySnapshot)
    (state : ObservedState) : Prop where
  target : state.targetObserved = true ↔ Present t moment (targetObject c.toChangeFields)
  entry : ∀ f, (∃ s, state.entry = some s ∧ s.toEntryFields = f) ↔
    Carries t moment (reviewTarget c.toChangeFields) f ∧ f.aceKey = entry.aceKey

theorem state_of_entry (hread : Readable t moment) {grants : List ObservedGrant}
    (hgrants : ∀ target ∈ entryTargets changes, ∀ e,
      (∃ g ∈ bucket grants target, g.evidence.entry = e) ↔
        ∃ v ∈ answering t moment, v.kind = aceKind target.kind ∧
          v.containerKey = some target.key ∧
            ∃ key, entryOf target.kind v.versionId v.state = .ok (key,e))
    (hc : c ∈ changes) {entry : EntrySnapshot} (he : c.entry = some entry) :
    ∃ state, stateOf t moment changes grants c = .ok state ∧
      ReadsEntry t moment c entry state := by
  have hin : reviewTarget c.toChangeFields ∈ entryTargets changes := by
    apply List.mem_map.mpr
    exact ⟨c,List.mem_filter.mpr ⟨hc,by rw [he]; rfl⟩,rfl⟩
  have htarget := presence_iff hread hin
  rw [← targetObject_of_entry he] at htarget
  have hbucket := hgrants _ hin
  have hstate : ∀ current,
      currentEntry (entryOn grants (reviewTarget c.toChangeFields) entry.aceKey) = .ok current →
      ∃ state, stateOf t moment changes grants c = .ok state ∧ state.entry = current ∧
        (state.targetObserved = true ↔ Present t moment (targetObject c.toChangeFields)) := by
    intro current hcurrent
    unfold stateOf
    rw [he]
    exact ⟨_,mapped_ok.mpr ⟨current,hcurrent,rfl⟩,rfl,htarget⟩
  cases hfound : entryOn grants (reviewTarget c.toChangeFields) entry.aceKey with
  | none =>
    obtain ⟨state,hok,hentry,hobserved⟩ := hstate none (by rw [hfound]; rfl)
    refine ⟨state,hok,hobserved,fun f => ?_⟩
    rw [hentry]
    constructor
    · rintro ⟨s,hs,-⟩
      cases hs
    · rintro ⟨⟨v,hv,hkind,hcontainer,key,e,hentry,rfl⟩,hkey⟩
      obtain ⟨g,hg,rfl⟩ := (hbucket e).mpr ⟨v,hv,hkind,hcontainer,key,hentry⟩
      have hnot := List.find?_eq_none.mp hfound g hg
      rw [decide_eq_true_eq] at hnot
      exact absurd hkey hnot
  | some g =>
    have hg := List.mem_of_find?_eq_some hfound
    have hkey : g.evidence.entry.aceKey = entry.aceKey := by
      simpa using List.find?_some hfound
    obtain ⟨v,hv,hkind,hcontainer,key,hentry⟩ := (hbucket _).mp ⟨g,hg,rfl⟩
    have hcarries : Carries t moment (reviewTarget c.toChangeFields)
        (entryFields g.evidence.entry) := ⟨v,hv,hkind,hcontainer,key,_,hentry,rfl⟩
    obtain ⟨_,_,hagain,-,-,hchecked⟩ := hread.entries _ v hv hkind
    obtain ⟨-,rfl⟩ := Prod.mk.inj (Except.ok.inj (hentry.symm.trans hagain))
    obtain ⟨s,hs,hfields⟩ := snapshot_of_checked hchecked
    obtain ⟨state,hok,hstated,hobserved⟩ := hstate (some s)
      (by rw [hfound]; exact mapped_ok.mpr ⟨s,hs,rfl⟩)
    refine ⟨state,hok,hobserved,fun f => ?_⟩
    rw [hstated]
    constructor
    · rintro ⟨s',hs',rfl⟩
      obtain rfl := Option.some.inj hs'
      rw [hfields]
      exact ⟨hcarries,hkey⟩
    · rintro ⟨hf,hfkey⟩
      refine ⟨s,rfl,?_⟩
      rw [hfields]
      exact carries_once hread hcarries hf (hkey.trans hfkey.symm)

/-- The state of a step on a membership: whether any version of its group is there, and
whether some membership stands. -/
structure ReadsEdge (t : Table) (moment : Instant) (c : PlannedChange) (edge : MembershipSnapshot)
    (state : ObservedState) : Prop where
  target : state.targetObserved = true ↔ Covered t moment (targetObject c.toChangeFields)
  joined : state.membershipPresent = some true ↔ Joined t moment edge.toMembershipFields

theorem state_of_edge (grants : List ObservedGrant) (hc : c ∈ changes) (hn : c.entry = none)
    {edge : MembershipSnapshot} (he : c.membership = some edge) :
    ∃ state, stateOf t moment changes grants c = .ok state ∧ ReadsEdge t moment c edge state := by
  have hkey : edge.groupKey ∈ groupKeys changes :=
    List.mem_map.mpr ⟨edge,List.mem_filterMap.mpr ⟨c,hc,he⟩,rfl⟩
  have hobject : targetObject c.toChangeFields = (.principal,edge.groupKey) := by
    unfold targetObject
    rw [hn, he]
  unfold stateOf
  rw [hn, he]
  refine ⟨_,rfl,?_,?_⟩
  · rw [hobject, decide_eq_true_eq]
    unfold observedGroups coveringAt
    rw [List.mem_map]
    constructor
    · rintro ⟨v,hv,hvkey⟩
      rw [mem_sortedBy, List.mem_filter] at hv
      simp only [Bool.and_eq_true, decide_eq_true_eq] at hv
      exact ⟨v,hv.1,hv.2.1,Prod.ext hv.2.2.1 hvkey⟩
    · rintro ⟨v,hv,hcovers,hv'⟩
      obtain ⟨hkind,hvkey⟩ := Prod.mk.inj hv'
      refine ⟨v,?_,hvkey⟩
      rw [mem_sortedBy, List.mem_filter]
      simp only [Bool.and_eq_true, decide_eq_true_eq]
      exact ⟨hv,hcovers,hkind,hvkey ▸ hkey⟩
  · rw [Option.some.injEq, decide_eq_true_eq]
    unfold currentMembers
    rw [List.mem_filterMap]
    constructor
    · rintro ⟨v,hv,hmember⟩
      obtain ⟨hanswers,hkind,-⟩ := mem_containedAt.mp hv
      split_ifs at hmember with hgroup
      exact ⟨v,hanswers,hkind,hgroup,hmember⟩
    · rintro ⟨v,hanswers,hkind,hgroup,hmember⟩
      refine ⟨v,mem_containedAt.mpr ⟨hanswers,hkind,_,hkey,hgroup⟩,?_⟩
      rw [if_pos hgroup]
      exact hmember

/-! ### The verdicts -/

variable {sha256 : String → String}

theorem verdict_unobserved {state : ObservedState} (h : ¬ state.targetObserved = true) :
    (evaluateChange sha256 c state).verdict = .unobserved := by
  unfold evaluateChange
  rw [if_pos (Bool.not_eq_true _ ▸ h)]
  rfl

theorem verdict_of_entry (collisionFree : Function.Injective sha256) {entry : EntrySnapshot}
    (he : c.entry = some entry) {state : ObservedState} (h : state.targetObserved = true) :
    (evaluateChange sha256 c state).verdict = match state.entry with
      | none => .missing
      | some s => if s.toEntryFields = entry.toEntryFields then .satisfied else .changed := by
  have hexpected : preconditionDigest sha256 c.toChangeFields =
      entryDigest sha256 entry.toEntryFields := by
    unfold preconditionDigest
    rw [he]
  unfold evaluateChange
  rw [if_neg (by rw [h]; decide), he]
  unfold entryVerdict
  rw [hexpected]
  cases state.entry with
  | none => rfl
  | some s =>
    simp only [entryDigest_iff collisionFree]
    split_ifs <;> rfl

theorem verdict_of_edge (hn : c.entry = none) {edge : MembershipSnapshot}
    (he : c.membership = some edge) {state : ObservedState} (h : state.targetObserved = true) :
    (evaluateChange sha256 c state).verdict =
      if state.membershipPresent = some true then .satisfied else .missing := by
  unfold evaluateChange
  rw [if_neg (by rw [h]; decide), hn, he]
  unfold membershipVerdict
  split_ifs <;> rfl

/-- The verdict of a step on an entry is exact unless its target was measured absent. -/
theorem entry_exact_iff (collisionFree : Function.Injective sha256) (hread : Readable t moment)
    {entry : EntrySnapshot} (he : c.entry = some entry) {state : ObservedState}
    (hstate : ReadsEntry t moment c entry state) :
    Classified t moment c.toChangeFields (evaluateChange sha256 c state).verdict ↔
      ToldApart t moment c.toChangeFields := by
  have htold : ToldApart t moment c.toChangeFields ↔
      ¬ Gone t moment (targetObject c.toChangeFields) := by
    unfold ToldApart
    rw [he]
  have hfrozen : AsFrozen t moment c.toChangeFields ↔
      ∃ s, state.entry = some s ∧ s.toEntryFields = entry.toEntryFields := by
    rw [hstate.entry, and_iff_left rfl]
    unfold AsFrozen
    rw [he]
  have hother : Otherwise t moment c.toChangeFields ↔
      ∃ s, state.entry = some s ∧ s.toEntryFields ≠ entry.toEntryFields := by
    unfold Otherwise
    rw [he]
    constructor
    · rintro ⟨_,hsame,f,hkey,hne,hf⟩
      obtain rfl := Option.some.inj hsame
      obtain ⟨s,hs,rfl⟩ := (hstate.entry f).mpr ⟨hf,hkey⟩
      exact ⟨s,hs,hne⟩
    · rintro ⟨s,hs,hne⟩
      obtain ⟨hf,hkey⟩ := (hstate.entry s.toEntryFields).mp ⟨s,hs,rfl⟩
      exact ⟨entry,rfl,_,hkey,hne,hf⟩
  rw [htold]
  by_cases hpresent : Present t moment (targetObject c.toChangeFields)
  · have hgone := not_gone hread hpresent
    have hcovered := covered_iff.mpr (.inl hpresent)
    have hverdict := verdict_of_entry collisionFree he (hstate.target.mpr hpresent)
    refine iff_of_true ?_ hgone
    rw [hverdict]
    cases hentry : state.entry with
    | none =>
      have hnot : ∀ p : EntrySnapshot → Prop, ¬ ∃ s, state.entry = some s ∧ p s := by
        rintro p ⟨s,hs,-⟩
        rw [hentry] at hs
        cases hs
      have hnf := mt hfrozen.mp (hnot _)
      have hno := mt hother.mp (hnot _)
      exact ⟨by simp [hnf],by simp [hno],by simp [hpresent, hnf, hno],by simp [hcovered]⟩
    | some s =>
      have hsome : ∀ p : EntrySnapshot → Prop,
          (∃ s', state.entry = some s' ∧ p s') ↔ p s := by
        intro p
        rw [hentry]
        constructor
        · rintro ⟨s',hs',hp⟩
          exact Option.some.inj hs' ▸ hp
        · exact fun hp => ⟨s,rfl,hp⟩
      rw [hsome] at hfrozen hother
      by_cases hsame : s.toEntryFields = entry.toEntryFields
      · have hf := hfrozen.mpr hsame
        have hno := mt hother.mp (not_not.mpr hsame)
        exact ⟨by simp [hsame, hpresent, hf],by simp [hsame, hno],by simp [hsame, hgone, hf],
          by simp [hsame, hcovered]⟩
      · have hnf := mt hfrozen.mp hsame
        have ho := hother.mpr hsame
        exact ⟨by simp [hsame, hnf],by simp [hsame, hpresent, ho],by simp [hsame, hgone, ho],
          by simp [hsame, hcovered]⟩
  · rw [verdict_unobserved (mt hstate.target.mp hpresent)]
    have hcovered : Covered t moment (targetObject c.toChangeFields) ↔
        Gone t moment (targetObject c.toChangeFields) := by
      rw [covered_iff, or_iff_right hpresent]
    constructor
    · intro h
      exact mt hcovered.mpr (h.unobserved.mp rfl)
    · intro hgone
      exact ⟨by simp [hpresent],by simp [hpresent],by simp [hpresent, hgone],
        by simp [hcovered, hgone]⟩

/-- The verdict of a step on a membership is exact unless the group was measured absent and
some membership stands, or another one stands than the step names. -/
theorem edge_exact_iff (hread : Readable t moment) (hn : c.entry = none)
    {edge : MembershipSnapshot} (he : c.membership = some edge) {state : ObservedState}
    (hstate : ReadsEdge t moment c edge state) :
    Classified t moment c.toChangeFields (evaluateChange sha256 c state).verdict ↔
      ToldApart t moment c.toChangeFields := by
  have htold : ToldApart t moment c.toChangeFields ↔
      (Gone t moment (targetObject c.toChangeFields) →
        ¬ Joined t moment edge.toMembershipFields) ∧
      (Present t moment (targetObject c.toChangeFields) →
        Joined t moment edge.toMembershipFields →
        EdgePresent t moment edge.toMembershipFields) := by
    unfold ToldApart
    rw [hn, he]
  have hfrozen : AsFrozen t moment c.toChangeFields ↔
      EdgePresent t moment edge.toMembershipFields := by
    unfold AsFrozen
    rw [hn, he]
  have hother : ¬ Otherwise t moment c.toChangeFields := by
    rintro ⟨entry,hentry,-⟩
    rw [hn] at hentry
    cases hentry
  have hjoins : EdgePresent t moment edge.toMembershipFields →
      Joined t moment edge.toMembershipFields := by
    rintro ⟨v,hv,hkind,hgroup,hmember,-⟩
    exact ⟨v,hv,hkind,hgroup,hmember⟩
  rw [htold]
  by_cases hcovered : Covered t moment (targetObject c.toChangeFields)
  · rw [verdict_of_edge hn he (hstate.target.mpr hcovered)]
    rcases covered_iff.mp hcovered with hpresent | hgone
    · have hgone := not_gone hread hpresent
      by_cases hjoined : Joined t moment edge.toMembershipFields
      · rw [if_pos (hstate.joined.mpr hjoined)]
        constructor
        · intro h
          exact ⟨fun h => absurd h hgone,fun _ _ => hfrozen.mp (h.satisfied.mp rfl).2⟩
        · intro h
          have hf := hfrozen.mpr (h.2 hpresent hjoined)
          exact ⟨by simp [hpresent, hf],by simp [hother],by simp [hgone, hf],
            by simp [hcovered]⟩
      · rw [if_neg (mt hstate.joined.mp hjoined)]
        have hnf := mt hfrozen.mp (mt hjoins hjoined)
        refine iff_of_true ?_ ⟨fun _ => hjoined,fun _ h => absurd h hjoined⟩
        exact ⟨by simp [hnf],by simp [hother],by simp [hpresent, hnf, hother],
          by simp [hcovered]⟩
    · have hpresent : ¬ Present t moment (targetObject c.toChangeFields) :=
        fun h => not_gone hread h hgone
      by_cases hjoined : Joined t moment edge.toMembershipFields
      · rw [if_pos (hstate.joined.mpr hjoined)]
        constructor
        · intro h
          exact absurd (h.satisfied.mp rfl).1 hpresent
        · intro h
          exact absurd hjoined (h.1 hgone)
      · rw [if_neg (mt hstate.joined.mp hjoined)]
        refine iff_of_true ?_ ⟨fun _ => hjoined,fun _ h => absurd h hjoined⟩
        exact ⟨by simp [hpresent],by simp [hpresent],by simp [hgone],by simp [hcovered]⟩
  · rw [verdict_unobserved (mt hstate.target.mp hcovered)]
    rw [covered_iff, not_or] at hcovered
    obtain ⟨hpresent,hgone⟩ := hcovered
    refine iff_of_true ?_ ⟨fun h => absurd h hgone,fun h => absurd h hpresent⟩
    exact ⟨by simp [hpresent],by simp [hpresent],by simp [hpresent, hgone],
      by simp [covered_iff, hpresent, hgone]⟩

/-! ### The report -/

/-- A step has its own line in the report. -/
theorem verdictIn_report (hids : (changes.map (·.changeId)).Nodup) (hc : c ∈ changes)
    (observations : ℕ → Option ObservedState) :
    verdictIn (evaluatePlan sha256 changes observations) c.toChangeFields = some
      (evaluateChange sha256 c ((observations c.changeId).getD nothingObserved)).verdict := by
  have hsorted : ((inOrder changes).map (·.changeId)).Nodup :=
    ((inOrder_perm changes).map _).nodup_iff.mpr hids
  have hfind := KeyedTables.find_keyed hsorted ((inOrder_perm changes).mem_iff.mpr hc)
  unfold verdictIn evaluatePlan
  rw [List.find?_map]
  have hsame : ((fun p : ChangePrecondition => decide (p.changeId = c.changeId)) ∘ fun c =>
      evaluateChange sha256 c ((observations c.changeId).getD nothingObserved)) =
      fun d => decide (d.changeId = c.changeId) := rfl
  rw [hsame, hfind]
  rfl

/-- A report is satisfied when every step is, and a step without a reading is not. -/
theorem satisfied_iff (hids : (changes.map (·.changeId)).Nodup)
    (observations : ℕ → Option ObservedState) :
    satisfied (evaluatePlan sha256 changes observations) = true ↔ ∀ c ∈ changes,
      verdictIn (evaluatePlan sha256 changes observations) c.toChangeFields =
        some .satisfied := by
  unfold satisfied
  rw [Bool.not_eq_true', List.any_eq_false]
  constructor
  · intro h c hc
    rw [verdictIn_report hids hc]
    have hc' := List.mem_map_of_mem (f := fun c => evaluateChange sha256 c
      ((observations c.changeId).getD nothingObserved)) ((inOrder_perm changes).mem_iff.mpr hc)
    have hblocks := h _ hc'
    unfold PreconditionVerdict.blocksExport at hblocks
    simpa using hblocks
  · intro h p hp
    obtain ⟨c,hc,rfl⟩ := List.mem_map.mp hp
    have hc := (inOrder_perm changes).mem_iff.mp hc
    have hverdict := h c hc
    rw [verdictIn_report hids hc] at hverdict
    unfold PreconditionVerdict.blocksExport
    simpa using hverdict

theorem dictionary_reads {f : PlannedChange → Except ReadError ObservedState}
    {states : List (ℕ × ObservedState)}
    (h : changes.mapM (fun c => (f c).map fun state => (c.changeId,state)) = .ok states)
    (hids : (changes.map (·.changeId)).Nodup) (hc : c ∈ changes) :
    ∃ state, f c = .ok state ∧ dictionary states c.changeId = some state := by
  have hforall := Fallible.mapM_forall₂.mp h
  have hkeys : states.map (·.1) = changes.map (·.changeId) := by
    clear h hids hc
    induction hforall with
    | nil => rfl
    | cons hone hrest ih =>
      obtain ⟨state,-,rfl⟩ := mapped_ok.mp hone
      rw [List.map_cons, List.map_cons, ih]
  have hin : ∃ state, f c = .ok state ∧ (c.changeId,state) ∈ states := by
    clear h hids hkeys
    induction hforall with
    | nil => cases hc
    | cons hone hrest ih =>
      rcases List.mem_cons.mp hc with rfl | hc
      · obtain ⟨state,hstate,rfl⟩ := mapped_ok.mp hone
        exact ⟨state,hstate,List.mem_cons_self⟩
      · obtain ⟨state,hstate,hmem⟩ := ih hc
        exact ⟨state,hstate,List.mem_cons_of_mem _ hmem⟩
  obtain ⟨state,hstate,hmem⟩ := hin
  refine ⟨state,hstate,(lookup_keyed ?_).mpr (List.mem_reverse.mpr hmem)⟩
  rw [List.map_reverse, List.nodup_reverse, hkeys]
  exact hids

/-- What is observed of a plan, and when its report is exact. -/
theorem report_reads (collisionFree : Function.Injective sha256) (hread : Readable t moment)
    (hids : (changes.map (·.changeId)).Nodup) :
    ∃ states, observedState t moment changes = .ok states ∧
      (ReportExact t moment changes (evaluatePlan sha256 changes (dictionary states)) ↔
        ∀ c ∈ changes, ToldApart t moment c.toChangeFields) := by
  obtain ⟨grants,hgrants,hbucket⟩ := grants_read hread (entryTargets changes)
  have hexact : ∀ c ∈ changes, ∃ state, stateOf t moment changes grants c = .ok state ∧
      (Classified t moment c.toChangeFields (evaluateChange sha256 c state).verdict ↔
        ToldApart t moment c.toChangeFields) := by
    intro c hc
    cases hentry : c.entry with
    | some entry =>
      obtain ⟨state,hstate,hreads⟩ := state_of_entry hread hbucket hc hentry
      exact ⟨state,hstate,entry_exact_iff collisionFree hread hentry hreads⟩
    | none =>
      obtain ⟨edge,hedge⟩ := edge_of_no_entry hentry
      obtain ⟨state,hstate,hreads⟩ := state_of_edge grants hc hentry hedge
      exact ⟨state,hstate,edge_exact_iff hread hentry hedge hreads⟩
  obtain ⟨states,hstates,-⟩ := mapM_succeeds (ε := ReadError)
    (f := fun c => ((stateOf t moment changes grants c).mapError .refused).map fun state =>
      (c.changeId,state)) fun c hc => by
    obtain ⟨state,hstate,-⟩ := hexact c hc
    exact ⟨_,mapped_ok.mpr ⟨state,mapError_ok.mpr hstate,rfl⟩⟩
  refine ⟨states,bind_ok.mpr ⟨grants,mapError_ok.mpr hgrants,hstates⟩,?_⟩
  apply forall₂_congr
  intro c hc
  obtain ⟨state,hstate,hiff⟩ := hexact c hc
  obtain ⟨state',hstate',hlookup⟩ := dictionary_reads hstates hids hc
  obtain rfl := Except.ok.inj (hstate.symm.trans (mapError_ok.mp hstate'))
  rw [verdictIn_report hids hc, hlookup, ← hiff]
  constructor
  · rintro ⟨verdict,hverdict,hclassified⟩
    exact Option.some.inj hverdict ▸ hclassified
  · exact fun h => ⟨_,rfl,h⟩

/-- When the report of a plan is satisfied, the entry of each step is on its target as it was
frozen, and each membership without an entry stands. -/
theorem satisfied_frozen (collisionFree : Function.Injective sha256) (hread : Readable t moment)
    (hids : (changes.map (·.changeId)).Nodup) {states : List (ℕ × ObservedState)}
    (hstates : observedState t moment changes = .ok states)
    (hsatisfied : satisfied (evaluatePlan sha256 changes (dictionary states)) = true)
    (hc : c ∈ changes) :
    (∀ entry, c.entry = some entry →
      Carries t moment (reviewTarget c.toChangeFields) entry.toEntryFields) ∧
    ∀ edge, c.entry = none → c.membership = some edge →
      Joined t moment edge.toMembershipFields := by
  obtain ⟨grants,hgrants,hbucket⟩ := grants_read hread (entryTargets changes)
  obtain ⟨grants',hgrants',hread'⟩ := bind_ok.mp hstates
  obtain rfl := Except.ok.inj (hgrants.symm.trans (mapError_ok.mp hgrants'))
  obtain ⟨state,hstate,hlookup⟩ := dictionary_reads hread' hids hc
  have hstate := mapError_ok.mp hstate
  have hverdict := (satisfied_iff hids _).mp hsatisfied c hc
  rw [verdictIn_report hids hc, hlookup] at hverdict
  have hverdict : (evaluateChange sha256 c state).verdict = .satisfied := Option.some.inj hverdict
  have hobserved : state.targetObserved = true := by
    by_contra hnot
    rw [verdict_unobserved hnot] at hverdict
    cases hverdict
  constructor
  · intro entry he
    obtain ⟨state',hstate',hreads⟩ := state_of_entry hread hbucket hc he
    obtain rfl := Except.ok.inj (hstate.symm.trans hstate')
    rw [verdict_of_entry collisionFree he hobserved] at hverdict
    cases hentry : state.entry with
    | none =>
      rw [hentry] at hverdict
      cases hverdict
    | some current =>
      rw [hentry] at hverdict
      dsimp only at hverdict
      split_ifs at hverdict with hsame
      exact ((hreads.entry entry.toEntryFields).mp ⟨current,hentry,hsame⟩).1
  · intro edge hn he
    obtain ⟨state',hstate',hreads⟩ := state_of_edge grants hc hn he
    obtain rfl := Except.ok.inj (hstate.symm.trans hstate')
    rw [verdict_of_edge hn he hobserved] at hverdict
    split_ifs at hverdict with hpresent
    exact hreads.joined.mp hpresent

end States

/-- A report is satisfied exactly when every step is, a step that was not read is
unobserved, and what is read gives every step the verdict that is true of it exactly when
a tombstone and a missing version can be told apart for each. -/
theorem verdicts_exact_iff {sha256 : String → String}
    (collisionFree : Function.Injective sha256) {t : Table} {moment : Instant}
    (hread : Readable t moment) {changes : List PlannedChange}
    (hids : (changes.map (·.changeId)).Nodup) :
    (∀ observations : ℕ → Option ObservedState,
      (satisfied (evaluatePlan sha256 changes observations) = true ↔ ∀ c ∈ changes,
        verdictIn (evaluatePlan sha256 changes observations) c.toChangeFields =
          some .satisfied) ∧
      ∀ c ∈ changes, observations c.changeId = none →
        verdictIn (evaluatePlan sha256 changes observations) c.toChangeFields =
          some .unobserved) ∧
    ∃ states, observedState t moment changes = .ok states ∧
      (ReportExact t moment changes (evaluatePlan sha256 changes (dictionary states)) ↔
        ∀ c ∈ changes, ToldApart t moment c.toChangeFields) := by
  refine ⟨fun observations => ⟨satisfied_iff hids observations,fun c hc hnone => ?_⟩,
    report_reads collisionFree hread hids⟩
  rw [verdictIn_report hids hc, hnone]
  exact congrArg some (verdict_unobserved (by decide))

namespace Sample

def folder : ObjectVersion where
  versionId := 0
  kind := .ntfsResource
  key := "fs01|data"
  containerKey := some "fs01|share"
  isPresent := true
  state := some [("path",.text "data")]
  stateHash := some "folder"
  validFrom := 1
  lastSeenAt := 5
  openedByRunId := "r1"
  lastSeenRunId := "r2"

/-- Another directory, which a scan found gone. -/
def goneFolder : ObjectVersion where
  versionId := 1
  kind := .ntfsResource
  key := "fs01|old"
  containerKey := some "fs01|share"
  isPresent := false
  state := none
  stateHash := none
  validFrom := 3
  lastSeenAt := 5
  openedByRunId := "r2"
  lastSeenRunId := "r2"

def record : Table where
  rows := [folder, goneFolder]
  nextId := 2
  ids_fresh := by decide
  ids_nodup := by decide
  checked := by decide
  compatible := by decide

theorem record_readable : Readable record 6 where
  once := by decide
  entries := by
    intro kind v hv hkind
    have hrows : ∀ v ∈ answering record 6, v.kind = .ntfsResource := by decide
    rw [hrows v hv] at hkind
    cases kind <;> cases hkind

def reader : EntryFields where
  aceKey := "e1"
  trusteeSid := "S-1-5-21-1-2-3-1001"
  trusteeKey := "S-1-5-21-1-2-3-1001"
  aceType := .allow
  accessMask := some 1179785

theorem reader_checked : checkEntry reader = .ok () := by decide

def removal (target : String) : ChangeFields where
  changeId := 1
  sequenceIndex := 0
  kind := .removeNtfsAce
  targetKind := .resource
  targetKey := target
  entry := some ⟨reader,reader_checked⟩

theorem kept_checked : checkChange (removal "fs01|data") = .ok () := by decide

theorem gone_checked : checkChange (removal "fs01|old") = .ok () := by decide

/-- A step on an entry of the directory that is there. -/
def onFolder : PlannedChange := ⟨removal "fs01|data",kept_checked⟩

/-- A step on an entry of the directory that was measured absent. -/
def onGone : PlannedChange := ⟨removal "fs01|old",gone_checked⟩

end Sample

theorem verdicts_exact_sample :
    (∀ observations : ℕ → Option ObservedState,
      (satisfied (evaluatePlan id [Sample.onFolder] observations) = true ↔
        ∀ c ∈ [Sample.onFolder],
          verdictIn (evaluatePlan id [Sample.onFolder] observations) c.toChangeFields =
            some .satisfied) ∧
      ∀ c ∈ [Sample.onFolder], observations c.changeId = none →
        verdictIn (evaluatePlan id [Sample.onFolder] observations) c.toChangeFields =
          some .unobserved) ∧
    ∃ states, observedState Sample.record 6 [Sample.onFolder] = .ok states ∧
      (ReportExact Sample.record 6 [Sample.onFolder]
          (evaluatePlan id [Sample.onFolder] (dictionary states)) ↔
        ∀ c ∈ [Sample.onFolder], ToldApart Sample.record 6 c.toChangeFields) :=
  verdicts_exact_iff Function.injective_id Sample.record_readable (by decide)

/-- A directory was measured absent, and the step on its entry is reported as one that
nobody has looked at. -/
theorem gone_target_unobserved : ∃ states,
    observedState Sample.record 6 [Sample.onGone] = .ok states ∧
      Gone Sample.record 6 (targetObject Sample.onGone.toChangeFields) ∧
      verdictIn (evaluatePlan id [Sample.onGone] (dictionary states))
        Sample.onGone.toChangeFields = some .unobserved ∧
      ¬ ReportExact Sample.record 6 [Sample.onGone]
        (evaluatePlan id [Sample.onGone] (dictionary states)) := by
  have hgone : Gone Sample.record 6 (targetObject Sample.onGone.toChangeFields) :=
    ⟨Sample.goneFolder,by decide,by decide,rfl,rfl⟩
  have hids : ([Sample.onGone].map (·.changeId)).Nodup := by decide
  obtain ⟨states,hstates,hexact⟩ :=
    report_reads Function.injective_id Sample.record_readable hids
  have hverdict : (observedState Sample.record 6 [Sample.onGone]).toOption.bind (fun states =>
      verdictIn (evaluatePlan id [Sample.onGone] (dictionary states))
        Sample.onGone.toChangeFields) = some .unobserved := by
    decide +kernel
  rw [hstates] at hverdict
  exact ⟨states,hstates,hgone,hverdict,
    fun h => hexact.mp h Sample.onGone List.mem_cons_self hgone⟩

end Adg.PlanPreconditions
