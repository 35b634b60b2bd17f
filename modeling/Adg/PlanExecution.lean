import Adg.PlanDigests
import Adg.QuotedTexts

/-!
# Performing a plan

A fixture holds entries by their keys and memberships by their two ends, and a
step changes the one it names or is refused. No step disturbs a later one
exactly when no two act on one object. The check of a plan compares more than
the object: a step that names the same entry for another principal, or joins
the group that another step leaves, is a different step to it.
-/

set_option autoImplicit false

namespace Adg.PlanExecution
open Adg.Observation Adg.ChangePlans Adg.PlanDigests Adg.SortedLists

/-! ### The fixture -/

/-- The state of `LabRemediator`. -/
structure Fixture where
  entries : String → Option EntryFields
  edges : String × String → Bool

/-- The two ends of a membership. -/
def endsOf (m : MembershipFields) : String × String := (m.groupKey,m.memberKey)

/-- The entry a step leaves behind, none when it is removed. -/
def entryAfter (c : ChangeFields) (e : EntryFields) : Option EntryFields :=
  match c.afterAccessMask, c.afterPermission with
  | some mask, _ => some { e with accessMask := some mask }
  | none, some level => some { e with permission := some level }
  | none, none => none

/-- What a fixture does not describe. -/
inductive LabRefusal where
  | noEntry (aceKey : String)
  | noEdge (groupKey memberKey : String)
  deriving DecidableEq, Repr

/-- The error that is raised. Which characters are printable is for a table to say. -/
def LabRefusal.error (printable : Char → Bool) : LabRefusal → DomainError
  | .noEntry aceKey =>
    let key := String.ofList (QuotedTexts.reprText printable aceKey.toList)
    { message := s!"The lab fixture has no entry {key}, so there is nothing to change. A lab adapter that invented its targets would report every plan as done."
      field := some "ace_key" }
  | .noEdge groupKey memberKey =>
    let group := String.ofList (QuotedTexts.reprText printable groupKey.toList)
    let member := String.ofList (QuotedTexts.reprText printable memberKey.toList)
    { message := s!"The lab fixture has no membership edge ({group}, {member})."
      field := some "membership" }

/-- `LabRemediator.apply`. A step without an entry has an edge. -/
def apply (c : ChangeFields) (s : Fixture) : Except LabRefusal Fixture :=
  match c.entry, c.membership with
  | some entry, _ =>
    match s.entries entry.aceKey with
    | none => .error (.noEntry entry.aceKey)
    | some e => .ok { s with entries := Function.update s.entries entry.aceKey (entryAfter c e) }
  | none, some edge =>
    if s.edges (endsOf edge.toMembershipFields) = true then
      .ok { s with edges := Function.update s.edges (endsOf edge.toMembershipFields) false }
    else .error (.noEdge edge.groupKey edge.memberKey)
  | none, none => .ok s

/-- The precondition of a step in the fixture: its entry is there with the digest it was
written against, its membership is there. -/
def Holds (sha256 : String → String) (s : Fixture) (c : ChangeFields) : Prop :=
  match c.entry, c.membership with
  | some entry, _ => ∃ e, s.entries entry.aceKey = some e ∧
      entryDigest sha256 e = preconditionDigest sha256 c
  | none, some edge => s.edges (endsOf edge.toMembershipFields) = true
  | none, none => True

/-- The steps are performed in turn, and before each of them the preconditions of all that
are left hold. -/
def Undisturbed (sha256 : String → String) : Fixture → List PlannedChange → Prop
  | _, [] => True
  | s, c :: rest => (∀ d ∈ c :: rest, Holds sha256 s d.toChangeFields) ∧
      ∃ next, apply c.toChangeFields s = .ok next ∧ Undisturbed sha256 next rest

/-! ### The objects of a step -/

/-- The key of the entry a step acts on. -/
def entryKey (c : ChangeFields) : Option String := c.entry.map (·.aceKey)

/-- `acts_on_membership`, and the ends of the edge. -/
def edgeEnds (c : ChangeFields) : Option (String × String) :=
  if c.kind = .removeGroupMember ∨ c.kind = .replaceWithGroup then
    c.membership.map fun m => endsOf m.toMembershipFields
  else none

/-- Two steps act on one entry or on one membership. -/
def Meet (c d : ChangeFields) : Prop :=
  (∃ key, entryKey c = some key ∧ entryKey d = some key) ∨
    ∃ ends, edgeEnds c = some ends ∧ edgeEnds d = some ends

theorem Meet.symm {c d : ChangeFields} (h : Meet c d) : Meet d c := by
  rcases h with ⟨key,hc,hd⟩ | ⟨ends,hc,hd⟩
  · exact .inl ⟨key,hd,hc⟩
  · exact .inr ⟨ends,hd,hc⟩

/-- No two steps act on one object, and none disturbs a later one. -/
structure OneStepPerObject (sha256 : String → String) (changes : List PlannedChange) :
    Prop where
  apart : changes.Pairwise fun c d => ¬ Meet c.toChangeFields d.toChangeFields
  runs : ∀ s, (∀ c ∈ changes, Holds sha256 s c.toChangeFields) →
    Undisturbed sha256 s (inOrder changes)

/-- Steps that name one object say the same of it: whoever names an entry names it on one
target for one principal, whoever leaves a group does so as one principal, and the
membership of a replacement is in no other step. -/
structure NamedAlike (changes : List PlannedChange) : Prop where
  entries : ∀ c ∈ changes, ∀ d ∈ changes, ∀ key, entryKey c.toChangeFields = some key →
    entryKey d.toChangeFields = some key →
    c.targetKind = d.targetKind ∧ c.targetKey = d.targetKey ∧ c.principalKey = d.principalKey
  removals : ∀ c ∈ changes, ∀ d ∈ changes, c.kind = .removeGroupMember →
    d.kind = .removeGroupMember → ∀ ends, edgeEnds c.toChangeFields = some ends →
    edgeEnds d.toChangeFields = some ends → c.principalKey = d.principalKey
  replacements : ∀ c ∈ changes, ∀ d ∈ changes, c.kind = .replaceWithGroup → ∀ ends,
    edgeEnds c.toChangeFields = some ends → edgeEnds d.toChangeFields = some ends → c = d

section Objects
variable {sha256 : String → String} {c d : PlannedChange}

theorem removal_of_no_entry (h : c.entry = none) : c.kind = .removeGroupMember := by
  by_contra hk
  obtain ⟨e,he⟩ := c.entry_of_other hk
  rw [h] at he
  cases he

theorem naturalKey_of_entry {key : String} (h : entryKey c.toChangeFields = some key) :
    c.naturalKey = (c.targetKind.value,c.targetKey,c.principalKey,key) := by
  obtain ⟨e,he,rfl⟩ := Option.map_eq_some_iff.mp h
  unfold PlannedChange.naturalKey
  rw [he]

theorem naturalKey_of_removal (hk : c.kind = .removeGroupMember) {ends : String × String}
    (h : edgeEnds c.toChangeFields = some ends) :
    c.naturalKey = (ChangeTargetKind.group.value,ends.1,c.principalKey,
      ends.1 ++ "->" ++ ends.2) := by
  obtain ⟨hnone,m,hm,hgroup⟩ := c.edge_of_removal hk
  have htarget : c.targetKind = .group := by
    rw [c.passed.1, hk]
    rfl
  unfold edgeEnds at h
  rw [if_pos (.inl hk), hm, Option.map_some] at h
  obtain rfl := Option.some.inj h
  unfold PlannedChange.naturalKey
  rw [hnone, hm, htarget, ← hgroup]
  rfl

/-! ### Steps apart -/

/-- Steps with different keys that are named alike do not meet. -/
theorem not_meet {changes : List PlannedChange} (halike : NamedAlike changes) (hc : c ∈ changes)
    (hd : d ∈ changes) (hkey : c.naturalKey ≠ d.naturalKey) :
    ¬ Meet c.toChangeFields d.toChangeFields := by
  rintro (⟨key,hck,hdk⟩ | ⟨ends,hce,hde⟩)
  · obtain ⟨hkind,htarget,hprincipal⟩ := halike.entries c hc d hd key hck hdk
    apply hkey
    rw [naturalKey_of_entry hck, naturalKey_of_entry hdk, hkind, htarget, hprincipal]
  · have hacts : ∀ x : PlannedChange, edgeEnds x.toChangeFields = some ends →
        x.kind = .removeGroupMember ∨ x.kind = .replaceWithGroup := by
      intro x hx
      unfold edgeEnds at hx
      split_ifs at hx with hk
      exact hk
    rcases hacts c hce with hck | hck
    · rcases hacts d hde with hdk | hdk
      · apply hkey
        rw [naturalKey_of_removal hck hce, naturalKey_of_removal hdk hde,
          halike.removals c hc d hd hck hdk ends hce hde]
      · exact hkey (congrArg _ (halike.replacements d hd c hc hdk ends hde hce).symm)
    · exact hkey (congrArg _ (halike.replacements c hc d hd hck ends hce hde))

/-- Steps that do not meet are named alike. -/
theorem namedAlike_of_apart {changes : List PlannedChange}
    (h : changes.Pairwise fun c d => ¬ Meet c.toChangeFields d.toChangeFields) :
    NamedAlike changes := by
  have hsame : ∀ c ∈ changes, ∀ d ∈ changes, Meet c.toChangeFields d.toChangeFields → c = d := by
    intro c hc d hd hmeet
    by_contra hne
    have hsymm : Std.Symm fun c d : PlannedChange =>
        ¬ Meet c.toChangeFields d.toChangeFields := ⟨fun _ _ h h' => h h'.symm⟩
    exact h.forall hc hd hne hmeet
  constructor
  · intro c hc d hd key hck hdk
    obtain rfl := hsame c hc d hd (.inl ⟨key,hck,hdk⟩)
    exact ⟨rfl,rfl,rfl⟩
  · intro c hc d hd _ _ ends hce hde
    rw [hsame c hc d hd (.inr ⟨ends,hce,hde⟩)]
  · intro c hc d hd _ ends hce hde
    exact hsame c hc d hd (.inr ⟨ends,hce,hde⟩)

/-! ### Runs -/

/-- A step whose precondition holds is performed. -/
theorem apply_of_holds {s : Fixture} (h : Holds sha256 s c.toChangeFields) :
    ∃ next, apply c.toChangeFields s = .ok next := by
  unfold Holds at h
  unfold apply
  cases hentry : c.entry with
  | some entry =>
    rw [hentry] at h
    obtain ⟨e,he,-⟩ := h
    dsimp only
    rw [he]
    exact ⟨_,rfl⟩
  | none =>
    cases hedge : c.membership with
    | none => exact ⟨s,rfl⟩
    | some edge =>
      rw [hentry, hedge] at h
      exact ⟨_,if_pos h⟩

/-- A step leaves all entries but its own, and all memberships but its own. -/
theorem apply_frame {s next : Fixture} (h : apply c.toChangeFields s = .ok next) :
    (∀ key, entryKey c.toChangeFields ≠ some key → next.entries key = s.entries key) ∧
      ∀ ends, edgeEnds c.toChangeFields ≠ some ends → next.edges ends = s.edges ends := by
  unfold apply at h
  cases hentry : c.entry with
  | some entry =>
    rw [hentry] at h
    dsimp only at h
    cases hfound : s.entries entry.aceKey with
    | none =>
      rw [hfound] at h
      cases h
    | some e =>
      rw [hfound] at h
      obtain rfl := Except.ok.inj h
      constructor
      · intro key hkey
        apply Function.update_of_ne
        rintro rfl
        exact hkey (by rw [entryKey, hentry, Option.map_some])
      · exact fun _ _ => rfl
  | none =>
    cases hedge : c.membership with
    | none =>
      rw [hentry, hedge] at h
      obtain rfl := Except.ok.inj h
      exact ⟨fun _ _ => rfl,fun _ _ => rfl⟩
    | some edge =>
      rw [hentry, hedge] at h
      dsimp only at h
      split_ifs at h
      obtain rfl := Except.ok.inj h
      constructor
      · exact fun _ _ => rfl
      · intro ends hends
        apply Function.update_of_ne
        rintro rfl
        apply hends
        rw [edgeEnds, if_pos (.inl (removal_of_no_entry hentry)), hedge, Option.map_some]

/-- A precondition is about the objects of its step. -/
theorem holds_congr {s next : Fixture}
    (hentries : ∀ key, entryKey d.toChangeFields = some key → next.entries key = s.entries key)
    (hedges : ∀ ends, edgeEnds d.toChangeFields = some ends → next.edges ends = s.edges ends)
    (h : Holds sha256 s d.toChangeFields) : Holds sha256 next d.toChangeFields := by
  unfold Holds at h ⊢
  cases hentry : d.entry with
  | some entry =>
    rw [hentry] at h
    have hsame := hentries entry.aceKey (by rw [entryKey, hentry, Option.map_some])
    dsimp only at h ⊢
    rw [hsame]
    exact h
  | none =>
    cases hedge : d.membership with
    | none => trivial
    | some edge =>
      rw [hentry, hedge] at h
      have hsame := hedges (endsOf edge.toMembershipFields)
        (by rw [edgeEnds, if_pos (.inl (removal_of_no_entry hentry)), hedge, Option.map_some])
      dsimp only at h ⊢
      rw [hsame]
      exact h

/-- A step that another one does not meet keeps its precondition. -/
theorem holds_after {s next : Fixture} (happly : apply c.toChangeFields s = .ok next)
    (hmeet : ¬ Meet c.toChangeFields d.toChangeFields) (h : Holds sha256 s d.toChangeFields) :
    Holds sha256 next d.toChangeFields := by
  obtain ⟨hentries,hedges⟩ := apply_frame happly
  refine holds_congr (fun key hkey => ?_) (fun ends hends => ?_) h
  · exact hentries key fun hc => hmeet (.inl ⟨key,hc,hkey⟩)
  · exact hedges ends fun hc => hmeet (.inr ⟨ends,hc,hends⟩)

/-- Steps that do not meet are performed one after the other. -/
theorem undisturbed_of_apart {steps : List PlannedChange}
    (h : steps.Pairwise fun c d => ¬ Meet c.toChangeFields d.toChangeFields) {s : Fixture}
    (hholds : ∀ c ∈ steps, Holds sha256 s c.toChangeFields) : Undisturbed sha256 s steps := by
  induction steps generalizing s with
  | nil => trivial
  | cons c rest ih =>
    obtain ⟨hc,hrest⟩ := List.pairwise_cons.mp h
    obtain ⟨next,hnext⟩ := apply_of_holds (hholds c List.mem_cons_self)
    refine ⟨hholds,next,hnext,ih hrest fun d hd => ?_⟩
    exact holds_after hnext (hc d hd) (hholds d (List.mem_cons_of_mem c hd))

theorem apart_inOrder {changes : List PlannedChange}
    (h : changes.Pairwise fun c d => ¬ Meet c.toChangeFields d.toChangeFields) :
    (inOrder changes).Pairwise fun c d => ¬ Meet c.toChangeFields d.toChangeFields :=
  h.perm (inOrder_perm changes).symm fun h h' => h h'.symm

end Objects

/-- A plan that is accepted has one step for each object exactly when the steps that name
one object say the same of it. -/
theorem one_step_per_object_iff (sha256 : String → String) {changes : List PlannedChange}
    (haccepted : validateChanges changes = .ok ()) :
    OneStepPerObject sha256 changes ↔ NamedAlike changes := by
  constructor
  · exact fun h => namedAlike_of_apart h.apart
  · intro halike
    have hkeys := List.pairwise_map.mp (accepted_distinct haccepted).1
    have hapart : changes.Pairwise fun c d => ¬ Meet c.toChangeFields d.toChangeFields := by
      apply hkeys.imp_of_mem
      intro c d hc hd hkey
      exact not_meet halike hc hd hkey
    refine ⟨hapart,fun s hholds => undisturbed_of_apart (apart_inOrder hapart) fun c hc => ?_⟩
    exact hholds c ((inOrder_perm changes).mem_iff.mp hc)

namespace Sample

def reader : EntryFields where
  aceKey := "e1"
  trusteeSid := "S-1-5-21-1-2-3-1001"
  trusteeKey := "S-1-5-21-1-2-3-1001"
  aceType := .allow
  accessMask := some 1179785

theorem reader_checked : checkEntry reader = .ok () := by decide

/-- Take the entry away, as a step of some principal. -/
def removal (changeId : ℕ) (index : ℤ) (principal : String) : ChangeFields where
  changeId := changeId
  sequenceIndex := index
  kind := .removeNtfsAce
  targetKind := .resource
  targetKey := "fs01|data"
  principalKey := principal
  entry := some ⟨reader,reader_checked⟩

theorem first_checked : checkChange (removal 1 0 "alice") = .ok () := by decide

theorem second_checked : checkChange (removal 2 1 "bob") = .ok () := by decide

def first : PlannedChange := ⟨removal 1 0 "alice",first_checked⟩

/-- The same removal in the name of another principal. -/
def second : PlannedChange := ⟨removal 2 1 "bob",second_checked⟩

/-- The entry stands, and nobody is a member of anything. -/
def fixture : Fixture where
  entries := Function.update (fun _ => none) "e1" (some reader)
  edges := fun _ => false

end Sample

theorem one_step_sample : OneStepPerObject id [Sample.first] ↔ NamedAlike [Sample.first] :=
  one_step_per_object_iff id (by decide)

/-- Two steps on one entry are accepted, both preconditions hold, and after the first step
there is nothing for the second to act on. -/
theorem entry_removed_twice : validateChanges [Sample.first, Sample.second] = .ok () ∧
    (∀ c ∈ [Sample.first, Sample.second], Holds id Sample.fixture c.toChangeFields) ∧
    ¬ Undisturbed id Sample.fixture (inOrder [Sample.first, Sample.second]) ∧
    ¬ OneStepPerObject id [Sample.first, Sample.second] := by
  have hholds : ∀ c ∈ [Sample.first, Sample.second],
      Holds id Sample.fixture c.toChangeFields := by
    intro c hc
    rcases List.mem_pair.mp hc with rfl | rfl
    · exact ⟨Sample.reader,rfl,rfl⟩
    · exact ⟨Sample.reader,rfl,rfl⟩
  have hdisturbed : ¬ Undisturbed id Sample.fixture
      (inOrder [Sample.first, Sample.second]) := by
    rintro ⟨-,next,hnext,hagain,-⟩
    obtain ⟨e,he,-⟩ := hagain Sample.second (by decide)
    obtain rfl := Except.ok.inj hnext
    cases he
  exact ⟨by decide,hholds,hdisturbed,fun h => hdisturbed (h.runs _ hholds)⟩

end Adg.PlanExecution
