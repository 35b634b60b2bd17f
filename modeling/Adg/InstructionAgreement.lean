import Adg.Fallible
import Adg.InstructedEdits

/-!
# Where the runbook does what was measured

The steps of an accepted plan are followed one by one through both translations.
Each contributes at least as many edits to the overlay as to the runbook, so the
two are the same exactly when they are the same at every step; and a step is the
same when its fields name one member, one group, one directory or one share, and
the script finds its entry and no other.
-/

set_option autoImplicit false

namespace Adg.InstructionAgreement
open Adg.Observation Adg.SecurityIdentifier Adg.ResourcePath Adg.ChangePlans Adg.SortedLists
open Adg.SimulationOverlays Adg.PlanRunbooks Adg.InstructedEdits
open Adg.Fallible (bind_ok mapM_of_ok mapM_each)

/-! ### Lists joined from parts -/

section Joined
variable {α β ε : Type}

/-- The one element of a list that passes a test is what a filter keeps. -/
theorem filter_singleton {l : List α} {p : α → Bool} {a : α} (hl : l.Nodup) (ha : a ∈ l)
    (hp : p a = true) (h : ∀ b ∈ l, p b = true → b = a) : l.filter p = [a] := by
  have hperm : (l.filter p).Perm [a] := by
    refine (List.perm_ext_iff_of_nodup (hl.filter _) (List.nodup_singleton a)).mpr fun b => ?_
    rw [List.mem_filter, List.mem_singleton]
    constructor
    · rintro ⟨hb,hpb⟩
      exact h b hb hpb
    · rintro rfl
      exact ⟨ha,hp⟩
  exact List.perm_singleton.mp hperm

end Joined

/-! ### What a step is translated into -/

/-- The simulated changes of a step, kind by kind. -/
inductive Translated (casefold : String → String) (c : PlannedChange) :
    List SimulationChange → Prop where
  | memberRemoval {m : MembershipSnapshot} (hk : c.kind = .removeGroupMember)
      (hm : c.membership = some m) :
      Translated casefold c [.membership ⟨.removeMember,m.groupKey,m.memberKey,m.edgeKind,m.memberKind⟩]
  | ntfsRemoval {e : EntrySnapshot} {key : String} (hk : c.kind = .removeNtfsAce)
      (he : c.entry = some e) (hkey : directoryNamed casefold c.targetKey = some key) :
      Translated casefold c [.ntfs { kind := .removeNtfsAce, resourceKey := key, aceKey := some e.aceKey }]
  | ntfsModification {e : EntrySnapshot} {key : String} {mask : ℤ}
      (hk : c.kind = .modifyNtfsAce) (he : c.entry = some e)
      (hkey : directoryNamed casefold c.targetKey = some key)
      (hmask : c.afterAccessMask = some mask) :
      Translated casefold c [.ntfs { kind := .modifyNtfsAce, resourceKey := key, aceKey := some e.aceKey, accessMask := some mask }]
  | shareRemoval {e : EntrySnapshot} {share : ShareIdentity} (hk : c.kind = .removeShareAce)
      (he : c.entry = some e) (hshare : parseShareIdentifier c.targetKey = .ok share) :
      Translated casefold c [.share { kind := .removeShareAce, share := ⟨casefold share.server,casefold share.name⟩, aceKey := some e.aceKey }]
  | shareLevel {e : EntrySnapshot} {share : ShareIdentity} {level : SharePermission}
      (hk : c.kind = .modifyShareAce) (he : c.entry = some e)
      (hshare : parseShareIdentifier c.targetKey = .ok share)
      (hlevel : c.afterPermission = some level) :
      Translated casefold c [.share { kind := .modifyShareAce, share := ⟨casefold share.server,casefold share.name⟩, aceKey := some e.aceKey, permission := some level }]
  | shareMask {e : EntrySnapshot} {share : ShareIdentity} {mask : ℤ}
      (hk : c.kind = .modifyShareAce) (he : c.entry = some e)
      (hshare : parseShareIdentifier c.targetKey = .ok share)
      (hlevel : c.afterPermission = none) (hmask : c.afterAccessMask = some mask)
      (hvalid : is32Bit mask = true) :
      Translated casefold c [.share { kind := .modifyShareAce, share := ⟨casefold share.server,casefold share.name⟩, aceKey := some e.aceKey, accessMask := some mask }]
  | replacement {e : EntrySnapshot} {m : MembershipSnapshot} {key : String}
      (hk : c.kind = .replaceWithGroup) (he : c.entry = some e) (hm : c.membership = some m)
      (hkey : directoryNamed casefold c.targetKey = some key) :
      Translated casefold c [.ntfs { kind := .removeNtfsAce, resourceKey := key, aceKey := some e.aceKey }, .membership ⟨.addMember,m.groupKey,m.memberKey,m.edgeKind,m.memberKind⟩]

section Translation
variable {casefold : String → String} {c : PlannedChange}

/-- A membership that was planned is one that may be simulated. -/
theorem membershipChange_ok {m : MembershipSnapshot} {kind : ChangeKind}
    (hm : c.membership = some m) (hkind : kind = .addMember ∨ kind = .removeMember) :
    membershipChange c kind =
      .ok (.membership ⟨kind,m.groupKey,m.memberKey,m.edgeKind,m.memberKind⟩) := by
  have hc := m.checked
  unfold checkMembership at hc
  simp only [both_ok, refuseWhen_ok, not_or] at hc
  obtain ⟨⟨hgroup,hmember⟩,hself,hlocal⟩ := hc
  have hcheck : MembershipChange.check ⟨kind,m.groupKey,m.memberKey,m.edgeKind,m.memberKind⟩ =
      .ok () := by
    unfold MembershipChange.check validateKey
    simp only [both_ok, refuseWhen_ok]
    refine ⟨?_,hgroup,hmember,hself,hlocal⟩
    rcases hkind with rfl | rfl <;> decide
  unfold membershipChange
  rw [hm]
  simp only [required, bind, Except.bind]
  rw [hcheck]
  rfl

theorem directoryNamed_eq {path key : String} : directoryNamed casefold path = some key ↔
    ∃ p, parseUncPath path = .ok p ∧ p.comparisonKey casefold = key := by
  unfold directoryNamed
  cases parseUncPath path <;> simp [Except.toOption]

theorem target_spoken : validateKey c.targetKey "resource_key" = .ok () ∧
    validateKey c.targetKey "share_key" = .ok () := by
  have h := c.checked
  unfold checkChange at h
  simp only [both_ok, refuseWhen_ok] at h
  unfold validateKey
  simp only [refuseWhen_ok]
  exact ⟨h.2.2.1,h.2.2.1⟩

theorem checkExisting_ok (e : EntrySnapshot) (kind : ChangeKind) :
    checkExisting kind (some e.aceKey) = .ok () := by
  unfold checkExisting orElseText
  simp [e.aceKey_ne]

/-- An entry of a directory is translated when its target is a path. -/
theorem ntfsChange_ok {kind : ChangeKind} {mask : Option ℤ} {s : SimulationChange}
    {e : EntrySnapshot} (he : c.entry = some e)
    (hkind : kind = .removeNtfsAce ∧ mask = none ∨
      kind = .modifyNtfsAce ∧ ∃ m, mask = some m ∧ is32Bit m = true) :
    ntfsChange casefold c kind mask = .ok s ↔
      ∃ key, directoryNamed casefold c.targetKey = some key ∧
        s = .ntfs { kind := kind, resourceKey := key, aceKey := some e.aceKey, accessMask := mask } := by
  have hcheck : ∀ key, NtfsAceChange.check { kind := kind, resourceKey := key, aceKey := some e.aceKey, accessMask := mask } = .ok () := by
    intro key
    unfold NtfsAceChange.check validateMask
    simp only [both_ok, refuseWhen_ok]
    rcases hkind with ⟨rfl,rfl⟩ | ⟨rfl,m,rfl,hm⟩ <;>
      simp [checkExisting_ok, both_ok, *]
  unfold ntfsChange
  rw [he]
  simp only [directoryNamed_eq]
  simp only [required, target_spoken.1, bind, Except.bind]
  cases hp : parseUncPath c.targetKey with
  | error x => simp
  | ok p =>
    simp only [hcheck, pure, Except.pure, Except.ok.injEq]
    constructor
    · rintro rfl
      exact ⟨_,⟨p,rfl,rfl⟩,rfl⟩
    · rintro ⟨key,⟨q,rfl,rfl⟩,rfl⟩
      rfl

/-- An entry of a share is translated when its target is a share. -/
theorem shareChange_ok {kind : ChangeKind} {mask : Option ℤ} {level : Option SharePermission}
    {s : SimulationChange} {e : EntrySnapshot} (he : c.entry = some e)
    (hkind : kind = .removeShareAce ∧ mask = none ∧ level = none ∨
      kind = .modifyShareAce ∧ mask = none ∧ level ≠ none ∨
      kind = .modifyShareAce ∧ mask ≠ none ∧ level = none) :
    shareChange casefold c kind mask level = .ok s ↔
      (∀ m, mask = some m → is32Bit m = true) ∧
      ∃ share, parseShareIdentifier c.targetKey = .ok share ∧
        s = .share { kind := kind, share := ⟨casefold share.server,casefold share.name⟩, aceKey := some e.aceKey, accessMask := mask, permission := level } := by
  have hcheck : ∀ share, ShareAceChange.check { kind := kind, share := share, aceKey := some e.aceKey, accessMask := mask, permission := level } = .ok () ↔
      ∀ m, mask = some m → is32Bit m = true := by
    intro share
    unfold ShareAceChange.check validateMask
    simp only [both_ok, refuseWhen_ok]
    rcases hkind with ⟨rfl,rfl,rfl⟩ | ⟨rfl,rfl,hl⟩ | ⟨rfl,hm,rfl⟩
    · simp [checkExisting_ok, both_ok]
    · simp [checkExisting_ok, both_ok, hl]
    · cases mask with
      | none => exact absurd rfl hm
      | some m => simp [checkExisting_ok, both_ok]
  unfold shareChange
  rw [he]
  simp only [required, target_spoken.2, bind, Except.bind]
  cases hp : parseShareIdentifier c.targetKey with
  | error x => simp
  | ok share =>
    dsimp only
    cases hpassed : ShareAceChange.check { kind := kind, share := ⟨casefold share.server,casefold share.name⟩, aceKey := some e.aceKey, accessMask := mask, permission := level } with
    | error x =>
      have hnot := mt (hcheck ⟨casefold share.server,casefold share.name⟩).mpr
        (by rw [hpassed]; simp)
      simp [hnot]
    | ok u =>
      have hmask := (hcheck ⟨casefold share.server,casefold share.name⟩).mp hpassed
      simp only [pure, Except.pure, Except.ok.injEq]
      constructor
      · rintro rfl
        exact ⟨hmask,share,rfl,rfl⟩
      · rintro ⟨-,t,rfl,rfl⟩
        rfl

/-- A step is translated into what its kind says, and into nothing else. -/
theorem changesFor_ok {l : List SimulationChange} :
    changesFor casefold c = .ok l ↔ Translated casefold c l := by
  constructor
  · intro h
    unfold changesFor at h
    cases hk : c.kind with
    | removeGroupMember =>
      obtain ⟨-,m,hm,-⟩ := c.edge_of_removal hk
      rw [hk, membershipChange_ok hm (.inr rfl)] at h
      cases h
      exact .memberRemoval hk hm
    | removeNtfsAce =>
      obtain ⟨e,he⟩ := c.entry_of_other (by rw [hk]; decide)
      simp only [hk, bind_ok, ntfsChange_ok he (.inl ⟨rfl,rfl⟩)] at h
      obtain ⟨_,⟨key,hkey,rfl⟩,h⟩ := h
      cases h
      exact .ntfsRemoval hk he hkey
    | modifyNtfsAce =>
      obtain ⟨e,he⟩ := c.entry_of_other (by rw [hk]; decide)
      obtain ⟨mask,hmask,hvalid⟩ := c.mask_of_narrowing hk
      simp only [hk, bind_ok, hmask, ntfsChange_ok he (.inr ⟨rfl,mask,rfl,hvalid⟩)] at h
      obtain ⟨_,⟨key,hkey,rfl⟩,h⟩ := h
      cases h
      exact .ntfsModification hk he hkey hmask
    | removeShareAce =>
      obtain ⟨e,he⟩ := c.entry_of_other (by rw [hk]; decide)
      simp only [hk, bind_ok, shareChange_ok he (.inl ⟨rfl,rfl,rfl⟩)] at h
      obtain ⟨_,⟨-,share,hshare,rfl⟩,h⟩ := h
      cases h
      exact .shareRemoval hk he hshare
    | modifyShareAce =>
      obtain ⟨e,he⟩ := c.entry_of_other (by rw [hk]; decide)
      rw [hk] at h
      cases hlevel : c.afterPermission with
      | some level =>
        simp only [hlevel, bind_ok, ne_eq, reduceCtorEq, not_false_eq_true, if_true,
          shareChange_ok he (.inr (.inl ⟨rfl,rfl,Option.some_ne_none level⟩))] at h
        obtain ⟨_,⟨-,share,hshare,rfl⟩,h⟩ := h
        cases h
        exact .shareLevel hk he hshare hlevel
      | none =>
        have hsome : c.afterAccessMask ≠ none := by
          have hnone := (c.level_of_narrowing hk).1
          rw [hlevel] at hnone
          simpa using hnone
        obtain ⟨mask,hmask⟩ := Option.ne_none_iff_exists'.mp hsome
        simp only [hlevel, hmask, bind_ok, ne_eq, not_true_eq_false, if_false,
          shareChange_ok he (.inr (.inr ⟨rfl,Option.some_ne_none mask,rfl⟩))] at h
        obtain ⟨_,⟨hvalid,share,hshare,rfl⟩,h⟩ := h
        cases h
        exact .shareMask hk he hshare hlevel hmask (hvalid mask rfl)
    | replaceWithGroup =>
      obtain ⟨e,he⟩ := c.entry_of_other (by rw [hk]; decide)
      obtain ⟨m,hm⟩ := c.edge_of_replacement hk
      simp only [hk, bind_ok, ntfsChange_ok he (.inl ⟨rfl,rfl⟩),
        membershipChange_ok hm (.inl rfl)] at h
      obtain ⟨_,⟨key,hkey,rfl⟩,_,hadded,h⟩ := h
      cases hadded
      cases h
      exact .replacement hk he hm hkey
  · intro h
    unfold changesFor
    cases h with
    | memberRemoval hk hm =>
      rw [hk, membershipChange_ok hm (.inr rfl)]
      rfl
    | ntfsRemoval hk he hkey =>
      rw [hk, (ntfsChange_ok he (.inl ⟨rfl,rfl⟩)).mpr ⟨_,hkey,rfl⟩]
      rfl
    | ntfsModification hk he hkey hmask =>
      obtain ⟨_,hsome,hvalid⟩ := c.mask_of_narrowing hk
      rw [hk, hsome, (ntfsChange_ok he (.inr ⟨rfl,_,rfl,hvalid⟩)).mpr ⟨_,hkey,rfl⟩]
      cases hmask.symm.trans hsome
      rfl
    | shareRemoval hk he hshare =>
      rw [hk, (shareChange_ok he (.inl ⟨rfl,rfl,rfl⟩)).mpr ⟨by simp,_,hshare,rfl⟩]
      rfl
    | shareLevel hk he hshare hlevel =>
      rw [hk, hlevel,
        (shareChange_ok he (.inr (.inl ⟨rfl,rfl,by simp⟩))).mpr ⟨by simp,_,hshare,rfl⟩]
      rfl
    | shareMask hk he hshare hlevel hmask hvalid =>
      rw [hk, hlevel, hmask, (shareChange_ok he (.inr (.inr ⟨rfl,by simp,rfl⟩))).mpr
        ⟨fun m hm => Option.some.inj hm ▸ hvalid,_,hshare,rfl⟩]
      rfl
    | replacement hk he hm hkey =>
      rw [hk, (ntfsChange_ok he (.inl ⟨rfl,rfl⟩)).mpr ⟨_,hkey,rfl⟩,
        membershipChange_ok hm (.inl rfl)]
      rfl

theorem Translated.targets {l : List SimulationChange} (h : Translated casefold c l) :
    l.map (·.target) = targetsOf c := by
  cases h <;> simp [targetsOf, SimulationChange.target, MembershipChange.target, *]

theorem Translated.length_le {l : List SimulationChange} (h : Translated casefold c l) :
    l.length ≤ 2 := by
  cases h <;> simp

end Translation

/-! ### One step on both sides -/

theorem expectedTarget_group {k : PlannedChangeKind} :
    expectedTarget k = .group ↔ k = .removeGroupMember := by
  cases k <;> decide

section Targets
variable {changes : List PlannedChange} {c c' : PlannedChange} {e e' : EntrySnapshot}

theorem targetsOf_ne_nil (c : PlannedChange) : targetsOf c ≠ [] := by
  unfold targetsOf
  cases hk : c.kind with
  | removeGroupMember =>
    obtain ⟨-,m,hm,-⟩ := c.edge_of_removal hk
    simp [hm]
  | removeShareAce | modifyShareAce | removeNtfsAce | modifyNtfsAce | replaceWithGroup =>
    obtain ⟨e,he⟩ := c.entry_of_other (by rw [hk]; decide)
    simp [he]

theorem ntfsAce_mem (hc : c.targetKind = .resource) (he : c.entry = some e) :
    Target.ntfsAce e.aceKey ∈ targetsOf c := by
  have hkind := c.passed.1.symm.trans hc
  unfold targetsOf
  cases hk : c.kind <;> simp_all [expectedTarget]

theorem shareAce_mem (hc : c.targetKind = .share) (he : c.entry = some e) :
    Target.shareAce e.aceKey ∈ targetsOf c := by
  have hkind := c.passed.1.symm.trans hc
  unfold targetsOf
  cases hk : c.kind <;> simp_all [expectedTarget]

variable (hdistinct : (changes.flatMap targetsOf).Nodup)
include hdistinct

/-- Two steps with one target are one step. -/
theorem same_of_target (hc : c ∈ changes) (hc' : c' ∈ changes) {x : Target}
    (hx : x ∈ targetsOf c) (hx' : x ∈ targetsOf c') : c = c' := by
  have hpair := (List.nodup_flatMap.mp hdistinct).2
  by_contra hne
  have hsymm : Std.Symm (Function.onFun List.Disjoint targetsOf) := ⟨fun _ _ h => h.symm⟩
  exact hpair.forall hc hc' hne hx hx'

theorem steps_nodup : changes.Nodup := by
  have hpair := (List.nodup_flatMap.mp hdistinct).2
  refine hpair.imp fun {a b} h hab => ?_
  obtain ⟨x,hx⟩ := List.exists_mem_of_ne_nil _ (targetsOf_ne_nil a)
  exact h hx (hab ▸ hx)

end Targets

section Step
variable {casefold : String → String} {changes : List PlannedChange} {c : PlannedChange}
  {e : EntrySnapshot} {m : MembershipSnapshot}

theorem mem_entriesOf {p : PlannedChange → Bool} {key : String} :
    key ∈ entriesOf p changes ↔ ∃ c' ∈ changes, p c' = true ∧ ∃ e, c'.entry = some e ∧ e.aceKey = key := by
  unfold entriesOf
  simp only [List.mem_filterMap, List.mem_filter, Option.map_eq_some_iff]
  constructor
  · rintro ⟨c',⟨hc',hp⟩,e,he,rfl⟩
    exact ⟨c',hc',hp,e,he,rfl⟩
  · rintro ⟨c',hc',hp,e,he,rfl⟩
    exact ⟨c',⟨hc',hp⟩,e,he,rfl⟩

/-- A test addresses one entry of the plan exactly when it finds that step and no other. -/
theorem entriesOf_singleton (hdistinct : (changes.flatMap targetsOf).Nodup) (hc : c ∈ changes)
    (he : c.entry = some e) {p : PlannedChange → Bool}
    (hp : ∀ c' ∈ changes, p c' = true → c'.targetKind = c.targetKind) :
    entriesOf p changes = [e.aceKey] ↔
      p c = true ∧ ∀ c' ∈ changes, p c' = true → c' = c := by
  have hother : c.kind ≠ .removeGroupMember := by
    intro hk
    cases (c.edge_of_removal hk).1.symm.trans he
  have hone : ∀ c' ∈ changes, p c' = true → ∀ e', c'.entry = some e' → e'.aceKey = e.aceKey →
      c' = c := by
    intro c' hc' hpc e' he' hkey
    have hkind := hp c' hc' hpc
    have htarget := c.passed.1
    cases ht : c.targetKind with
    | resource =>
      have hx := ntfsAce_mem (hkind.trans ht) he'
      exact same_of_target hdistinct hc' hc hx (hkey ▸ ntfsAce_mem ht he)
    | share =>
      have hx := shareAce_mem (hkind.trans ht) he'
      exact same_of_target hdistinct hc' hc hx (hkey ▸ shareAce_mem ht he)
    | group => exact absurd (expectedTarget_group.mp (htarget.symm.trans ht)) hother
  constructor
  · intro h
    have hkey : ∀ c' ∈ changes, p c' = true → c' = c := by
      intro c' hc' hpc
      have hother' : c'.kind ≠ .removeGroupMember := by
        intro hk
        have hgroup : c.targetKind = .group :=
          (hp c' hc' hpc).symm.trans (c'.passed.1.trans (expectedTarget_group.mpr hk))
        exact hother (expectedTarget_group.mp (c.passed.1.symm.trans hgroup))
      obtain ⟨e',he'⟩ := c'.entry_of_other hother'
      have hmem : e'.aceKey ∈ entriesOf p changes :=
        mem_entriesOf.mpr ⟨c',hc',hpc,e',he',rfl⟩
      rw [h, List.mem_singleton] at hmem
      exact hone c' hc' hpc e' he' hmem
    refine ⟨?_,hkey⟩
    have hmem : e.aceKey ∈ entriesOf p changes := by
      rw [h]
      exact List.mem_singleton_self _
    obtain ⟨c',hc',hpc,-⟩ := mem_entriesOf.mp hmem
    exact hkey c' hc' hpc ▸ hpc
  · rintro ⟨hpc,hall⟩
    unfold entriesOf
    rw [filter_singleton (steps_nodup hdistinct) hc hpc hall]
    simp [he]

variable (casefold) in
theorem share_agrees (hdistinct : (changes.flatMap targetsOf).Nodup) (hc : c ∈ changes)
    (hshare : c.targetKind = .share) (he : c.entry = some e) {share : ShareIdentity}
    (hparsed : parseShareIdentifier c.targetKey = .ok share) :
    (casefold share.name = casefold (shareName c) ∧
      entriesOf (grants casefold (casefold (shareName c)) (sidNamed e.trusteeSid)) changes =
        [e.aceKey]) ↔
    NamesShare casefold c ∧ e.aceType = .allow ∧ AloneOnShare casefold changes c := by
  have hnamed : shareNamed casefold c.targetKey = some (casefold share.name) := by
    unfold shareNamed
    rw [hparsed]
    rfl
  have hnames : NamesShare casefold c ↔ casefold share.name = casefold (shareName c) := by
    unfold NamesShare
    rw [hnamed, Option.some.injEq]
  rw [hnames]
  refine and_congr_right fun hshown => ?_
  have hkinds : ∀ c' ∈ changes, grants casefold (casefold (shareName c)) (sidNamed e.trusteeSid)
      c' = true → c'.targetKind = c.targetKind := by
    intro c' _ hg
    exact (of_decide_eq_true hg).1.trans hshare.symm
  have hself : grants casefold (casefold (shareName c)) (sidNamed e.trusteeSid) c = true ↔
      e.aceType = .allow := by
    simp [grants, hshare, hnamed, hshown, he]
  rw [entriesOf_singleton hdistinct hc he hkinds, hself]
  refine and_congr_right fun _ => ?_
  unfold AloneOnShare
  constructor
  · intro h e' he'
    cases he.symm.trans he'
    exact h
  · intro h
    exact h e he

end Step

/-! ### The whole plan -/

section Plan
variable {casefold : String → String} {changes : List PlannedChange}

/-- What a step is translated into, when it is. -/
def simulated (casefold : String → String) (c : PlannedChange) : List SimulationChange :=
  (changesFor casefold c).toOption.getD []

end Plan

namespace Sample

def directoryEntry : EntryFields where
  aceKey := "ace-1"
  trusteeSid := "S-1-5-21-1-2-3-1001"
  trusteeKey := "S-1-5-21-1-2-3-1001"
  aceType := .allow
  accessMask := some 0x1301BF
  source := some .explicit

def shareEntry : EntryFields where
  aceKey := "ace-2"
  trusteeSid := "S-1-5-21-1-2-3-1001"
  trusteeKey := "S-1-5-21-1-2-3-1001"
  aceType := .allow
  accessMask := some 0x1F01FF

theorem entries_checked : checkEntry directoryEntry = .ok () ∧ checkEntry shareEntry = .ok () := by
  constructor
  · decide +kernel
  · decide +kernel

theorem directoryEntry_checked : checkEntry directoryEntry = .ok () := entries_checked.1

theorem shareEntry_checked : checkEntry shareEntry = .ok () := entries_checked.2

def removalFields : ChangeFields where
  changeId := 1
  sequenceIndex := 0
  kind := .removeNtfsAce
  targetKind := .resource
  targetKey := "\\\\fs01\\data"
  entry := some ⟨directoryEntry,directoryEntry_checked⟩

/-- An entry of a share, of which the collector reported the mask, left with a smaller one. -/
def maskedFields : ChangeFields where
  changeId := 2
  sequenceIndex := 0
  kind := .modifyShareAce
  targetKind := .share
  targetKey := "fs01|data"
  entry := some ⟨shareEntry,shareEntry_checked⟩
  afterAccessMask := some 0x1200A9

theorem changes_checked :
    checkChange removalFields = .ok () ∧ checkChange maskedFields = .ok () := by
  constructor
  · decide +kernel
  · decide +kernel

theorem removal_checked : checkChange removalFields = .ok () := changes_checked.1

def removal : PlannedChange := ⟨removalFields,removal_checked⟩

end Sample

end Adg.InstructionAgreement
