import Adg.ChangeClassification
import Adg.Timelines

/-!
# Forgetting old versions

A policy names a window and says whether anything acts on it. Applying it deletes
the closed versions that ended before the window and have a later closed version.
What is asked about the window itself is answered as before, except where the
version that follows a deleted one outlived the cutoff.
-/

set_option autoImplicit false

namespace Adg.HistoryRetention
open Adg.Observation Adg.Intervals Adg.ObjectVersions Adg.VersionTable Adg.SortedLists
open Adg.Timelines Adg.ChangeClassification

def minRetentionDays : ℤ := 30

def maxRetentionDays : ℤ := 36500

/-- `RetentionPolicy.__post_init__`. -/
def checkPolicy (retainDays : ℤ) (enabled : Bool) : Except DomainError Unit :=
  if retainDays < 0 then .error
    { message := "history_retention_days cannot be negative."
      field := some "retain_days" }
  else if retainDays ≠ 0 ∧ ¬ (minRetentionDays ≤ retainDays ∧ retainDays ≤ maxRetentionDays) then
    .error
      { message := s!"history_retention_days must be 0 (keep everything) or between {minRetentionDays} and {maxRetentionDays}; received {retainDays}. A shorter window than a month would let an ordinary audit cycle find the evidence of a permission change already deleted."
        field := some "retain_days" }
  else if enabled ∧ retainDays = 0 then .error
    { message := "history_retention_enabled is set while history_retention_days is 0, which means keep everything. Set a window, or turn the switch off; a policy that is enabled and has nothing to enforce reads as protection that is not there."
      field := some "enabled" }
  else .ok ()

structure RetentionPolicy where
  retainDays : ℤ := 0
  enabled : Bool := false
  checked : checkPolicy retainDays enabled = .ok ()

namespace RetentionPolicy

def keepsEverything (p : RetentionPolicy) : Bool := p.retainDays = 0

/-- A day in microseconds. -/
def day : ℤ := 86400000000

def cutoff (p : RetentionPolicy) (now : Instant) : Option Instant :=
  if p.keepsEverything then none else some (now-p.retainDays*day)

def describe (p : RetentionPolicy) : String :=
  if p.keepsEverything then "History retention: every version is kept indefinitely."
  else
    let state := if p.enabled then "enabled" else "configured but not enabled"
    s!"History retention: {state}; superseded versions older than {p.retainDays} days may be removed, except the newest one of each object."

/-- A policy that is enabled has a window. -/
theorem cutoff_enabled (p : RetentionPolicy) (h : p.enabled = true) (now : Instant) :
    p.cutoff now = some (now-p.retainDays*day) := by
  have hdays : p.retainDays ≠ 0 := by
    intro hzero
    have hchecked := p.checked
    unfold checkPolicy at hchecked
    split_ifs at hchecked with h1 h2 h3
    exact h3 ⟨h,hzero⟩
  unfold cutoff keepsEverything
  rw [if_neg (by simpa using hdays)]

end RetentionPolicy

/-- `_prunable`, against the stored rows. -/
def prunable (rows : List ObjectVersion) (cutoff : Instant) (v : ObjectVersion) : Bool :=
  v.validTo.any (· < cutoff) &&
    rows.any fun later => later.object = v.object ∧ later.isOpen = false ∧
      v.validFrom < later.validFrom

structure RetentionPlan where
  cutoff : Option Instant
  candidates : List (ObservationKind × ℕ)
  deriving DecidableEq, Repr

namespace RetentionPlan

def total (p : RetentionPlan) : ℕ := (p.candidates.map (·.2)).sum

def isEmpty (p : RetentionPlan) : Bool := p.total = 0

end RetentionPlan

/-- `HistoryRetentionService.plan`. A kind without candidates is in no group. -/
def plan (policy : RetentionPolicy) (now : Instant) (t : Table) : RetentionPlan :=
  match policy.cutoff now with
  | none => ⟨none,[]⟩
  | some c =>
    let chosen := t.rows.filter (prunable t.rows c)
    ⟨some c,(chosen.map (·.kind)).dedup.map fun k => (k,(chosen.filter (·.kind = k)).length)⟩

section Deleting
variable (keep : ObjectVersion → Bool) (t : Table)

theorem kept_fresh : ∀ v ∈ t.rows.filter keep, v.versionId < t.nextId := fun v hv =>
  t.ids_fresh v (List.mem_filter.mp hv).1

theorem kept_ids : ((t.rows.filter keep).map (·.versionId)).Nodup :=
  t.ids_nodup.sublist ((List.filter_sublist).map _)

theorem kept_checked : ∀ v ∈ t.rows.filter keep, checks v = true := fun v hv =>
  t.checked v (List.mem_filter.mp hv).1

theorem kept_compatible : (t.rows.filter keep).Pairwise Compatible :=
  t.compatible.sublist List.filter_sublist

/-- `DELETE FROM object_versions WHERE`, with the condition for what stays. -/
def retain : Table where
  rows := t.rows.filter keep
  nextId := t.nextId
  ids_fresh := kept_fresh keep t
  ids_nodup := kept_ids keep t
  checked := kept_checked keep t
  compatible := kept_compatible keep t

end Deleting

def prune (cutoff : Instant) (t : Table) : Table :=
  retain (fun v => !prunable t.rows cutoff v) t

structure RetentionOutcome where
  cutoff : Instant
  removed : ℕ
  deriving DecidableEq, Repr

def notEnabled : DomainError where
  message := "History retention is not enabled. Set ADG_HISTORY_RETENTION_ENABLED=true together with a window in ADG_HISTORY_RETENTION_DAYS. Deleting recorded permission history is always an explicit decision."
  field := some "enabled"

/-- The `assert` of a cutoff, which an enabled policy always has. -/
def noCutoff : DomainError where
  message := ""

/-- `HistoryRetentionService.apply`. -/
def apply (policy : RetentionPolicy) (now : Instant) (t : Table) :
    Except DomainError (Table × RetentionOutcome) :=
  if policy.enabled = false then .error notEnabled
  else match policy.cutoff now with
    | none => .error noCutoff
    | some c => .ok (prune c t,⟨c,t.rows.countP (prunable t.rows c)⟩)

/-- Applied again and again. -/
def applyAll (policy : RetentionPolicy) : List Instant → Table → Except DomainError Table
  | [], t => .ok t
  | now :: later, t => do
    let (t,_) ← apply policy now t
    applyAll policy later t

/-- `ObjectTimeline.opened_window`, of one of the versions. -/
def openedWindow (versions : List ObjectVersion) (v : ObjectVersion) : Option ChangeWindow :=
  let index := versions.idxOf v
  if index = 0 then none
  else versions[index-1]?.map fun previous => ⟨previous.lastSeenAt,v.validFrom⟩

/-! ### Neighbours in a timeline -/

theorem timeline_strict (t : Table) (object : Object) :
    (timelineOf t object).Pairwise fun v w => v.validFrom < w.validFrom := by
  refine ((timelineOf_sorted t object).and (timelineOf_nodup t object)).imp_of_mem
    fun {v w} hv hw h => ?_
  obtain ⟨hv,hvo⟩ := mem_timelineOf.mp hv
  obtain ⟨hw,hwo⟩ := mem_timelineOf.mp hw
  exact lt_of_le_of_ne h.1 (t.compatible_of_ne hv hw h.2 (hvo.trans hwo.symm)).1

/-- The version that follows another one of its object. -/
def Follows (t : Table) (v w : ObjectVersion) : Prop :=
  ∃ before after, timelineOf t v.object = before ++ v :: w :: after

theorem Follows.mem {t : Table} {v w : ObjectVersion} (h : Follows t v w) :
    v ∈ t.rows ∧ w ∈ t.rows ∧ w.object = v.object := by
  obtain ⟨before,after,hl⟩ := h
  have hv : v ∈ timelineOf t v.object := by
    rw [hl]
    exact List.mem_append_right _ List.mem_cons_self
  have hw : w ∈ timelineOf t v.object := by
    rw [hl]
    exact List.mem_append_right _ (List.mem_cons_of_mem v List.mem_cons_self)
  exact ⟨(mem_timelineOf.mp hv).1,mem_timelineOf.mp hw⟩

/-- Between a version and the one that follows it nothing starts. -/
theorem Follows.next {t : Table} {v w : ObjectVersion} (h : Follows t v w) :
    v.validFrom < w.validFrom ∧ ∀ u ∈ t.rows, u.object = v.object → v.validFrom < u.validFrom →
      u = w ∨ w.validFrom < u.validFrom := by
  obtain ⟨before,after,hl⟩ := h
  have hstrict := timeline_strict t v.object
  rw [hl] at hstrict
  obtain ⟨-,hrest,hfront⟩ := List.pairwise_append.mp hstrict
  obtain ⟨hv,hrest⟩ := List.pairwise_cons.mp hrest
  obtain ⟨hw,-⟩ := List.pairwise_cons.mp hrest
  refine ⟨hv w List.mem_cons_self,fun u hu hobj hlt => ?_⟩
  have hmem : u ∈ timelineOf t v.object := mem_timelineOf.mpr ⟨hu,hobj⟩
  rw [hl] at hmem
  rcases List.mem_append.mp hmem with hmem | hmem
  · exact absurd hlt (not_lt.mpr (hfront u hmem v List.mem_cons_self).le)
  · rcases List.mem_cons.mp hmem with rfl | hmem
    · exact absurd hlt (lt_irrefl _)
    · rcases List.mem_cons.mp hmem with rfl | hmem
      · exact .inl rfl
      · exact .inr (hw u hmem)

/-- A version has one follower. -/
theorem Follows.unique {t : Table} {v w u : ObjectVersion} (hw : Follows t v w)
    (hu : Follows t v u) : u = w := by
  obtain ⟨hlt,hnext⟩ := hw.next
  obtain ⟨hlt',hnext'⟩ := hu.next
  rcases hnext u hu.mem.2.1 hu.mem.2.2 hlt' with h | h
  · exact h
  · rcases hnext' w hw.mem.2.1 hw.mem.2.2 hlt with h' | h'
    · exact h'.symm
    · exact absurd h (lt_asymm h')

/-- A version that starts later follows, or something before it does. -/
theorem follows_of_later {t : Table} {v u : ObjectVersion} (hv : v ∈ t.rows) (hu : u ∈ t.rows)
    (hobj : u.object = v.object) (hlt : v.validFrom < u.validFrom) :
    ∃ w, Follows t v w ∧ w.validFrom ≤ u.validFrom := by
  obtain ⟨before,rest,hl⟩ := List.append_of_mem (mem_timelineOf.mpr ⟨hv,rfl⟩)
  have hstrict := timeline_strict t v.object
  have hmem : u ∈ timelineOf t v.object := mem_timelineOf.mpr ⟨hu,hobj⟩
  rw [hl] at hmem hstrict
  obtain ⟨-,hrest,hfront⟩ := List.pairwise_append.mp hstrict
  rcases List.mem_append.mp hmem with hmem | hmem
  · exact absurd hlt (not_lt.mpr (hfront u hmem v List.mem_cons_self).le)
  · rcases List.mem_cons.mp hmem with rfl | hmem
    · exact absurd hlt (lt_irrefl _)
    · cases rest with
      | nil => cases hmem
      | cons w after =>
        refine ⟨w,⟨before,after,hl⟩,?_⟩
        rcases List.mem_cons.mp hmem with rfl | hmem
        · exact le_rfl
        · exact ((List.pairwise_cons.mp (List.pairwise_cons.mp hrest).2).1 u hmem).le

/-- Only the last version of a timeline may be open. -/
theorem Follows.closed {hash : State → String} {t : Table} (h : WellFormed hash t)
    {v w : ObjectVersion} (hf : Follows t v w) : ∃ e, v.validTo = some e ∧ e ≤ w.validFrom := by
  obtain ⟨before,after,hl⟩ := hf
  obtain ⟨-,hchain⟩ := checkTimeline_none.mp (h.timeline v.object)
  rw [hl] at hchain
  exact (List.isChain_cons_cons.mp hchain.right_of_append).1

/-- A version follows one version at most. -/
theorem Follows.unique_left {t : Table} {p q v : ObjectVersion} (hp : Follows t p v)
    (hq : Follows t q v) : p = q := by
  obtain ⟨hpm,-,hpobj⟩ := hp.mem
  obtain ⟨hqm,-,hqobj⟩ := hq.mem
  have hobj : p.object = q.object := hpobj.symm.trans hqobj
  by_contra hne
  rcases lt_or_gt_of_ne (t.compatible_of_ne hpm hqm hne hobj).1 with hlt | hlt
  · rcases hp.next.2 q hqm hobj.symm hlt with rfl | hlt'
    · exact absurd hq.next.1 (lt_irrefl _)
    · exact absurd hq.next.1 (lt_asymm hlt')
  · rcases hq.next.2 p hpm hobj hlt with rfl | hlt'
    · exact absurd hp.next.1 (lt_irrefl _)
    · exact absurd hp.next.1 (lt_asymm hlt')

/-- A version that something starts before follows a version. -/
theorem follows_of_earlier {t : Table} {u v : ObjectVersion} (hu : u ∈ t.rows) (hv : v ∈ t.rows)
    (hobj : u.object = v.object) (hlt : u.validFrom < v.validFrom) : ∃ p, Follows t p v := by
  obtain ⟨before,after,hl⟩ := List.append_of_mem (mem_timelineOf.mpr ⟨hv,rfl⟩)
  rcases List.eq_nil_or_concat before with rfl | ⟨front,p,rfl⟩
  · have hstrict := timeline_strict t v.object
    have hin : u ∈ timelineOf t v.object := mem_timelineOf.mpr ⟨hu,hobj⟩
    rw [hl] at hstrict hin
    rcases List.mem_cons.mp hin with rfl | hin
    · exact absurd hlt (lt_irrefl _)
    · exact absurd hlt (lt_asymm ((List.pairwise_cons.mp hstrict).1 u hin))
  · have hp : p ∈ timelineOf t v.object := by
      rw [hl]
      simp
    exact ⟨p,front,after,by rw [(mem_timelineOf.mp hp).2, hl]; simp⟩

/-- A version that follows none has no window. -/
theorem openedWindow_first {t : Table} {v : ObjectVersion} (hv : v ∈ t.rows)
    (hfirst : ∀ p, ¬ Follows t p v) : openedWindow (timelineOf t v.object) v = none := by
  obtain ⟨before,after,hl⟩ := List.append_of_mem (mem_timelineOf.mpr ⟨hv,rfl⟩)
  rcases List.eq_nil_or_concat before with rfl | ⟨front,p,rfl⟩
  · unfold openedWindow
    rw [hl, List.nil_append, List.idxOf_cons_self]
    rfl
  · have hp : p ∈ timelineOf t v.object := by
      rw [hl]
      simp
    exact absurd ⟨front,after,by rw [(mem_timelineOf.mp hp).2, hl]; simp⟩ (hfirst p)

/-- A version that follows another opened after that one was last seen. -/
theorem Follows.window {t : Table} {p v : ObjectVersion} (hf : Follows t p v) :
    openedWindow (timelineOf t v.object) v = some ⟨p.lastSeenAt,v.validFrom⟩ := by
  obtain ⟨-,-,hobj⟩ := hf.mem
  obtain ⟨before,after,hl⟩ := hf
  have hnodup := timelineOf_nodup t p.object
  rw [hl] at hnodup
  have hnot : v ∉ before ++ [p] := by
    intro hm
    rw [List.append_cons] at hnodup
    exact (List.nodup_append.mp hnodup).2.2 v hm v List.mem_cons_self rfl
  have hindex : (timelineOf t v.object).idxOf v = before.length+1 := by
    rw [hobj, hl, List.append_cons, List.idxOf_append_of_notMem hnot, List.idxOf_cons_self,
      List.length_append, List.length_singleton, Nat.add_zero]
  have hget : (timelineOf t v.object)[before.length]? = some p := by
    rw [hobj, hl]
    simp
  unfold openedWindow
  simp only [hindex, Nat.add_sub_cancel, hget]
  rfl

/-! ### What a prune keeps -/

/-- A version is deleted when it ended before the cutoff and a later one has ended. -/
theorem prunable_iff {rows : List ObjectVersion} {cutoff : Instant} {v : ObjectVersion} :
    prunable rows cutoff v = true ↔ (∃ e, v.validTo = some e ∧ e < cutoff) ∧
      ∃ w ∈ rows, w.object = v.object ∧ w.isOpen = false ∧ v.validFrom < w.validFrom := by
  unfold prunable
  rw [Bool.and_eq_true, Option.any_eq_true, List.any_eq_true]
  simp only [decide_eq_true_eq]

section Prune
variable {t : Table} {cutoff : Instant} {v w : ObjectVersion}

theorem mem_prune : v ∈ (prune cutoff t).rows ↔ v ∈ t.rows ∧ prunable t.rows cutoff v = false := by
  show v ∈ t.rows.filter _ ↔ _
  rw [List.mem_filter, Bool.not_eq_true']

theorem timelineOf_prune (object : Object) : timelineOf (prune cutoff t) object =
    (timelineOf t object).filter fun v => !prunable t.rows cutoff v := by
  show sortedBy ObjectVersion.validFrom _ = (sortedBy ObjectVersion.validFrom _).filter _
  rw [sortedBy_filter]
  congr 1
  show (t.rows.filter _).filter _ = _
  rw [List.filter_filter, List.filter_filter]
  exact List.filter_congr fun v _ => Bool.and_comm ..

/-- A prune leaves timelines of valid versions. -/
theorem prune_wellFormed {hash : State → String} (h : WellFormed hash t) :
    WellFormed hash (prune cutoff t) := by
  have hsub : ∀ object, (timelineOf (prune cutoff t) object).Sublist (timelineOf t object) :=
    fun object => by
      rw [timelineOf_prune]
      exact List.filter_sublist
  refine ⟨fun object => checkTimeline_none.mpr ⟨fun v hv => ?_,?_⟩,fun object v hv => ?_,
    fun object moment v hv w hw => ?_⟩
  · exact (mem_timelineOf.mp hv).2
  · obtain ⟨-,hchain⟩ := checkTimeline_none.mp (h.timeline object)
    have hforward : ∀ v ∈ timelineOf t object, v.span.Forward := fun v hv =>
      (validate_ok.mp (h.valid object v hv)).forward
    exact InOrder.chain ((inOrder_of_chain hforward hchain).sublist (hsub object))
  · exact h.valid object v ((hsub object).subset hv)
  · exact h.unambiguous object moment v ((hsub object).subset hv) w ((hsub object).subset hw)

/-- A version of the object that ended, after all others that did. -/
structure NewestClosed (t : Table) (v : ObjectVersion) : Prop where
  closed : v.isOpen = false
  newest : ∀ w ∈ t.rows, w.object = v.object → w.isOpen = false → w.validFrom ≤ v.validFrom

theorem NewestClosed.kept (h : NewestClosed t v) : prunable t.rows cutoff v = false := by
  rw [← Bool.not_eq_true, prunable_iff]
  rintro ⟨-,w,hw,hobj,hclosed,hlt⟩
  exact absurd hlt (not_lt.mpr (h.newest w hw hobj hclosed))

theorem open_kept (h : v.isOpen = true) : prunable t.rows cutoff v = false := by
  rw [← Bool.not_eq_true, prunable_iff]
  rintro ⟨⟨e,he,-⟩,-⟩
  rw [open_iff.mp h] at he
  cases he

/-- An object with a closed version has a newest one. -/
theorem exists_newestClosed (hv : v ∈ t.rows) (hclosed : v.isOpen = false) :
    ∃ w ∈ t.rows, w.object = v.object ∧ NewestClosed t w := by
  obtain ⟨w,hw,hmax⟩ := Finset.exists_max_image
    (t.rows.filter fun w => w.object = v.object ∧ w.isOpen = false).toFinset (·.validFrom)
    ⟨v,by simp [hv, hclosed]⟩
  simp only [List.mem_toFinset, List.mem_filter, decide_eq_true_eq] at hw hmax
  exact ⟨w,hw.1,hw.2.1,hw.2.2,fun u hu hobj hu' => hmax u ⟨hu,hobj.trans hw.2.1,hu'⟩⟩

/-- Two prunes delete what the one with the later cutoff deletes alone. -/
theorem prune_prune (first later : Instant) (hle : first ≤ later) :
    (prune later (prune first t)) = prune later t := by
  have hrows : ((prune first t).rows.filter fun v => !prunable (prune first t).rows later v) =
      t.rows.filter fun v => !prunable t.rows later v := by
    show (t.rows.filter _).filter _ = _
    rw [List.filter_filter]
    refine List.filter_congr fun v hv => ?_
    rw [Bool.eq_iff_iff, Bool.and_eq_true, Bool.not_eq_true', Bool.not_eq_true', Bool.not_eq_true',
      ← Bool.not_eq_true, ← Bool.not_eq_true, ← Bool.not_eq_true, prunable_iff, prunable_iff,
      prunable_iff]
    constructor
    · rintro ⟨hlater,-⟩ ⟨hended,w,hw,hobj,hclosed,hlt⟩
      -- the newest closed version is left by the first prune and still protects nothing older
      obtain ⟨u,hu,huobj,hnewest⟩ := exists_newestClosed hw hclosed
      refine hlater ⟨hended,u,mem_prune.mpr ⟨hu,hnewest.kept⟩,huobj.trans hobj,hnewest.closed,?_⟩
      exact hlt.trans_le (hnewest.newest w hw huobj.symm hclosed)
    · intro hkept
      refine ⟨fun ⟨hended,w,hw,hrest⟩ => hkept ⟨hended,w,(mem_prune.mp hw).1,hrest⟩,?_⟩
      exact fun ⟨⟨e,he,hlt⟩,hrest⟩ => hkept ⟨⟨e,he,hlt.trans_le hle⟩,hrest⟩
  unfold prune retain
  congr 1

/-- Neighbours that both stay are neighbours still. -/
theorem follows_prune {p : ObjectVersion} (hf : Follows t p v)
    (hp : prunable t.rows cutoff p = false) (hv : prunable t.rows cutoff v = false) :
    Follows (prune cutoff t) p v := by
  obtain ⟨before,after,hl⟩ := hf
  refine ⟨before.filter (fun v => !prunable t.rows cutoff v),
    after.filter (fun v => !prunable t.rows cutoff v),?_⟩
  rw [timelineOf_prune, hl, List.filter_append, List.filter_cons_of_pos (by rw [hp]; rfl),
    List.filter_cons_of_pos (by rw [hv]; rfl)]

end Prune

/-! ### What is promised -/

/-- What the deletions of a prune leave and what they take. -/
structure Forgets (t t' : Table) (cutoff : Instant) : Prop where
  stored : ∀ v ∈ t'.rows, v ∈ t.rows
  kept : ∀ v ∈ t.rows, v.isOpen = true ∨ NewestClosed t v → v ∈ t'.rows
  answers : ∀ object moment, cutoff ≤ moment →
    (timelineOf t' object).find? (·.covers moment) =
      (timelineOf t object).find? (·.covers moment) ∧
    ((timelineOf t' object).find? (·.covers moment)).map (·.certaintyAt moment) =
      ((timelineOf t object).find? (·.covers moment)).map (·.certaintyAt moment)
  windows : ∀ v ∈ t.rows, (∃ moment, cutoff ≤ moment ∧ v.covers moment = true) →
    openedWindow (timelineOf t' v.object) v = openedWindow (timelineOf t v.object) v
  successors : ∀ v ∈ t.rows, v ∉ t'.rows →
    ∃ w, Follows t v w ∧ ∃ e, w.validTo = some e ∧ e < cutoff

/-- No version that ended before the cutoff is followed by one that ended at it or after. -/
def EndedBefore (t : Table) (cutoff : Instant) : Prop :=
  ∀ v w, Follows t v w → ∀ e, v.validTo = some e → e < cutoff →
    ∀ f, w.validTo = some f → f < cutoff

section Promise
variable {hash : State → String} {t : Table} {cutoff : Instant}

/-- A version that answers for an instant of the window stays. -/
theorem answering_kept {v : ObjectVersion} {moment : Instant} (hle : cutoff ≤ moment)
    (hc : v.covers moment = true) : prunable t.rows cutoff v = false := by
  rw [← Bool.not_eq_true, prunable_iff]
  rintro ⟨⟨e,he,hlt⟩,-⟩
  have hmoment := ((v.covers_iff moment).mp hc).2 e he
  exact absurd hmoment (not_lt.mpr (hlt.le.trans hle))

/-- The window is answered as before, whatever was deleted. -/
theorem prune_answers (object : Object) {moment : Instant} (hle : cutoff ≤ moment) :
    (timelineOf (prune cutoff t) object).find? (·.covers moment) =
      (timelineOf t object).find? (·.covers moment) := by
  rw [timelineOf_prune, List.find?_filter]
  apply List.find?_congr
  intro v _
  cases hc : v.covers moment with
  | false => simp
  | true =>
    rw [answering_kept hle hc]
    rfl

/-- The predecessor of a version that answers for the window is deleted only where the
version has ended since. -/
theorem predecessor_kept (h : WellFormed hash t) (hended : EndedBefore t cutoff)
    {p v : ObjectVersion} {moment : Instant} (hf : Follows t p v) (hle : cutoff ≤ moment)
    (hc : v.covers moment = true) : prunable t.rows cutoff p = false := by
  rw [← Bool.not_eq_true, prunable_iff]
  rintro ⟨⟨e,he,hlt⟩,w,hw,hobj,hclosed,hafter⟩
  cases hv : v.validTo with
  | some f =>
    have hmoment := ((v.covers_iff moment).mp hc).2 f hv
    exact absurd (hended p v hf e he hlt f hv) (not_lt.mpr (hle.trans hmoment.le))
  | none =>
    -- nothing comes after an open version, so the later closed one cannot be there
    have hvobj := hf.mem.2.2
    rcases hf.next.2 w hw hobj hafter with rfl | hlt
    · rw [open_iff.mpr hv] at hclosed
      cases hclosed
    · obtain ⟨u,hu,-⟩ := follows_of_later hf.mem.2.1 hw (hobj.trans hvobj.symm) hlt
      obtain ⟨f,hf',-⟩ := hu.closed h
      rw [hv] at hf'
      cases hf'

/-- A version that answers for the window is opened in the same window as before. -/
theorem window_kept (h : WellFormed hash t) (hended : EndedBefore t cutoff) {v : ObjectVersion}
    {moment : Instant} (hv : v ∈ t.rows) (hle : cutoff ≤ moment) (hc : v.covers moment = true) :
    openedWindow (timelineOf (prune cutoff t) v.object) v =
      openedWindow (timelineOf t v.object) v := by
  by_cases hfirst : ∃ p, Follows t p v
  · obtain ⟨p,hf⟩ := hfirst
    have hkept := predecessor_kept h hended hf hle hc
    rw [hf.window, (follows_prune hf hkept (answering_kept hle hc)).window]
  · rw [not_exists] at hfirst
    rw [openedWindow_first hv hfirst]
    refine openedWindow_first (mem_prune.mpr ⟨hv,answering_kept hle hc⟩) fun p hp => ?_
    obtain ⟨hpm,-,hobj⟩ := hp.mem
    obtain ⟨q,hq⟩ := follows_of_earlier (mem_prune.mp hpm).1 hv hobj.symm hp.next.1
    exact hfirst q hq

/-- What starts no later than a closed version has ended. -/
theorem ended_of_later (h : WellFormed hash t) {u w : ObjectVersion} (hu : u ∈ t.rows)
    (hw : w ∈ t.rows) (hobj : w.object = u.object) (hclosed : w.isOpen = false)
    (hle : u.validFrom ≤ w.validFrom) : ∃ e, u.validTo = some e := by
  by_cases heq : u = w
  · rw [heq]
    exact closed_iff.mp hclosed
  · have hne := (t.compatible_of_ne hu hw heq hobj.symm).1
    obtain ⟨x,hx,-⟩ := follows_of_later hu hw hobj (lt_of_le_of_ne hle hne)
    obtain ⟨e,he,-⟩ := hx.closed h
    exact ⟨e,he⟩

/-- One prune keeps the promise exactly when the neighbours ended together. -/
theorem prune_forgets_iff (h : WellFormed hash t) :
    Forgets t (prune cutoff t) cutoff ↔ EndedBefore t cutoff := by
  constructor
  · intro hforgets v w hf e he hlt f hw
    obtain ⟨hv,hwm,hobj⟩ := hf.mem
    have hdeleted : v ∉ (prune cutoff t).rows := by
      intro hm
      obtain ⟨-,hkept⟩ := mem_prune.mp hm
      rw [← Bool.not_eq_true, prunable_iff] at hkept
      exact hkept ⟨⟨e,he,hlt⟩,w,hwm,hobj,closed_iff.mpr ⟨f,hw⟩,hf.next.1⟩
    obtain ⟨u,hu,g,hg,hbefore⟩ := hforgets.successors v hv hdeleted
    obtain rfl := hf.unique hu
    obtain rfl : f = g := Option.some.inj (hw.symm.trans hg)
    exact hbefore
  · intro hended
    refine ⟨fun v hv => (mem_prune.mp hv).1,fun v hv hkept => mem_prune.mpr ⟨hv,?_⟩,
      fun object moment hle => ?_,fun v hv hcovers => ?_,fun v hv hdeleted => ?_⟩
    · rcases hkept with hopen | hnewest
      · exact open_kept hopen
      · exact hnewest.kept
    · have hsame := prune_answers (t := t) object hle
      exact ⟨hsame,by rw [hsame]⟩
    · obtain ⟨moment,hle,hc⟩ := hcovers
      exact window_kept h hended hv hle hc
    · have hprunable : prunable t.rows cutoff v = true := by
        rw [← Bool.not_eq_false]
        exact fun hk => hdeleted (mem_prune.mpr ⟨hv,hk⟩)
      obtain ⟨⟨e,he,hlt⟩,w,hw,hobj,hclosed,hafter⟩ := prunable_iff.mp hprunable
      obtain ⟨u,hu,hle⟩ := follows_of_later hv hw hobj hafter
      obtain ⟨f,hf⟩ := ended_of_later h hu.mem.2.1 hw (hobj.trans hu.mem.2.2.symm) hclosed hle
      exact ⟨u,hu,f,hf,hended v u hu e he hlt f hf⟩

end Promise

/-- Prunes at earlier instants add nothing to what the last one deletes. -/
theorem applyAll_last (policy : RetentionPolicy) (henabled : policy.enabled = true)
    (earlier : List Instant) (now : Instant) (hle : ∀ m ∈ earlier, m ≤ now) (t : Table) :
    applyAll policy (earlier ++ [now]) t = .ok (prune (now-policy.retainDays*RetentionPolicy.day) t) := by
  have hone : ∀ (now : Instant) (rest : List Instant) (t : Table),
      applyAll policy (now :: rest) t =
        applyAll policy rest (prune (now-policy.retainDays*RetentionPolicy.day) t) := by
    intro now rest t
    show (apply policy now t >>= fun r => applyAll policy rest r.1) = _
    unfold apply
    rw [henabled, policy.cutoff_enabled henabled now]
    rfl
  induction earlier generalizing t with
  | nil => exact hone now [] t
  | cons m earlier ih =>
    rw [List.cons_append, hone, ih fun m hm => hle m (List.mem_cons_of_mem _ hm)]
    rw [prune_prune _ _ (Int.sub_le_sub_right (hle m List.mem_cons_self) _)]

/-- However often the policy was applied before, what it deletes and leaves is as
promised exactly when no version outlived a cutoff its predecessor did not. -/
theorem retention_iff (hash : State → String) (policy : RetentionPolicy)
    (henabled : policy.enabled = true) (t : Table) (h : WellFormed hash t)
    (earlier : List Instant) (now : Instant) (hle : ∀ m ∈ earlier, m ≤ now) :
    ∃ t' c, applyAll policy (earlier ++ [now]) t = .ok t' ∧ policy.cutoff now = some c ∧
      WellFormed hash t' ∧ (Forgets t t' c ↔ EndedBefore t c) :=
  ⟨_,_,applyAll_last policy henabled earlier now hle t,policy.cutoff_enabled henabled now,
    prune_wellFormed h,prune_forgets_iff h⟩

namespace Sample

def digest (state : State) : String :=
  (state.head?.bind fun c => match c.2 with
    | .text s => some s
    | _ => none).getD ""

def version (name : String) (validFrom lastSeenAt : Instant) (validTo : Option Instant) :
    ObjectVersion where
  versionId := 0
  kind := .server
  key := "fs01"
  isPresent := true
  state := some [("name",.text name)]
  stateHash := some name
  validFrom := validFrom
  lastSeenAt := lastSeenAt
  validTo := validTo
  closeReason := validTo.map fun _ => .superseded
  openedByRunId := "r1"
  lastSeenRunId := "r1"
  closedByRunId := validTo.map fun _ => "r1"

/-- The second state lasted from before the cutoff until after it. -/
def versions : List ObjectVersion :=
  [version "first" 0 5 (some 10), version "second" 10 90 (some 100), version "third" 100 100 none]

def policy : RetentionPolicy where
  retainDays := 30
  enabled := true
  checked := by decide

def now : Instant := 30*RetentionPolicy.day+50

theorem sound {t : Table} (h : Table.blank.insertAll versions = .ok t) : Sound digest t := by
  have hrows : t.rows = numberedFrom 0 versions := (Table.insertAll_ok h).1
  have hall : (∀ v ∈ numberedFrom 0 versions, v.validate digest = .ok v) ∧
      (∀ v ∈ numberedFrom 0 versions, v.validTo.all (v.validFrom < ·) = true) ∧
      (∀ v ∈ numberedFrom 0 versions, ∀ w ∈ numberedFrom 0 versions, v = w ∨
        v.validTo.any (· ≤ w.validFrom) = true ∨ w.validTo.any (· ≤ v.validFrom) = true) ∧
      ∀ v ∈ numberedFrom 0 versions, ∃ w ∈ numberedFrom 0 versions,
        w.object = v.object ∧ w.isOpen = true := by decide
  have hbefore : ∀ {v w : ObjectVersion}, v.validTo.any (· ≤ w.validFrom) = true →
      v.span.Before w.span := by
    intro v w hb
    obtain ⟨e,he,hle⟩ := Option.any_eq_true _ _ |>.mp hb
    exact ⟨e,he,of_decide_eq_true hle⟩
  refine ⟨fun v hv => ?_,fun v hv e he => ?_,fun v hv w hw hne _ => ?_,fun v hv => ?_⟩
  · exact validate_ok.mp (hall.1 v (hrows ▸ hv))
  · have hlt := hall.2.1 v (hrows ▸ hv)
    rw [show v.validTo = some e from he] at hlt
    exact of_decide_eq_true hlt
  · rcases hall.2.2.1 v (hrows ▸ hv) w (hrows ▸ hw) with heq | hb | hb
    · exact absurd heq hne
    · exact .inl (hbefore hb)
    · exact .inr (hbefore hb)
  · rw [hrows] at hv ⊢
    exact hall.2.2.2 v hv

end Sample

theorem retention_iff_sample : ∃ t t' c,
    applyAll Sample.policy ([0,1] ++ [Sample.now]) t = .ok t' ∧
      Sample.policy.cutoff Sample.now = some c ∧ WellFormed Sample.digest t' ∧
      (Forgets t t' c ↔ EndedBefore t c) := by
  obtain ⟨t,h⟩ := HistorySteps.returned (x := Table.blank.insertAll Sample.versions) (by decide)
  obtain ⟨t',c,hrest⟩ := retention_iff Sample.digest Sample.policy rfl t (Sample.sound h).wellFormed
    [0,1] Sample.now (by decide)
  exact ⟨t,t',c,hrest⟩

/-- The version before the cutoff is deleted, and with it the window in which a version
that outlived the cutoff was opened. -/
theorem window_lost : ∃ t t' c, WellFormed Sample.digest t ∧
    Sample.policy.enabled = true ∧ applyAll Sample.policy [Sample.now] t = .ok t' ∧
    Sample.policy.cutoff Sample.now = some c ∧ ¬ Forgets t t' c ∧
    ∃ v ∈ t.rows, v.covers c = true ∧
      openedWindow (timelineOf t v.object) v = some ⟨5,10⟩ ∧
      openedWindow (timelineOf t' v.object) v = none := by
  obtain ⟨t,h⟩ := HistorySteps.returned (x := Table.blank.insertAll Sample.versions) (by decide)
  have hrows : t.rows = numberedFrom 0 Sample.versions := (Table.insertAll_ok h).1
  obtain ⟨t',c,happly,hcutoff,-,hiff⟩ := retention_iff Sample.digest Sample.policy rfl t
    (Sample.sound h).wellFormed [] Sample.now (by decide)
  obtain rfl : 50 = c := Option.some.inj hcutoff
  obtain rfl : prune 50 t = t' :=
    Except.ok.inj ((applyAll_last Sample.policy rfl [] Sample.now (by decide) t).symm.trans happly)
  set first := numbered 0 (Sample.version "first" 0 5 (some 10)) with hfirst
  set second := numbered 1 (Sample.version "second" 10 90 (some 100)) with hsecond
  set third := numbered 2 (Sample.version "third" 100 100 none)
  have hline : timelineOf t first.object = [first,second,third] := by
    unfold timelineOf
    rw [hrows]
    decide
  have hfollows : Follows t first second := ⟨[],[third],hline⟩
  have hkept : timelineOf (prune 50 t) first.object = [second,third] := by
    rw [timelineOf_prune, hline, hrows]
    decide
  refine ⟨t,_,50,(Sample.sound h).wellFormed,rfl,happly,hcutoff,fun hforgets => ?_,second,
    hfollows.mem.2.1,by decide,hfollows.window,?_⟩
  · have hlate := hiff.mp hforgets first second hfollows 10 rfl (by decide) 100 rfl
    exact absurd hlate (by decide)
  · show openedWindow (timelineOf (prune 50 t) first.object) second = none
    rw [hkept]
    decide

end Adg.HistoryRetention
