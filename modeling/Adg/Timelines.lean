import Adg.ClosureSteps

/-!
# Timelines stay timelines

The versions of an object do not overlap and only the last may be open. A call
keeps that, and is not refused, exactly when no reading pulls an open version
back over an earlier one and no scope is closed at the very instant a version
it loses began.
-/

set_option autoImplicit false

namespace Adg.Timelines
open Adg.Observation Adg.Intervals Adg.ObjectVersions Adg.VersionTable Adg.CurrentState
open Adg.ScopeClosure Adg.HistoryWriter Adg.HistorySteps Adg.ClosureSteps

/-- The stored versions of an object, ordered by `valid_from`. -/
def timelineOf (t : Table) (object : Object) : List ObjectVersion :=
  (t.rows.filter (·.object = object)).insertionSort fun v w => v.validFrom ≤ w.validFrom

/-- Every object's versions make a timeline of valid versions, and no instant
is answered for twice. -/
structure WellFormed (hash : State → String) (t : Table) : Prop where
  timeline : ∀ object, checkTimeline object none (timelineOf t object) = .ok ()
  valid : ∀ object, ∀ v ∈ timelineOf t object, v.validate hash = .ok v
  unambiguous : ∀ object moment, ∀ v ∈ timelineOf t object, ∀ w ∈ timelineOf t object,
    v.covers moment = true → w.covers moment = true → v = w

/-- What the calls keep, row by row. -/
structure Sound (hash : State → String) (t : Table) : Prop where
  valid : ∀ v ∈ t.rows, Valid hash v
  proper : ∀ v ∈ t.rows, v.span.Proper
  apart : ∀ v ∈ t.rows, ∀ w ∈ t.rows, v ≠ w → v.object = w.object → v.span.Apart w.span
  opened : ∀ v ∈ t.rows, ∃ w ∈ t.rows, w.object = v.object ∧ w.isOpen = true

theorem mem_timelineOf {t : Table} {object : Object} {v : ObjectVersion} :
    v ∈ timelineOf t object ↔ v ∈ t.rows ∧ v.object = object := by
  unfold timelineOf
  rw [List.mem_insertionSort, List.mem_filter, decide_eq_true_iff]

theorem timelineOf_perm (t : Table) (object : Object) :
    (timelineOf t object).Perm (t.rows.filter (·.object = object)) := List.perm_insertionSort _ _

theorem timelineOf_sorted (t : Table) (object : Object) :
    (timelineOf t object).Pairwise fun v w => v.span.start ≤ w.span.start := by
  have : Std.Total fun v w : ObjectVersion => v.validFrom ≤ w.validFrom :=
    ⟨fun v w => le_total v.validFrom w.validFrom⟩
  have : IsTrans ObjectVersion fun v w => v.validFrom ≤ w.validFrom :=
    ⟨fun _ _ _ => le_trans⟩
  exact List.pairwise_insertionSort _ _

theorem timelineOf_nodup (t : Table) (object : Object) : (timelineOf t object).Nodup :=
  (timelineOf_perm t object).nodup_iff.mpr ((List.Nodup.of_map _ t.ids_nodup).filter _)

/-- Rows that keep the invariant make timelines. -/
theorem Sound.wellFormed {hash : State → String} {t : Table} (h : Sound hash t) :
    WellFormed hash t := by
  have happart : ∀ object, AllApart ObjectVersion.span (timelineOf t object) := fun object => by
    refine (timelineOf_nodup t object).imp_of_mem fun {v w} hv hw hne => ?_
    obtain ⟨hv,hvo⟩ := mem_timelineOf.mp hv
    obtain ⟨hw,hwo⟩ := mem_timelineOf.mp hw
    exact h.apart v hv w hw hne (hvo.trans hwo.symm)
  refine ⟨fun object => ?_,fun object v hv => ?_,fun object moment v hv w hw hcv hcw => ?_⟩
  · refine checkTimeline_none.mpr ⟨fun v hv => (mem_timelineOf.mp hv).2,?_⟩
    refine InOrder.chain (AllApart.inOrder (happart object) (fun v hv => ?_)
      (timelineOf_sorted t object))
    exact h.proper v (mem_timelineOf.mp hv).1
  · exact validate_ok.mpr (h.valid v (mem_timelineOf.mp hv).1)
  · obtain ⟨hv,hvo⟩ := mem_timelineOf.mp hv
    obtain ⟨hw,hwo⟩ := mem_timelineOf.mp hw
    by_contra hne
    exact (h.apart v hv w hw hne (hvo.trans hwo.symm)).not_both
      ((v.covers_iff moment).mp hcv) ((w.covers_iff moment).mp hcw)

/-- In a timeline two versions of an object lie apart. -/
theorem WellFormed.apart {hash : State → String} {t : Table} (h : WellFormed hash t)
    {v w : ObjectVersion} (hv : v ∈ t.rows) (hw : w ∈ t.rows) (hne : v ≠ w)
    (hobj : v.object = w.object) : v.span.Apart w.span := by
  obtain ⟨-,hchain⟩ := checkTimeline_none.mp (h.timeline w.object)
  have horder : InOrder ObjectVersion.span (timelineOf t w.object) :=
    inOrder_of_chain (fun x hx => (validate_ok.mp (h.valid _ x hx)).forward) hchain
  have : Std.Symm fun x y : ObjectVersion => x.span.Apart y.span := ⟨fun _ _ hab => hab.symm⟩
  exact List.Pairwise.forall horder.allApart (mem_timelineOf.mpr ⟨hv,hobj⟩)
    (mem_timelineOf.mpr ⟨hw,rfl⟩) hne

/-! ### What keeps the invariant -/

/-- How a call may move the stored versions and what it may add. -/
structure Advance (hash : State → String) (t : Table) (g : ObjectVersion → ObjectVersion)
    (news : List ObjectVersion) : Prop where
  object : ∀ v ∈ t.rows, (g v).object = v.object
  valid : ∀ v ∈ t.rows, Valid hash (g v)
  closed : ∀ v ∈ t.rows, v.isOpen = false → g v = v
  grown : ∀ v ∈ t.rows, v.isOpen = true → (g v).isOpen = true → ∀ w ∈ t.rows,
    w.object = v.object → ∀ e, w.validTo = some e → e ≤ (g v).validFrom
  ended : ∀ v ∈ t.rows, v.isOpen = true → ∀ e, (g v).validTo = some e →
    (g v).validFrom = v.validFrom ∧ v.validFrom < e ∧ ∃ x ∈ news, x.object = v.object
  newValid : ∀ x ∈ news, Valid hash x ∧ x.isOpen = true
  after : ∀ x ∈ news, ∀ v ∈ t.rows, v.object = x.object →
    ∃ e, (g v).validTo = some e ∧ e ≤ x.validFrom

theorem open_iff {v : ObjectVersion} : v.isOpen = true ↔ v.validTo = none := by
  unfold ObjectVersion.isOpen
  exact Option.isNone_iff_eq_none

theorem closed_iff {v : ObjectVersion} : v.isOpen = false ↔ ∃ e, v.validTo = some e := by
  rw [← Bool.not_eq_true, open_iff]
  exact Option.ne_none_iff_exists'

/-- Beside an open version, the other versions of the object have ended. -/
theorem Sound.ends_before {hash : State → String} {t : Table} (h : Sound hash t)
    {v w : ObjectVersion} (hv : v ∈ t.rows) (hw : w ∈ t.rows) (hne : w ≠ v)
    (hobj : w.object = v.object) (hopen : v.isOpen = true) :
    ∃ e, w.validTo = some e ∧ e ≤ v.validFrom := by
  rcases h.apart w hw v hv hne hobj with hb | ⟨e,he,-⟩
  · exact hb
  · rw [show v.span.stop = v.validTo from rfl, open_iff.mp hopen] at he
    cases he

variable {hash : State → String} {t : Table} {g : ObjectVersion → ObjectVersion}
  {news : List ObjectVersion}

theorem Advance.moved (h : Sound hash t) (ha : Advance hash t g news) {v : ObjectVersion}
    (hv : v ∈ t.rows) : (g v).span.Proper := by
  intro e he
  cases hopen : v.isOpen with
  | false =>
    rw [ha.closed v hv hopen] at he ⊢
    exact h.proper v hv e he
  | true =>
    obtain ⟨hfrom,hlt,-⟩ := ha.ended v hv hopen e he
    rw [show (g v).span.start = (g v).validFrom from rfl, hfrom]
    exact hlt

/-- An older version stays before the one that was open. -/
theorem Advance.behind (h : Sound hash t) (ha : Advance hash t g news)
    {v w : ObjectVersion} (hv : v ∈ t.rows) (hw : w ∈ t.rows) (hne : w ≠ v)
    (hobj : w.object = v.object) (hopen : v.isOpen = true) : (g w).span.Before (g v).span := by
  obtain ⟨e,he,hle⟩ := h.ends_before hv hw hne hobj hopen
  rw [ha.closed w hw (closed_iff.mpr ⟨e,he⟩)]
  refine ⟨e,he,?_⟩
  cases hg : (g v).isOpen with
  | true => exact ha.grown v hv hopen hg w hw hobj e he
  | false =>
    obtain ⟨f,hf⟩ := closed_iff.mp hg
    rw [show (g v).span.start = (g v).validFrom from rfl, (ha.ended v hv hopen f hf).1]
    exact hle

theorem Advance.sound (h : Sound hash t) (ha : Advance hash t g news) {t' : Table} {n : ℕ}
    (hrows : t'.rows = t.rows.map g ++ numberedFrom n news) : Sound hash t' := by
  have hmem := mem_moved hrows
  have hstored := moved_stored hrows
  have hadded := moved_added hrows
  refine ⟨fun r hr => ?_,fun r hr => ?_,fun r hr s hs hne hobj => ?_,fun r hr => ?_⟩
  · rcases hmem r hr with ⟨v,hv,rfl⟩ | ⟨x,hx,m,-,rfl⟩
    · exact ha.valid v hv
    · obtain ⟨hx,-⟩ := ha.newValid x hx
      exact ⟨hx.confirmed,hx.closed,hx.reason,hx.run,hx.presence,hx.digest,hx.own⟩
  · rcases hmem r hr with ⟨v,hv,rfl⟩ | ⟨x,hx,m,-,rfl⟩
    · exact ha.moved h hv
    · intro e he
      rw [show (numbered m x).span.stop = x.validTo from rfl,
        open_iff.mp (ha.newValid x hx).2] at he
      cases he
  · have hnew : ∀ v ∈ t.rows, ∀ x ∈ news, ∀ m, v.object = x.object →
        (g v).span.Before (numbered m x).span := fun v hv x hx m hvx => ha.after x hx v hv hvx
    rcases hmem r hr with ⟨v,hv,rfl⟩ | ⟨x,hx,m,-,rfl⟩
    · rw [ha.object v hv] at hobj
      rcases hmem s hs with ⟨w,hw,rfl⟩ | ⟨x,hx,m,-,rfl⟩
      · rw [ha.object w hw] at hobj
        have hvw : v ≠ w := fun e => hne (by rw [e])
        cases hvo : v.isOpen with
        | true => exact .inr (ha.behind h hv hw hvw.symm hobj.symm hvo)
        | false =>
          cases hwo : w.isOpen with
          | true => exact .inl (ha.behind h hw hv hvw hobj hwo)
          | false =>
            rw [ha.closed v hv hvo, ha.closed w hw hwo]
            exact h.apart v hv w hw hvw hobj
      · exact .inl (hnew v hv x hx m hobj)
    · rcases hmem s hs with ⟨w,hw,rfl⟩ | ⟨y,hy,k,-,rfl⟩
      · rw [ha.object w hw] at hobj
        exact .inr (hnew w hw x hx m hobj.symm)
      · exact absurd ⟨(ha.newValid x hx).2,(ha.newValid y hy).2⟩
          (t'.compatible_of_ne hr hs hne hobj).2
  · rcases hmem r hr with ⟨v,hv,rfl⟩ | ⟨x,hx,m,-,rfl⟩
    · obtain ⟨w,hw,hwobj,hwopen⟩ := h.opened v hv
      cases hg : (g w).isOpen with
      | true => exact ⟨g w,hstored w hw,by rw [ha.object w hw, ha.object v hv, hwobj],hg⟩
      | false =>
        obtain ⟨e,he⟩ := closed_iff.mp hg
        obtain ⟨-,-,x,hx,hxobj⟩ := ha.ended w hw hwopen e he
        obtain ⟨m,hm⟩ := hadded x hx
        refine ⟨numbered m x,hm,?_,(ha.newValid x hx).2⟩
        rw [ha.object v hv, ← hwobj, ← hxobj]
        rfl
    · exact ⟨numbered m x,hr,rfl,(ha.newValid x hx).2⟩

end Adg.Timelines
