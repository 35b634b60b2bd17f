import Adg.Timelines

/-!
# Runs of the history writer

Readings are recorded or affirmed and scopes are closed, in any order. Every
call moves the stored versions in one of the ways that keep timelines, or it
pulls an open version back over one that ended, or it closes a version at the
instant it began.
-/

set_option autoImplicit false

namespace Adg.HistoryRuns
open Adg.Observation Adg.Intervals Adg.ObjectVersions Adg.VersionTable Adg.CurrentState
open Adg.ScopeClosure Adg.HistoryWriter Adg.HistorySteps Adg.ClosureSteps Adg.Timelines
open Adg.Fallible (bind_ok map_ok)

/-- One call on the writer. A closing reads the other tables too. -/
inductive Call where
  | record (kind : ObservationKind) (rows : List Reading)
  | affirm (kind : ObservationKind) (keys : List String) (observedAt : Instant) (runId : RunId)
  | affirmContained (kind : ObservationKind) (containerKeys : List String) (observedAt : Instant)
      (runId : RunId)
  | closeAbsent (db : Database) (runId : RunId) (collector : CollectorKind)
      (scopeKind : ScopeKind) (scopeKey : String) (completedAt : Instant)

section Calls
variable (hash : State → String) (casefold : String → String)

def perform (t : Table) : Call → Except Violation Table
  | .record kind rows => (·.1) <$> record hash kind rows t
  | .affirm kind keys observedAt runId => (·.1) <$> affirm kind keys observedAt runId t
  | .affirmContained kind containerKeys observedAt runId =>
    (·.1) <$> affirmContained kind containerKeys observedAt runId t
  | .closeAbsent db runId collector scopeKind scopeKey completedAt =>
    (·.1) <$> closeAbsent casefold { db with versions := t } runId collector scopeKind scopeKey
      completedAt

/-- A version pulled back to the instant stays behind what ended before it. -/
def ClearBefore (t : Table) (v : ObjectVersion) (moment : Instant) : Prop :=
  moment < v.validFrom → ∀ w ∈ t.rows, w.object = v.object → ∀ e, w.validTo = some e → e ≤ moment

/-- What a call must not meet: an open version it confirms from before the end
of an older one, or a version it closes at the instant that version began. -/
def Admissible (t : Table) : Call → Prop
  | .record kind rows => ∀ e ∈ incoming hash kind rows, ∀ v,
      openVersion t kind e.key = some v → Agrees v e → ClearBefore t v e.observedAt
  | .affirm kind keys observedAt _ => ∀ v ∈ t.rows, v.kind = kind ∧ v.key ∈ keys ∧
      v.isOpen = true ∧ v.isPresent = true → ClearBefore t v observedAt
  | .affirmContained kind containerKeys observedAt _ => ∀ v ∈ t.rows,
      openPresent kind containerKeys v = true → ClearBefore t v observedAt
  | .closeAbsent db runId collector scopeKind scopeKey completedAt => ∀ v ∈ t.rows,
      lostToScope casefold { db with versions := t } runId collector scopeKind scopeKey
        completedAt v = true → v.isPresent = true → v.validFrom ≠ completedAt

/-- Every call of a run is accepted and leaves timelines. -/
def Kept : Table → List Call → Prop
  | _, [] => True
  | t, call :: calls => ∃ t', perform hash casefold t call = .ok t' ∧ WellFormed hash t' ∧
      Kept t' calls

/-- Every call of a run is admissible where it is made. -/
def Met : Table → List Call → Prop
  | _, [] => True
  | t, call :: calls => Admissible hash casefold t call ∧
      ∀ t', perform hash casefold t call = .ok t' → Met t' calls

end Calls

/-! ### Versions that grow -/

section Grow
variable {hash : State → String} {t : Table} {moment : Instant} {runId : RunId}

theorem grow_object (v : ObjectVersion) : (grow moment runId v).object = v.object := by
  rw [grow_eq]
  rfl

theorem grow_isOpen (v : ObjectVersion) : (grow moment runId v).isOpen = v.isOpen := by
  rw [grow_eq]
  rfl

theorem grow_validFrom (v : ObjectVersion) :
    (grow moment runId v).validFrom = if moment < v.validFrom then moment else v.validFrom := by
  rw [grow_eq]

theorem grow_valid {v : ObjectVersion} (h : Valid hash v) (hopen : v.isOpen = true) :
    Valid hash (grow moment runId v) := by
  rw [grow_eq]
  refine ⟨?_,fun e he => ?_,h.reason,h.run,h.presence,h.digest,h.own⟩
  · dsimp only
    split
    · next hb =>
      split
      · exact le_rfl
      · next hf => exact not_lt.mp hf
    · next hb =>
      split
      · next hf => exact h.confirmed.trans hf.le
      · exact h.confirmed
  · dsimp only at he
    rw [open_iff.mp hopen] at he
    cases he

/-- Where nothing ended after the instant, the grown version starts after what
came before it. -/
theorem ends_before_grown (runId : RunId) (h : Sound hash t) {v w : ObjectVersion} (hv : v ∈ t.rows)
    (hw : w ∈ t.rows) (hne : w ≠ v) (hobj : w.object = v.object) (hopen : v.isOpen = true)
    (hclear : ClearBefore t v moment) :
    ∃ e, w.validTo = some e ∧ w.validFrom < e ∧ e ≤ (grow moment runId v).validFrom := by
  obtain ⟨e,he,hle⟩ := h.ends_before hv hw hne hobj hopen
  refine ⟨e,he,h.proper w hw e he,?_⟩
  rw [grow_validFrom]
  split
  · next hb => exact hclear hb w hw hobj e he
  · exact hle

theorem checks_of_valid {v : ObjectVersion} (h : Valid hash v) : checks v = true := by
  refine decide_eq_true ⟨h.confirmed,?_,h.reason,h.run,h.presence,h.digest⟩
  cases hto : v.validTo with
  | none => rfl
  | some e => exact decide_eq_true (h.closed e hto)

/-- A grown version finds its place in the table. -/
theorem grow_fits (runId : RunId) (h : Sound hash t) {v : ObjectVersion} (hv : v ∈ t.rows)
    (hopen : v.isOpen = true) (hclear : ClearBefore t v moment) :
    checks (grow moment runId v) = true ∧ ∀ w ∈ t.rows, w ≠ v → w.object = v.object →
      w.validFrom ≠ (grow moment runId v).validFrom := by
  refine ⟨checks_of_valid (grow_valid (h.valid v hv) hopen),fun w hw hne hobj => ?_⟩
  obtain ⟨e,-,hlt,hle⟩ := ends_before_grown runId h hv hw hne hobj hopen hclear
  exact (hlt.trans_le hle).ne

theorem grow_of_extension {v : ObjectVersion} {u : Table.Update}
    (h : extension v moment runId = some u) : u.2 v = grow moment runId v := by
  unfold grow
  rw [h]

/-- An open version that is closed after its last confirmation. -/
theorem closing_valid {v : ObjectVersion} (h : Valid hash v) (hle : v.lastSeenAt ≤ moment)
    (reason : CloseReason) : Valid hash ((closing v.versionId moment reason runId).2 v) := by
  refine ⟨h.confirmed,fun e he => ?_,rfl,rfl,h.presence,h.digest,h.own⟩
  obtain rfl : moment = e := Option.some.inj he
  exact hle

theorem replacement_valid {v : ObjectVersion} (h : Valid hash v) (hopen : v.isOpen = true)
    {kind : ObservationKind} {r : Reading} (hfrom : r.observedAt = v.validFrom) :
    Valid hash ((replacement v (incomingOf hash kind r)).2 v) := by
  refine ⟨hfrom.ge,fun e he => ?_,h.reason,h.run,rfl,rfl,fun s hs => ?_⟩
  · rw [show ((replacement v (incomingOf hash kind r)).2 v).validTo = v.validTo from rfl,
      open_iff.mp hopen] at he
    cases he
  · obtain rfl : storedState kind r = s := Option.some.inj hs
    rfl

theorem newVersion_valid (hash : State → String) (kind : ObservationKind) (r : Reading) :
    Valid hash (newVersion kind (incomingOf hash kind r)) := by
  refine ⟨le_rfl,(fun e he => nomatch he),rfl,rfl,rfl,rfl,fun s hs => ?_⟩
  obtain rfl : storedState kind r = s := Option.some.inj hs
  rfl

theorem reaffirmation_valid {v : ObjectVersion} (h : Valid hash v) (hopen : v.isOpen = true)
    (hle : v.lastSeenAt ≤ moment) : Valid hash ((reaffirmation v moment runId).2 v) := by
  refine ⟨h.confirmed.trans hle,fun e he => ?_,h.reason,h.run,h.presence,h.digest,h.own⟩
  rw [show ((reaffirmation v moment runId).2 v).validTo = v.validTo from rfl,
    open_iff.mp hopen] at he
  cases he

end Grow

/-! ### The calls -/

section Steps
variable {hash : State → String} {casefold : String → String} {t : Table}

/-- A call that only grows open present versions keeps the rows sound. -/
theorem advance_grown (moment : Instant) (runId : RunId) (h : Sound hash t)
    {g : ObjectVersion → ObjectVersion}
    (hg : ∀ v ∈ t.rows, g v = v ∨ v.isOpen = true ∧ ClearBefore t v moment ∧
      g v = grow moment runId v) : Advance hash t g [] := by
  refine ⟨fun v hv => ?_,fun v hv => ?_,fun v hv hc => ?_,fun v hv ho _ w hw hobj e he => ?_,
    fun v hv ho e he => ?_,fun x hx => absurd hx List.not_mem_nil,
    fun x hx => absurd hx List.not_mem_nil⟩
  · rcases hg v hv with hv' | ⟨-,-,hv'⟩ <;> rw [hv']
    exact grow_object v
  · rcases hg v hv with hv' | ⟨ho,-,hv'⟩ <;> rw [hv']
    · exact h.valid v hv
    · exact grow_valid (h.valid v hv) ho
  · rcases hg v hv with hv' | ⟨ho,-,hv'⟩
    · exact hv'
    · rw [hc] at ho
      cases ho
  · have hne : w ≠ v := by
      rintro rfl
      rw [open_iff.mp ho] at he
      cases he
    rcases hg v hv with hv' | ⟨-,hclear,hv'⟩ <;> rw [hv']
    · obtain ⟨f,hf,hle⟩ := h.ends_before hv hw hne hobj ho
      rw [he] at hf
      cases hf
      exact hle
    · obtain ⟨f,hf,-,hle⟩ := ends_before_grown runId h hv hw hne hobj ho hclear
      rw [he] at hf
      cases hf
      exact hle
  · have hto : (g v).validTo = none := by
      rcases hg v hv with hv' | ⟨-,-,hv'⟩ <;> rw [hv']
      · exact open_iff.mp ho
      · exact open_iff.mp ((grow_isOpen v).trans ho)
    rw [hto] at he
    cases he

/-- A version that was grown back past the end of an older one overlaps it. -/
theorem clearBefore_of_wellFormed (runId : RunId) {t' : Table} (h' : WellFormed hash t')
    {g : ObjectVersion → ObjectVersion} {news : List ObjectVersion} {n : ℕ}
    (hrows : t'.rows = t.rows.map g ++ numberedFrom n news)
    (hclosed : ∀ w ∈ t.rows, w.isOpen = false → g w = w) {v : ObjectVersion} (hv : v ∈ t.rows)
    (hopen : v.isOpen = true) {moment : Instant}
    (hgrow : g v = grow moment runId v) : ClearBefore t v moment := by
  intro hback w hw hobj e he
  have hstored := moved_stored hrows
  have hwc : w.isOpen = false := closed_iff.mpr ⟨e,he⟩
  have hwin := hstored w hw
  have hvin := hstored v hv
  rw [hclosed w hw hwc] at hwin
  rw [hgrow] at hvin
  have hgopen : (grow moment runId v).isOpen = true := (grow_isOpen v).trans hopen
  have hne : w ≠ grow moment runId v := fun hwv => by
    rw [hwv, hgopen] at hwc
    cases hwc
  rcases h'.apart hwin hvin hne (hobj.trans (grow_object v).symm) with ⟨f,hf,hle⟩ | ⟨f,hf,-⟩
  · rw [show w.span.stop = w.validTo from rfl, he] at hf
    cases hf
    rw [show (grow moment runId v).span.start = (grow moment runId v).validFrom from rfl,
      grow_validFrom, if_pos hback] at hle
    exact hle
  · rw [show (grow moment runId v).span.stop = (grow moment runId v).validTo from rfl,
      open_iff.mp hgopen] at hf
    cases hf

/-- A new version finds room behind what the call closed. -/
theorem room (h : Sound hash t) {g : ObjectVersion → ObjectVersion} {news : List ObjectVersion}
    (ha : Advance hash t g news) {x : ObjectVersion} (hx : x ∈ news) {r : ObjectVersion}
    (hr : r ∈ t.rows) : Compatible (g r) x := by
  intro hobj
  obtain ⟨e,he,hle⟩ := ha.after x hx r hr ((ha.object r hr).symm.trans hobj)
  refine ⟨?_,fun hb => ?_⟩
  · exact ((ha.moved h hr e he).trans_le hle).ne
  · rw [open_iff.mp hb.1] at he
    cases he

section Record
variable {kind : ObservationKind} {rows : List Reading}

theorem record_advance (h : Sound hash t) (ha : Admissible hash casefold t (.record kind rows)) :
    Advance hash t (recorded hash kind rows) (opened hash t kind rows) := by
  have hmeets : ∀ v ∈ t.rows, ∀ e : Incoming, v.object = (kind,e.key) → v.isOpen = true →
      openVersion t kind e.key = some v := fun v hv e hobj hopen =>
    openVersion_some.mpr ⟨hv,hobj,hopen⟩
  refine ⟨fun v hv => ?_,fun v hv => ?_,fun v hv hc => recorded_closed hash kind rows hc,
    fun v hv ho hgo w hw hobj f hf => ?_,fun v hv ho f hf => ?_,fun x hx => ?_,
    fun x hx v hv hobj => ?_⟩
  · rcases recorded_cases hash kind rows v with hv' | ⟨e,-,-,-,hm⟩
    · rw [hv']
    · cases hm with
      | agrees _ hw => rw [hw]; exact grow_object v
      | stale _ _ hw => rw [hw]
      | replaced _ _ _ hw => rw [hw]; rfl
      | superseded _ hw => rw [hw]; rfl
  · rcases recorded_cases hash kind rows v with hv' | ⟨e,he,-,hopen,hm⟩
    · rw [hv']
      exact h.valid v hv
    · cases hm with
      | agrees _ hw => rw [hw]; exact grow_valid (h.valid v hv) hopen
      | stale _ _ hw => rw [hw]; exact h.valid v hv
      | replaced _ _ ht hw =>
        obtain ⟨r,-,rfl⟩ := incoming_origin he
        rw [hw]
        exact replacement_valid (h.valid v hv) hopen ht
      | superseded hs hw => rw [hw]; exact closing_valid (h.valid v hv) hs.fresh _
  · have hne : w ≠ v := by
      rintro rfl
      rw [open_iff.mp ho] at hf
      cases hf
    obtain ⟨f',hf',hle⟩ := h.ends_before hv hw hne hobj ho
    obtain rfl : f = f' := Option.some.inj (hf.symm.trans hf')
    rcases recorded_cases hash kind rows v with hv' | ⟨e,he,hvobj,hopen,hm⟩
    · rw [hv']
      exact hle
    · cases hm with
      | agrees hag hw' =>
        rw [hw', grow_validFrom]
        split
        · next hb => exact ha e he v (hmeets v hv e hvobj hopen) hag hb w hw hobj f hf
        · exact hle
      | stale _ _ hw' => rw [hw']; exact hle
      | replaced _ _ _ hw' => rw [hw']; exact hle
      | superseded _ hw' => rw [hw']; exact hle
  · rcases recorded_cases hash kind rows v with hv' | ⟨e,he,hvobj,hopen,hm⟩
    · rw [hv', open_iff.mp ho] at hf
      cases hf
    · cases hm with
      | agrees _ hw =>
        rw [hw, open_iff.mp ((grow_isOpen v).trans ho)] at hf
        cases hf
      | stale _ _ hw =>
        rw [hw, open_iff.mp ho] at hf
        cases hf
      | replaced _ _ _ hw =>
        rw [hw, show ((replacement v e).2 v).validTo = v.validTo from rfl, open_iff.mp ho] at hf
        cases hf
      | superseded hs hw =>
        rw [hw] at hf ⊢
        obtain rfl : e.observedAt = f := Option.some.inj hf
        refine ⟨rfl,?_,newVersion kind e,mem_opened.mpr ⟨e,he,rfl,fun u hu => ?_⟩,hvobj.symm⟩
        · exact lt_of_le_of_ne ((h.valid v hv).confirmed.trans hs.fresh) hs.later.symm
        · rw [hmeets v hv e hvobj hopen] at hu
          cases hu
          exact hs
  · obtain ⟨e,he,rfl,-⟩ := mem_opened.mp hx
    obtain ⟨r,-,rfl⟩ := incoming_origin he
    exact ⟨newVersion_valid hash kind r,rfl⟩
  · obtain ⟨e,he,rfl,hs⟩ := mem_opened.mp hx
    obtain ⟨u,hu,huobj,huopen⟩ := h.opened v hv
    have huo : openVersion t kind e.key = some u := hmeets u hu e (huobj.trans hobj) huopen
    have hsup := hs u huo
    by_cases hvu : v = u
    · subst hvu
      refine ⟨e.observedAt,?_,le_rfl⟩
      rw [recorded_meets he huo]
      cases follow_moved v e with
      | agrees hag => exact absurd hag hsup.differs
      | stale _ hlt => exact absurd hsup.fresh (not_le.mpr hlt)
      | replaced _ _ ht => exact absurd ht hsup.later
      | superseded _ hw => rw [hw]; rfl
    · obtain ⟨f,hf,hle⟩ := h.ends_before hu hv hvu huobj.symm huopen
      rw [recorded_closed hash kind rows (closed_iff.mpr ⟨f,hf⟩)]
      exact ⟨f,hf,hle.trans ((h.valid u hu).confirmed.trans hsup.fresh)⟩

/-- A recording whose confirmations are clear is accepted. -/
theorem record_accepted (h : Sound hash t)
    (ha : Admissible hash casefold t (.record kind rows)) :
    ∃ t' o, record hash kind rows t = .ok (t',o) := by
  have hadv := record_advance h ha
  refine record_returns (fun u hu => ?_) fun x hx r hr => room h hadv hx hr
  obtain ⟨p,hp,hpu⟩ := mem_updatesOf.mp hu
  obtain ⟨v,hv,hvu⟩ := update_of_decision hp hpu
  obtain ⟨he,-⟩ := mem_decisions.mp hp
  obtain ⟨hmem,hobj,hopen⟩ := openVersion_some.mp hv
  have hfollow : u.2 v = recorded hash kind rows v := by
    rw [recorded_meets he hv]
    unfold follow
    rw [hvu]
  refine fits_of_open hmem hopen (decision_names hvu) ?_ fun w hw hne hwobj => ?_
  · rw [hfollow]
    exact checks_of_valid (hadv.valid v hmem)
  · have hsame : w.validFrom ≠ v.validFrom := (t.compatible_of_ne hw hmem hne hwobj).1
    rw [hfollow, recorded_meets he hv]
    cases follow_moved v p.1 with
    | agrees hag hw' =>
      rw [hw']
      exact (grow_fits _ h hmem hopen (ha p.1 he v hv hag)).2 w hw hne hwobj
    | stale _ _ hw' => rw [hw']; exact hsame
    | replaced _ _ _ hw' => rw [hw']; exact hsame
    | superseded _ hw' => rw [hw']; exact hsame

end Record

section Close
variable {db : Database} {runId : RunId} {collector : CollectorKind} {scopeKind : ScopeKind}
  {scopeKey : String} {completedAt : Instant}

theorem lostToScope_open {v : ObjectVersion}
    (h : lostToScope casefold db runId collector scopeKind scopeKey completedAt v = true) :
    v.isOpen = true ∧ v.lastSeenAt ≤ completedAt := by
  unfold lostToScope at h
  split at h
  · cases h
  · exact ⟨(lost_iff.mp h).2.2.1,(lost_iff.mp h).2.2.2.1⟩

theorem absented_closed {v : ObjectVersion} (h : v.isOpen = false) :
    absented casefold db runId collector scopeKind scopeKey completedAt v = v := by
  unfold absented
  rw [if_neg]
  intro hl
  rw [(lostToScope_open hl).1] at h
  cases h

theorem absented_object (v : ObjectVersion) :
    (absented casefold db runId collector scopeKind scopeKey completedAt v).object = v.object := by
  unfold absented
  split
  · exact closedBy_object completedAt runId v
  · rfl

/-- A version that its scope loses starts before the completion, and so does
every other version of its object. -/
theorem lost_starts (h : Sound hash db.versions)
    (ha : ∀ v ∈ db.versions.rows,
      lostToScope casefold db runId collector scopeKind scopeKey completedAt v = true →
        v.isPresent = true → v.validFrom ≠ completedAt)
    {v : ObjectVersion} (hv : v ∈ db.versions.rows)
    (hl : lostToScope casefold db runId collector scopeKind scopeKey completedAt v = true)
    (hp : v.isPresent = true) {w : ObjectVersion} (hw : w ∈ db.versions.rows)
    (hobj : w.object = v.object) : w.validFrom < completedAt := by
  obtain ⟨hopen,hle⟩ := lostToScope_open hl
  have hv' : v.validFrom < completedAt :=
    lt_of_le_of_ne ((h.valid v hv).confirmed.trans hle) (ha v hv hl hp)
  by_cases hwv : w = v
  · rw [hwv]
    exact hv'
  · obtain ⟨e,he,hev⟩ := h.ends_before hv hw hwv hobj hopen
    exact (h.proper w hw e he).trans_le (hev.trans hv'.le)

theorem close_advance (h : Sound hash db.versions)
    (ha : ∀ v ∈ db.versions.rows,
      lostToScope casefold db runId collector scopeKind scopeKey completedAt v = true →
        v.isPresent = true → v.validFrom ≠ completedAt)
    {news : List ObjectVersion}
    (hnews : ∀ w, w ∈ news ↔ ∃ v ∈ db.versions.rows,
      lostToScope casefold db runId collector scopeKind scopeKey completedAt v = true ∧
        v.isPresent = true ∧ w = tombstone v completedAt runId) :
    Advance hash db.versions
      (absented casefold db runId collector scopeKind scopeKey completedAt) news := by
  have hcases : ∀ v, absented casefold db runId collector scopeKind scopeKey completedAt v = v ∨
      lostToScope casefold db runId collector scopeKind scopeKey completedAt v = true ∧
      ((v.isPresent = true ∧
        absented casefold db runId collector scopeKind scopeKey completedAt v =
          (closing v.versionId completedAt .absent runId).2 v) ∨
      absented casefold db runId collector scopeKind scopeKey completedAt v =
        (reaffirmation v completedAt runId).2 v) := fun v => by
    unfold absented closedBy
    split
    · next hl =>
      split
      · next hp => exact .inr ⟨hl,.inl ⟨hp,rfl⟩⟩
      · exact .inr ⟨hl,.inr rfl⟩
    · exact .inl rfl
  refine ⟨fun v _ => absented_object v,fun v hv => ?_,fun v _ hc => absented_closed hc,
    fun v hv ho _ w hw hobj e he => ?_,fun v hv ho e he => ?_,fun x hx => ?_,
    fun x hx v hv hobj => ?_⟩
  · rcases hcases v with hv' | ⟨hl,⟨-,hv'⟩ | hv'⟩ <;> rw [hv']
    · exact h.valid v hv
    · exact closing_valid (h.valid v hv) (lostToScope_open hl).2 _
    · exact reaffirmation_valid (h.valid v hv) (lostToScope_open hl).1 (lostToScope_open hl).2
  · have hne : w ≠ v := by
      rintro rfl
      rw [open_iff.mp ho] at he
      cases he
    obtain ⟨f,hf,hle⟩ := h.ends_before hv hw hne hobj ho
    obtain rfl : e = f := Option.some.inj (he.symm.trans hf)
    rcases hcases v with hv' | ⟨-,⟨-,hv'⟩ | hv'⟩ <;> rw [hv'] <;> exact hle
  · rcases hcases v with hv' | ⟨hl,⟨hp,hv'⟩ | hv'⟩ <;> rw [hv'] at he ⊢
    · rw [open_iff.mp ho] at he
      cases he
    · obtain rfl : completedAt = e := Option.some.inj he
      exact ⟨rfl,lost_starts h ha hv hl hp hv rfl,tombstone v completedAt runId,
        (hnews _).mpr ⟨v,hv,hl,hp,rfl⟩,rfl⟩
    · rw [show ((reaffirmation v completedAt runId).2 v).validTo = v.validTo from rfl,
        open_iff.mp ho] at he
      cases he
  · obtain ⟨v,-,-,-,rfl⟩ := (hnews x).mp hx
    exact ⟨⟨le_rfl,(fun e he => nomatch he),rfl,rfl,rfl,rfl,(fun s hs => nomatch hs)⟩,rfl⟩
  · obtain ⟨u,hu,hl,hp,rfl⟩ := (hnews x).mp hx
    by_cases hvu : v = u
    · subst hvu
      refine ⟨completedAt,?_,le_rfl⟩
      unfold absented closedBy
      rw [if_pos hl, if_pos hp]
      rfl
    · obtain ⟨e,he,hle⟩ := h.ends_before hu hv hvu hobj (lostToScope_open hl).1
      rw [absented_closed (closed_iff.mpr ⟨e,he⟩)]
      exact ⟨e,he,hle.trans (lost_starts h ha hu hl hp hu rfl).le⟩

end Close

/-! ### A run -/

/-- An admissible call is accepted and leaves sound rows. -/
theorem perform_sound (h : Sound hash t) {call : Call} (ha : Admissible hash casefold t call) :
    ∃ t', perform hash casefold t call = .ok t' ∧ Sound hash t' := by
  cases call with
  | record kind rows =>
    obtain ⟨t',o,ho⟩ := record_accepted h ha
    exact ⟨t',map_ok.mpr ⟨_,ho,rfl⟩,(record_advance h ha).sound h (record_rows ho)⟩
  | affirm kind keys observedAt runId =>
    obtain ⟨t',o,ho⟩ : ∃ t' o, affirm kind keys observedAt runId t = .ok (t',o) :=
      affirm_returns fun v hv hk hkey hopen hp u hu => by
        rw [grow_of_extension hu]
        exact grow_fits runId h hv hopen (ha v hv ⟨hk,hkey,hopen,hp⟩)
    refine ⟨t',map_ok.mpr ⟨_,ho,rfl⟩,?_⟩
    have hadv : Advance hash t (affirmed kind keys observedAt runId) [] := by
      refine advance_grown observedAt runId h fun v hv => ?_
      unfold affirmed
      split
      · next hc => exact .inr ⟨hc.2.2.1,ha v hv hc,rfl⟩
      · exact .inl rfl
    exact hadv.sound h (n := 0) (by rw [affirm_rows ho, numberedFrom, List.append_nil])
  | affirmContained kind containerKeys observedAt runId =>
    have hunmet : Unmet kind containerKeys observedAt t.rows := fun v hv hp hlt w hw hne hobj => by
      have hopen : v.isOpen = true := (openPresent_iff.mp hp).2.1
      have := (grow_fits runId h hv hopen (ha v hv hp)).2 w hw hne hobj
      rwa [grow_validFrom, if_pos hlt] at this
    obtain ⟨t',o,ho⟩ : ∃ t' o, affirmContained kind containerKeys observedAt runId t =
      .ok (t',o) := affirmContained_returns hunmet
    refine ⟨t',map_ok.mpr ⟨_,ho,rfl⟩,?_⟩
    have hadv : Advance hash t (contained kind containerKeys observedAt runId) [] := by
      refine advance_grown observedAt runId h fun v hv => ?_
      unfold contained
      split
      · next hc => exact .inr ⟨(openPresent_iff.mp hc).2.1,ha v hv hc,rfl⟩
      · exact .inl rfl
    exact hadv.sound h (n := 0) (by rw [affirmContained_rows ho, numberedFrom, List.append_nil])
  | closeAbsent db runId collector scopeKind scopeKey completedAt =>
    have hdb : Sound hash ({ db with versions := t } : Database).versions := h
    have hstart : ∀ v ∈ t.rows, lostToScope casefold { db with versions := t } runId collector
        scopeKind scopeKey completedAt v = true → v.isPresent = true → ∀ w ∈ t.rows,
        w.object = v.object → w.validFrom ≠ completedAt := fun v hv hl hp w hw hobj =>
      (lost_starts hdb ha hv hl hp hw hobj).ne
    obtain ⟨t',o,ho⟩ : ∃ t' o, closeAbsent casefold { db with versions := t } runId collector
      scopeKind scopeKey completedAt = .ok (t',o) := closeAbsent_returns hstart
    obtain ⟨news,hrows,hnews⟩ := closeAbsent_rows ho
    exact ⟨t',map_ok.mpr ⟨_,ho,rfl⟩,
      (close_advance hdb ha hnews).sound h hrows⟩

/-- A call that is accepted and leaves timelines was admissible. -/
theorem admissible_of_kept {t' : Table} {call : Call}
    (hp : perform hash casefold t call = .ok t') (h' : WellFormed hash t') :
    Admissible hash casefold t call := by
  cases call with
  | record kind rows =>
    obtain ⟨⟨t1,o⟩,ho,rfl⟩ := map_ok.mp hp
    intro e he v hv hag
    obtain ⟨hmem,-,hopen⟩ := openVersion_some.mp hv
    refine clearBefore_of_wellFormed e.runId h' (record_rows ho)
      (fun w _ => recorded_closed hash kind rows) hmem hopen ?_
    rw [recorded_meets he hv]
    cases follow_moved v e with
    | agrees _ hw => exact hw
    | stale hn => exact absurd hag hn
    | replaced hn => exact absurd hag hn
    | superseded hs => exact absurd hag hs.differs
  | affirm kind keys observedAt runId =>
    obtain ⟨⟨t1,o⟩,ho,rfl⟩ := map_ok.mp hp
    intro v hv hc
    have hrows : t1.rows = t.rows.map (affirmed kind keys observedAt runId) ++
        numberedFrom 0 [] := by rw [affirm_rows ho, numberedFrom, List.append_nil]
    refine clearBefore_of_wellFormed runId h' hrows (fun w _ hw => ?_) hv hc.2.2.1 (if_pos hc)
    exact if_neg fun hcw => by rw [hw] at hcw; cases hcw.2.2.1
  | affirmContained kind containerKeys observedAt runId =>
    obtain ⟨⟨t1,o⟩,ho,rfl⟩ := map_ok.mp hp
    intro v hv hc
    have hrows : t1.rows = t.rows.map (contained kind containerKeys observedAt runId) ++
        numberedFrom 0 [] := by rw [affirmContained_rows ho, numberedFrom, List.append_nil]
    refine clearBefore_of_wellFormed runId h' hrows (fun w _ hw => ?_) hv
      (openPresent_iff.mp hc).2.1 (if_pos hc)
    exact if_neg fun hcw => by
      rw [(openPresent_iff.mp hcw).2.1] at hw
      cases hw
  | closeAbsent db runId collector scopeKind scopeKey completedAt =>
    obtain ⟨⟨t1,o⟩,ho,rfl⟩ := map_ok.mp hp
    intro v hv hl hpres hfrom
    obtain ⟨news,hrows,hnews⟩ := closeAbsent_rows ho
    -- the closed version and its tombstone would share an identity
    obtain ⟨m,hnew⟩ := moved_added hrows (tombstone v completedAt runId)
      ((hnews _).mpr ⟨v,hv,hl,hpres,rfl⟩)
    have hold := moved_stored hrows v hv
    have habs : absented casefold { db with versions := t } runId collector scopeKind scopeKey
        completedAt v = (closing v.versionId completedAt .absent runId).2 v := by
      unfold absented closedBy
      rw [if_pos hl, if_pos hpres]
    rw [habs] at hold
    refine (t1.compatible_of_ne hold hnew (fun heq => ?_) rfl).1 hfrom
    have hto := congrArg ObjectVersion.validTo heq
    cases hto

/-- A call keeps the timelines, and is not refused, exactly when it is admissible. -/
theorem perform_kept (h : Sound hash t) (call : Call) :
    (∃ t', perform hash casefold t call = .ok t' ∧ WellFormed hash t') ↔
      Admissible hash casefold t call := by
  constructor
  · rintro ⟨t',hp,h'⟩
    exact admissible_of_kept hp h'
  · intro ha
    obtain ⟨t',hp,h'⟩ := perform_sound h ha
    exact ⟨t',hp,h'.wellFormed⟩

theorem kept_iff_met (h : Sound hash t) (calls : List Call) :
    Kept hash casefold t calls ↔ Met hash casefold t calls := by
  induction calls generalizing t with
  | nil => exact Iff.rfl
  | cons call calls ih =>
    constructor
    · rintro ⟨t',hp,hw,hkept⟩
      have ha := admissible_of_kept hp hw
      refine ⟨ha,fun t'' hp' => ?_⟩
      obtain rfl : t' = t'' := Except.ok.inj (hp.symm.trans hp')
      obtain ⟨t1,hp1,h1⟩ := perform_sound h ha
      obtain rfl : t' = t1 := Except.ok.inj (hp.symm.trans hp1)
      exact (ih h1).mp hkept
    · rintro ⟨ha,hrest⟩
      obtain ⟨t',hp,h'⟩ := perform_sound h ha
      exact ⟨t',hp,h'.wellFormed,(ih h').mpr (hrest t' hp)⟩

end Steps

/-- From an empty table, a run of calls keeps every timeline and is never
refused exactly when no call confirms an open version from before the end of an
older one and no completion closes a version at the instant it began. -/
theorem timelines_kept (hash : State → String) (casefold : String → String)
    (calls : List Call) : Kept hash casefold {} calls ↔ Met hash casefold {} calls := by
  refine kept_iff_met ⟨?_,?_,?_,?_⟩ calls <;> intro v hv <;> cases hv

namespace Sample

/-- A digest that tells the states below apart. -/
def digest (state : State) : String := (textColumn state "name").getD ""

def reading (name : String) (observedAt : Instant) : Reading where
  key := "fs01"
  columns := [("name",.text name)]
  observedAt := observedAt
  runId := "r1"

/-- A state is seen to the fifth instant, another at it and then, late, at the third. -/
def lateRun : List Call :=
  [.record .server [reading "old" 1], .record .server [reading "old" 4],
    .record .server [reading "new" 5], .record .server [reading "new" 3]]

/-- A run that did not see the server completes at the instant another run saw it. -/
def sameInstantRun : List Call :=
  [.record .server [reading "old" 5],
    .closeAbsent (({} : Database).upsertRows .server [reading "old" 5]) "r2" .smb .server "fs01" 5]

end Sample

/-- The calls of a run, one after another. -/
def performAll (hash : State → String) (casefold : String → String) (t : Table)
    (calls : List Call) : Except Violation Table :=
  calls.foldlM (perform hash casefold) t

theorem Kept.performAll {hash : State → String} {casefold : String → String} {t : Table}
    {calls : List Call} (hne : calls ≠ []) (h : Kept hash casefold t calls) :
    ∃ t', performAll hash casefold t calls = .ok t' ∧ WellFormed hash t' := by
  induction calls generalizing t with
  | nil => exact absurd rfl hne
  | cons call calls ih =>
    obtain ⟨t1,hp,hw,hrest⟩ := h
    cases calls with
    | nil => exact ⟨t1,bind_ok.mpr ⟨t1,hp,rfl⟩,hw⟩
    | cons next calls =>
      obtain ⟨t',hp',hw'⟩ := ih (List.cons_ne_nil _ _) hrest
      exact ⟨t',bind_ok.mpr ⟨t1,hp,hp'⟩,hw'⟩

/-- A late reading pulls an open version over one that ended, and a completion
at the instant of a reading is refused by the identity of versions. -/
theorem timelines_broken :
    ¬ Kept Sample.digest id {} Sample.lateRun ∧
      ¬ Kept Sample.digest id {} Sample.sameInstantRun ∧
      (performAll Sample.digest id {} Sample.sameInstantRun).toOption.isNone = true := by
  have hoverlap : (performAll Sample.digest id {} Sample.lateRun).toOption.map (fun t =>
      decide (checkTimeline (.server,"fs01") none (timelineOf t (.server,"fs01")) = .ok ())) =
      some false := by decide +kernel
  have hrefused : (performAll Sample.digest id {} Sample.sameInstantRun).toOption.isNone = true := by
    decide +kernel
  refine ⟨fun h => ?_,fun h => ?_,hrefused⟩
  · have hne : Sample.lateRun ≠ [] := List.cons_ne_nil _ _
    obtain ⟨t',hp,hw⟩ := h.performAll hne
    rw [hp] at hoverlap
    have hbad := of_decide_eq_false (Option.some.inj hoverlap)
    exact hbad (hw.timeline _)
  · have hne : Sample.sameInstantRun ≠ [] := List.cons_ne_nil _ _
    obtain ⟨t',hp,-⟩ := h.performAll hne
    rw [hp] at hrefused
    cases hrefused

end Adg.HistoryRuns
