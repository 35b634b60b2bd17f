import Adg.AlertRecords

/-!
# What a cooldown folded

Every occurrence of an alert is told, or waits to be told by the next
notification, or was dropped. The counter of those that wait is reset where an
alert is resolved and where it is reopened, and what waits at such a step is
told by no notification.
-/

set_option autoImplicit false

namespace Adg.FoldedCounts
open Adg.ObjectVersions Adg.KeyedTables Adg.AlertModel Adg.AlertRecords

/-! ### Calls -/

/-- An event that its constructor made. -/
structure Built (p : Platform) where
  event : AlertEvent
  made : ∃ parts, AlertEvent.build p parts = .ok event

theorem Built.digest {p : Platform} (b : Built p) : b.event.digest =
    payloadDigest p b.event.payload := by
  obtain ⟨parts,h⟩ := b.made
  unfold AlertEvent.build at h
  split_ifs at h
  rw [← Except.ok.inj h]

/-- A call of the repository. -/
inductive Call (p : Platform) where
  | record (event : Built p) (now cooldown : Instant) (watchEnabled : Bool)
      (watchLabel : Option String)
  | resolve (key : String) (now : Instant)

section Runs
variable {p : Platform} (isoformat : Instant → String)

def perform (s : AlertStore) : Call p → AlertStore
  | .record b now cooldown enabled label => (record b.event now cooldown enabled label s).1
  | .resolve key now => ((resolve isoformat key now s).map (·.1)).getD s

def run (s : AlertStore) (calls : List (Call p)) : AlertStore := calls.foldl (perform isoformat) s

end Runs

/-! ### What the occurrences of an alert say -/

/-- A raise event that was notified. -/
def tells (key : String) (o : Occurrence) : Bool :=
  o.alertKey = key && o.notified && (o.transition = .raised || o.transition = .repeated ||
    o.transition = .reopened)

def silent (key : String) (o : Occurrence) : Bool := o.alertKey = key && o.transition = .suppressed

/-- The folds of the notified raise events of an alert. -/
def told (s : AlertStore) (key : String) : ℕ := ((s.events.filter (tells key)).map (·.folds)).sum

/-- How many events of an alert were suppressed. -/
def suppressedEvents (s : AlertStore) (key : String) : ℕ := s.events.countP (silent key)

/-- The last notified raise event of an alert. -/
def lastTold (s : AlertStore) (key : String) : Option Occurrence :=
  (s.events.filter (tells key)).getLast?

/-- Nothing suppressed is lost from the counts of an alert. -/
structure Accounted (p : Platform) (s : AlertStore) (key : String) : Prop where
  counted : ∀ a, s.alerts.get? key = some a →
    told s key+a.suppressedSinceNotice = a.occurrenceCount
  suppressed : ∀ a, s.alerts.get? key = some a → a.suppressedTotal = suppressedEvents s key
  delivered : ∀ a, s.alerts.get? key = some a → a.status = .open →
    a.deliveredDigest = (lastTold s key).map fun o => payloadDigest p o.payload

/-! ### What waits where the counter is reset -/

/-- What a call drops: what waits on the alert that it resolves or reopens. -/
def dropped {p : Platform} (key : String) (s : AlertStore) : Call p → ℕ
  | .record b _ _ enabled _ => (s.alerts.get? key).elim 0 fun a =>
    if b.event.key = key ∧ enabled = true ∧ a.status = .resolved then a.suppressedSinceNotice else 0
  | .resolve k _ => (s.alerts.get? key).elim 0 fun a =>
    if k = key ∧ a.lifecycle = .stateful ∧ a.status = .open then a.suppressedSinceNotice else 0

/-- Nothing waits on the alert where a call resolves or reopens it. -/
def NothingWaits {p : Platform} (isoformat : Instant → String) (key : String) :
    AlertStore → List (Call p) → Prop
  | _, [] => True
  | s, c::rest => dropped key s c = 0 ∧ NothingWaits isoformat key (perform isoformat s c) rest

/-- What a run drops. -/
def losses {p : Platform} (isoformat : Instant → String) (key : String) :
    AlertStore → List (Call p) → ℕ
  | _, [] => 0
  | s, c::rest => dropped key s c+losses isoformat key (perform isoformat s c) rest

theorem nothingWaits_iff {p : Platform} {isoformat : Instant → String} {key : String}
    {s : AlertStore} {calls : List (Call p)} :
    NothingWaits isoformat key s calls ↔ losses isoformat key s calls = 0 := by
  induction calls generalizing s with
  | nil => exact ⟨fun _ => rfl,fun _ => trivial⟩
  | cons c rest ih =>
    unfold NothingWaits losses
    rw [ih]
    omega

/-! ### One call -/

/-- The four ways a raise is decided. -/
theorem decideRaise_cases (event : AlertEvent) (state : Option AlertState) (cooldown : Instant)
    (enabled : Bool) :
    ((decideRaise event state cooldown enabled).transition = .suppressed ∧
      ∀ s, state = some s → s.status = .resolved → enabled = false) ∨
    (state = none ∧ decideRaise event state cooldown enabled = { transition := .raised }) ∨
    (∃ s, state = some s ∧ enabled = true ∧ s.status = .resolved ∧
      decideRaise event state cooldown enabled = { transition := .reopened }) ∨
    ∃ s, state = some s ∧ s.status = .open ∧ decideRaise event state cooldown enabled =
      { transition := .repeated
        folds := s.suppressedSinceNotice+1 } := by
  unfold decideRaise
  cases enabled with
  | false => exact .inl ⟨rfl,fun _ _ _ => rfl⟩
  | true =>
    rw [if_neg (by decide)]
    cases state with
    | none => exact .inr (.inl ⟨rfl,rfl⟩)
    | some s =>
      cases hstatus : s.status with
      | resolved => exact .inr (.inr (.inl ⟨s,rfl,rfl,hstatus,if_pos hstatus⟩))
      | «open» =>
        have hlive : s.status ≠ .resolved := by simp [hstatus]
        have hopen : ∀ s', some s = some s' → s'.status = .resolved → False := by
          intro s' hs hresolved
          exact absurd ((Option.some.inj hs) ▸ hresolved) hlive
        simp only [if_neg hlive]
        split_ifs
        · exact .inl ⟨rfl,hopen⟩
        · exact .inl ⟨rfl,hopen⟩
        · exact .inr (.inr (.inr ⟨s,rfl,hstatus,rfl⟩))

theorem told_put (s : AlertStore) (row : StoredAlert) (o : Occurrence) (key : String) :
    told (s.put row o) key = told s key+if tells key o then o.folds else 0 := by
  unfold told AlertStore.put
  rw [List.filter_append, List.map_append, List.sum_append]
  congr 1
  split_ifs with h
  · simp [h]
  · simp [h]

theorem suppressedEvents_put (s : AlertStore) (row : StoredAlert) (o : Occurrence) (key : String) :
    suppressedEvents (s.put row o) key = suppressedEvents s key+if silent key o then 1 else 0 := by
  unfold suppressedEvents AlertStore.put
  rw [List.countP_append, List.countP_singleton]

theorem lastTold_put (s : AlertStore) (row : StoredAlert) (o : Occurrence) (key : String) :
    lastTold (s.put row o) key = if tells key o then some o else lastTold s key := by
  unfold lastTold AlertStore.put
  rw [List.filter_append]
  split_ifs with h
  · simp [h]
  · simp [h]

theorem other_put {o : Occurrence} {key : String} (hkey : key ≠ o.alertKey) : tells key o = false ∧ silent key o = false := by
  have hne : o.alertKey ≠ key := fun h => hkey h.symm
  simp [tells, silent, hne]

/-- The counts of an alert, with what was dropped from them. -/
structure Tally (p : Platform) (s : AlertStore) (key : String) (lost : ℕ) : Prop where
  absent : s.alerts.get? key = none →
    told s key = 0 ∧ suppressedEvents s key = 0 ∧ lastTold s key = none ∧ lost = 0
  counted : ∀ a, s.alerts.get? key = some a →
    told s key+a.suppressedSinceNotice+lost = a.occurrenceCount
  suppressed : ∀ a, s.alerts.get? key = some a → a.suppressedTotal = suppressedEvents s key
  delivered : ∀ a, s.alerts.get? key = some a → a.status = .open →
    a.deliveredDigest = (lastTold s key).map fun o => payloadDigest p o.payload

theorem tally_blank (p : Platform) (key : String) : Tally p .blank key 0 := by
  have hnone : (AlertStore.blank).alerts.get? key = none := rfl
  refine ⟨fun _ => ⟨rfl,rfl,rfl,rfl⟩,?_,?_,?_⟩
  all_goals
    intro a ha
    rw [hnone] at ha
    cases ha

theorem tally_other {p : Platform} {s : AlertStore} {key : String} {lost : ℕ}
    (h : Tally p s key lost) {row : StoredAlert} {o : Occurrence} (hkey : key ≠ o.alertKey)
    (hrow : row.key = o.alertKey) : Tally p (s.put row o) key lost := by
  have hget : (s.put row o).alerts.get? key = s.alerts.get? key := by
    rw [get?_put, if_neg fun hk => hkey (hk.trans hrow)]
  have hquiet := other_put hkey
  have htold : told (s.put row o) key = told s key := by simp [told_put, hquiet.1]
  have hsilent : suppressedEvents (s.put row o) key = suppressedEvents s key := by
    simp [suppressedEvents_put, hquiet.2]
  have hlast : lastTold (s.put row o) key = lastTold s key := by simp [lastTold_put, hquiet.1]
  constructor
  · rw [hget, htold, hsilent, hlast]
    exact h.absent
  · rw [hget, htold]
    exact h.counted
  · rw [hget, hsilent]
    exact h.suppressed
  · rw [hget, hlast]
    exact h.delivered

theorem tally_put {p : Platform} {s : AlertStore} {row : StoredAlert} {o : Occurrence}
    {key : String} {lost : ℕ} (hkey : row.key = key)
    (hcount : told s key+(if tells key o then o.folds else 0)+row.suppressedSinceNotice+lost =
      row.occurrenceCount)
    (hsilent : row.suppressedTotal = suppressedEvents s key+if silent key o then 1 else 0)
    (hdelivered : row.status = .open → row.deliveredDigest =
      (if tells key o then some o else lastTold s key).map fun o => payloadDigest p o.payload) :
    Tally p (s.put row o) key lost := by
  have hget : (s.put row o).alerts.get? key = some row := by rw [get?_put, if_pos hkey.symm]
  constructor
  · intro hnone
    rw [hget] at hnone
    cases hnone
  · intro a ha
    rw [hget] at ha
    rw [told_put, ← Option.some.inj ha]
    exact hcount
  · intro a ha
    rw [hget] at ha
    rw [suppressedEvents_put, ← Option.some.inj ha]
    exact hsilent
  · intro a ha hopen
    rw [hget] at ha
    rw [lastTold_put, ← Option.some.inj ha]
    rw [← Option.some.inj ha] at hopen
    exact hdelivered hopen

theorem quiet_suppressed {d : Decision} (h : d.transition = .suppressed) : d.notifies = false := by
  unfold Decision.notifies
  rw [h]
  rfl

/-- What a decision leaves of an alert that was not there. -/
theorem tally_first {p : Platform} {s : AlertStore} {b : Built p} {now : Instant}
    {label : Option String} {d : Decision} {o : Occurrence} {lost : ℕ}
    (h : Tally p s b.event.key lost) (hold : s.alerts.get? b.event.key = none)
    (hd : d.transition = .suppressed ∨ d = { transition := .raised })
    (ho : o.alertKey = b.event.key ∧ o.transition = d.transition ∧ o.folds = d.folds ∧
      o.notified = d.notifies ∧ o.payload = b.event.payload) :
    Tally p (s.put (rowFor s b.event d now label) o) b.event.key lost := by
  obtain ⟨htold,hsilent,hlast,hlost⟩ := h.absent hold
  obtain ⟨hkey,htransition,hfolds,hnotified,hpayload⟩ := ho
  have hrow : rowFor s b.event d now label = AlertRecords.insert b.event d now label := by
    unfold rowFor
    rw [hold]
  have hdigest := b.digest
  rcases hd with hquiet | rfl
  · have hn := quiet_suppressed hquiet
    rw [hn] at hnotified
    apply tally_put (rowFor_key _)
    · simp [hrow, AlertRecords.insert, tells, hn, hnotified, htold, hlost]
    · simp [hrow, AlertRecords.insert, silent, hn, hkey, htransition, hquiet, hsilent]
    · simp [hrow, AlertRecords.insert, tells, hn, hnotified, hlast]
  · have hn : o.notified = true := hnotified
    apply tally_put (rowFor_key _)
    · simp [hrow, AlertRecords.insert, tells, hn, hkey, htransition, hfolds, htold, hlost,
        Decision.notifies, notifyingTransitions]
    · simp [hrow, AlertRecords.insert, silent, hkey, htransition, hsilent, Decision.notifies,
        notifyingTransitions]
    · simp [hrow, AlertRecords.insert, tells, hn, hkey, htransition, hpayload, hdigest,
        Decision.notifies, notifyingTransitions]

/-- What a decision leaves of an alert that was there. A reopening speaks for itself alone. -/
theorem tally_again {p : Platform} {s : AlertStore} {b : Built p} {now : Instant}
    {label : Option String} {d : Decision} {o : Occurrence} {lost more : ℕ} {a : StoredAlert}
    (h : Tally p s b.event.key lost) (hold : s.alerts.get? b.event.key = some a)
    (hd : d.transition = .suppressed ∧ more = 0 ∨
      d = { transition := .reopened } ∧ more = a.suppressedSinceNotice ∨
      d = { transition := .repeated
            folds := a.suppressedSinceNotice+1 } ∧ more = 0)
    (ho : o.alertKey = b.event.key ∧ o.transition = d.transition ∧ o.folds = d.folds ∧
      o.notified = d.notifies ∧ o.payload = b.event.payload) :
    Tally p (s.put (rowFor s b.event d now label) o) b.event.key (lost+more) := by
  obtain ⟨hkey,htransition,hfolds,hnotified,hpayload⟩ := ho
  have hcounted := h.counted a hold
  have hsuppressed := h.suppressed a hold
  have hdelivered := h.delivered a hold
  have hrow : rowFor s b.event d now label =
      { AlertRecords.apply a b.event d now label with key := b.event.key } := by
    unfold rowFor
    rw [hold]
  have hdigest := b.digest
  rcases hd with ⟨hquiet,rfl⟩ | ⟨rfl,rfl⟩ | ⟨rfl,rfl⟩
  · have hn := quiet_suppressed hquiet
    rw [hn] at hnotified
    apply tally_put (rowFor_key _)
    · simp [hrow, AlertRecords.apply, tells, hn, hnotified]
      omega
    · simp [hrow, AlertRecords.apply, silent, hn, hkey, htransition, hquiet, hsuppressed]
    · intro hopen
      have hstill : a.status = .open := by simpa [hrow, AlertRecords.apply, hquiet] using hopen
      simpa [hrow, AlertRecords.apply, tells, hn, hnotified] using hdelivered hstill
  · have hn : o.notified = true := hnotified
    apply tally_put (rowFor_key _)
    · simp [hrow, AlertRecords.apply, tells, hn, hkey, htransition, hfolds, Decision.notifies,
        notifyingTransitions]
      omega
    · simp [hrow, AlertRecords.apply, silent, hkey, htransition, Decision.notifies,
        notifyingTransitions, hsuppressed]
    · simp [hrow, AlertRecords.apply, tells, hn, hkey, htransition, hpayload, hdigest,
        Decision.notifies, notifyingTransitions]
  · have hn : o.notified = true := hnotified
    apply tally_put (rowFor_key _)
    · simp [hrow, AlertRecords.apply, tells, hn, hkey, htransition, hfolds, Decision.notifies,
        notifyingTransitions]
      omega
    · simp [hrow, AlertRecords.apply, silent, hkey, htransition, Decision.notifies,
        notifyingTransitions, hsuppressed]
    · simp [hrow, AlertRecords.apply, tells, hn, hkey, htransition, hpayload, hdigest,
        Decision.notifies, notifyingTransitions]

/-- A recorded occurrence is told with what waits, or waits; a reopening drops what waits. -/
theorem tally_record {p : Platform} {s : AlertStore} {b : Built p} {now cooldown : Instant}
    {enabled : Bool} {label : Option String} {lost : ℕ} (h : Tally p s b.event.key lost) :
    Tally p (record b.event now cooldown enabled label s).1 b.event.key
      (lost+dropped b.event.key s (.record b now cooldown enabled label)) := by
  unfold record decisionFor dropped
  cases hold : s.alerts.get? b.event.key with
  | none =>
    rcases decideRaise_cases b.event none cooldown enabled with hd | hd | hd | hd
    · exact tally_first h hold (.inl hd.1) ⟨rfl,rfl,rfl,rfl,rfl⟩
    · exact tally_first h hold (.inr hd.2) ⟨rfl,rfl,rfl,rfl,rfl⟩
    · obtain ⟨state,hstate,-⟩ := hd
      cases hstate
    · obtain ⟨state,hstate,-⟩ := hd
      cases hstate
  | some a =>
    apply tally_again h hold _ ⟨rfl,rfl,rfl,rfl,rfl⟩
    rcases decideRaise_cases b.event (some a.state) cooldown enabled with hd | hd | hd | hd
    · refine .inl ⟨hd.1,if_neg fun hbad => ?_⟩
      have hdisabled := hd.2 a.state rfl hbad.2.2
      rw [hbad.2.1] at hdisabled
      cases hdisabled
    · cases hd.1
    · obtain ⟨state,hstate,henabled,hresolved,hdecision⟩ := hd
      cases hstate
      exact .inr (.inl ⟨hdecision,if_pos ⟨rfl,henabled,hresolved⟩⟩)
    · obtain ⟨state,hstate,hopen,hdecision⟩ := hd
      cases hstate
      refine .inr (.inr ⟨hdecision,if_neg fun hbad => ?_⟩)
      have hclash : AlertStatus.open = .resolved := hopen.symm.trans hbad.2.2
      cases hclash

/-- A resolution acts on an open alert that can end, and on no other. -/
theorem resolve_cases (isoformat : Instant → String) (key : String) (now : Instant)
    (s : AlertStore) :
    (resolve isoformat key now s = none ∧ ∀ a, s.alerts.get? key = some a →
      ¬(a.lifecycle = .stateful ∧ a.status = .open)) ∨
    ∃ a row o r, s.alerts.get? key = some a ∧ a.lifecycle = .stateful ∧ a.status = .open ∧
      resolve isoformat key now s = some (s.put row o,r) ∧ row.key = key ∧
      row.status = .resolved ∧ row.suppressedSinceNotice = 0 ∧
      row.occurrenceCount = a.occurrenceCount ∧ row.suppressedTotal = a.suppressedTotal ∧
      o.alertKey = key ∧ o.transition = .resolved := by
  unfold resolve decideResolve
  cases hold : s.alerts.get? key with
  | none =>
    refine .inl ⟨rfl,fun a ha => ?_⟩
    cases ha
  | some a =>
    rw [Option.bind_eq_bind, Option.bind_some]
    by_cases hlife : a.state.lifecycle = .transient
    · refine .inl ⟨?_,fun a' ha' hacts => ?_⟩
      · rw [if_pos hlife]
        rfl
      · obtain rfl := Option.some.inj ha'
        cases hacts.1.symm.trans hlife
    · by_cases hstatus : a.state.status = .resolved
      · refine .inl ⟨?_,fun a' ha' hacts => ?_⟩
        · rw [if_neg hlife, if_pos hstatus]
          rfl
        · obtain rfl := Option.some.inj ha'
          cases hacts.2.symm.trans hstatus
      · right
        rw [if_neg hlife, if_neg hstatus]
        refine ⟨a,_,_,_,rfl,?_,?_,rfl,rfl,rfl,rfl,rfl,rfl,rfl,rfl⟩
        · cases h : a.lifecycle with
          | stateful => rfl
          | transient => exact absurd h hlife
        · cases h : a.status with
          | «open» => rfl
          | resolved => exact absurd h hstatus

/-- A resolution drops what waits. -/
theorem tally_resolve {p : Platform} {isoformat : Instant → String} {s : AlertStore} {key : String}
    {now : Instant} {lost : ℕ} (h : Tally p s key lost) :
    Tally p (perform isoformat s (.resolve key now : Call p)) key
      (lost+dropped key s (.resolve key now : Call p)) := by
  simp only [perform, dropped]
  rcases resolve_cases isoformat key now s with ⟨hnone,hidle⟩ |
    ⟨a,row,o,r,hold,hlife,hopen,hresolve,hkey,hstatus,hwaits,hcount,htotal,hevent⟩
  · rw [hnone]
    cases hold : s.alerts.get? key with
    | none => exact h
    | some a =>
      rw [Option.elim_some, if_neg fun hacts => hidle a hold hacts.2]
      exact h
  · rw [hresolve, hold, Option.elim_some, if_pos ⟨trivial,hlife,hopen⟩]
    have hcounted := h.counted a hold
    apply tally_put hkey
    · simp only [tells, hevent.2, hwaits, hcount]
      simp
      omega
    · simp [silent, hevent.2, htotal, h.suppressed a hold]
    · intro hstill
      rw [hstatus] at hstill
      cases hstill

theorem tally_perform {p : Platform} {isoformat : Instant → String} {s : AlertStore} {key : String}
    {lost : ℕ} (h : Tally p s key lost) (c : Call p) :
    Tally p (perform isoformat s c) key (lost+dropped key s c) := by
  cases c with
  | record b now cooldown enabled label =>
    by_cases hkey : b.event.key = key
    · subst hkey
      exact tally_record h
    · have hidle : dropped key s (.record b now cooldown enabled label) = 0 := by
        unfold dropped
        cases s.alerts.get? key with
        | none => rfl
        | some a => exact if_neg fun hacts => hkey hacts.1
      rw [hidle]
      exact tally_other h (fun heq => hkey heq.symm) (rowFor_key _)
  | resolve k now =>
    by_cases hkey : k = key
    · subst hkey
      exact tally_resolve h
    · have hidle : dropped key s (.resolve k now : Call p) = 0 := by
        unfold dropped
        cases s.alerts.get? key with
        | none => rfl
        | some a => exact if_neg fun hacts => hkey hacts.1
      rw [hidle]
      simp only [perform]
      rcases resolve_cases isoformat k now s with ⟨hnone,-⟩ |
        ⟨a,row,o,r,-,-,-,hresolve,hrow,-,-,-,-,hevent,-⟩
      · rw [hnone]
        exact h
      · rw [hresolve]
        exact tally_other h (fun heq => hkey (hevent.symm.trans heq.symm)) (hrow.trans hevent.symm)

/-! ### Every run -/

theorem tally_run {p : Platform} {isoformat : Instant → String} {s : AlertStore} {key : String}
    {lost : ℕ} (h : Tally p s key lost) (calls : List (Call p)) :
    Tally p (run isoformat s calls) key (lost+losses isoformat key s calls) := by
  induction calls generalizing s lost with
  | nil => exact h
  | cons c rest ih =>
    have hrest := ih (@tally_perform p isoformat s key lost h c)
    rw [Nat.add_assoc] at hrest
    exact hrest

/-- The counts of an alert account for its occurrences after the calls of a run if nothing waited
on it at any step that resolved or reopened it, and only then. The number of suppressed events and
the digest of what was delivered are right in any case. -/
theorem occurrences_accounted (p : Platform) (isoformat : Instant → String) (calls : List (Call p))
    (key : String) : Accounted p (run isoformat .blank calls) key ↔
      NothingWaits isoformat key .blank calls := by
  have htally := @tally_run p isoformat .blank key 0 (tally_blank p key) calls
  rw [Nat.zero_add] at htally
  rw [nothingWaits_iff]
  constructor
  · intro h
    cases hget : (run isoformat .blank calls).alerts.get? key with
    | none => exact (htally.absent hget).2.2.2
    | some a =>
      have hlost := htally.counted a hget
      have hkept := h.counted a hget
      omega
  · intro hnone
    refine ⟨fun a ha => ?_,htally.suppressed,htally.delivered⟩
    have hcounted := htally.counted a ha
    rw [hnone] at hcounted
    exact hcounted

namespace Sample

def platform : Platform := ⟨id,id,fun _ => ""⟩

/-- Evidence of one finding, at an instant. -/
def parts (evidence : String) (occurredAt : Instant) : EventParts where
  trigger := .criticalRiskFindingOpened
  subject := ⟨some "share",none,none,rfl⟩
  occurredAt := occurredAt
  summary := "Everyone may write"
  payload := [("evidence",.text evidence)]

def event (evidence : String) (occurredAt : Instant) : AlertEvent where
  trigger := .criticalRiskFindingOpened
  subject := ⟨some "share",none,none,rfl⟩
  occurredAt := occurredAt
  summary := String.ofList (SecurityIdentifier.strip "Everyone may write".toList)
  payload := [("evidence",.text evidence)]
  discriminator := none
  watchId := none
  key := alertKey platform .criticalRiskFindingOpened ⟨some "share",none,none,rfl⟩ none
  digest := payloadDigest platform [("evidence",.text evidence)]

theorem event_made (evidence : String) (occurredAt : Instant) :
    AlertEvent.build platform (parts evidence occurredAt) = .ok (event evidence occurredAt) := by
  have hsummary : SecurityIdentifier.strip (parts evidence occurredAt).summary.toList ≠ [] := by
    show SecurityIdentifier.strip "Everyone may write".toList ≠ []
    decide
  unfold AlertEvent.build
  rw [if_neg hsummary, if_neg (fun hwatch => hwatch.2 List.mem_cons_self)]
  rfl

def built (evidence : String) (occurredAt : Instant) : Built platform :=
  ⟨event evidence occurredAt,_,event_made evidence occurredAt⟩

/-- Raised, repeated within the cooldown and resolved. -/
def calls : List (Call platform) :=
  [.record (built "read" 0) 0 900 true none, .record (built "write" 10) 10 900 true none,
    .resolve (event "read" 0).key 20]

end Sample

open Sample in
/-- The occurrence that the cooldown folded is told by no notification once the alert is
resolved. -/
theorem folded_occurrence_lost :
    ¬ Accounted platform (run (fun _ => "") .blank calls) (event "read" 0).key := by
  intro h
  have hrow : ((run (fun _ => "") .blank calls).alerts.get? (event "read" 0).key).map
      (fun a => (a.suppressedSinceNotice,a.occurrenceCount)) = some (0,2) ∧
      told (run (fun _ => "") .blank calls) (event "read" 0).key = 1 := by decide +kernel
  obtain ⟨a,ha,hcounts⟩ := Option.map_eq_some_iff.mp hrow.1
  have hkept := h.counted a ha
  rw [hrow.2, (Prod.mk.inj hcounts).1, (Prod.mk.inj hcounts).2] at hkept
  cases hkept

end Adg.FoldedCounts
