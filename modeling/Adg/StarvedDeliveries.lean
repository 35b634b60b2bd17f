import Adg.OutboxDrains
import Adg.SortedLists

/-!
# Deliveries that are never attempted

A delivery that is claimed and has a sink is attempted and is not due any more.
One without a sink stays due, at the head of the next claim. A delivery is
attempted in the end if fewer than a batch of those stand before it, and if the
pass does not end at another one before it.
-/

set_option autoImplicit false

namespace Adg.StarvedDeliveries
open Adg.ObjectVersions Adg.SortedLists Adg.RetrySchedules Adg.OutboxDrains

/-- What is fixed while the outbox is drained: the configured sinks, the schedule, the ceiling and
the instant. What the sinks answer is not. -/
structure Setting where
  configured : String → Bool
  retry : RetrySchedule
  batchSize : ℕ
  positive : 1 ≤ batchSize
  now : Instant

/-- A dispatcher with the sinks, the schedule and the ceiling of a setting. -/
structure Fits (st : Setting) (a : AlertDispatcher) : Prop where
  sinks : ∀ name, (a.sinks name).isSome = st.configured name
  retry : a.retry = st.retry
  batchSize : a.batchSize = st.batchSize

/-- Passes one after the other, each with what it handed to sinks. -/
inductive Drains (st : Setting) : Outbox → List (List DeliveryId) → Prop
  | none (o : Outbox) : Drains st o []
  | drained {o : Outbox} {a : AlertDispatcher} {claimed : List Delivery} {p : Progress}
      {rest : List (List DeliveryId)} (hfits : Fits st a)
      (hclaimed : Claimed o st.now st.batchSize claimed)
      (hok : drain a st.now o none claimed = .ok p) (hrest : Drains st p.outbox rest) :
      Drains st o (p.sent::rest)
  | aborted {o : Outbox} {a : AlertDispatcher} {claimed : List Delivery} {p : Progress}
      {rest : List (List DeliveryId)} (hfits : Fits st a)
      (hclaimed : Claimed o st.now st.batchSize claimed)
      (herror : drain a st.now o none claimed = .error p) (hrest : Drains st o rest) :
      Drains st o (p.sent::rest)

/-- The report of a pass that found nothing. -/
def idle (r : DrainReport) : Bool := r.attempted = 0 && r.unroutable = 0

/-- `drain_until_empty`, with a number of passes. -/
inductive UntilEmpty (st : Setting) : ℕ → Outbox → List (List DeliveryId) → Prop
  | spent (o : Outbox) : UntilEmpty st 0 o []
  | idle {n : ℕ} {o : Outbox} {a : AlertDispatcher} {claimed : List Delivery} {p : Progress}
      (hfits : Fits st a) (hclaimed : Claimed o st.now st.batchSize claimed)
      (hok : drain a st.now o none claimed = .ok p) (hidle : idle p.report = true) :
      UntilEmpty st (n+1) o [p.sent]
  | last {n : ℕ} {o : Outbox} {a : AlertDispatcher} {claimed : List Delivery} {p : Progress}
      (hfits : Fits st a) (hclaimed : Claimed o st.now st.batchSize claimed)
      (hok : drain a st.now o none claimed = .ok p) (hidle : idle p.report = false)
      (hlast : p.report.hasMore = false) : UntilEmpty st (n+1) o [p.sent]
  | more {n : ℕ} {o : Outbox} {a : AlertDispatcher} {claimed : List Delivery} {p : Progress}
      {rest : List (List DeliveryId)} (hfits : Fits st a)
      (hclaimed : Claimed o st.now st.batchSize claimed)
      (hok : drain a st.now o none claimed = .ok p) (hidle : idle p.report = false)
      (hmore : p.report.hasMore = true) (hrest : UntilEmpty st n p.outbox rest) :
      UntilEmpty st (n+1) o (p.sent::rest)
  | aborted {n : ℕ} {o : Outbox} {a : AlertDispatcher} {claimed : List Delivery} {p : Progress}
      (hfits : Fits st a) (hclaimed : Claimed o st.now st.batchSize claimed)
      (herror : drain a st.now o none claimed = .error p) : UntilEmpty st (n+1) o [p.sent]

section Queues
variable (st : Setting)

/-- A due delivery whose sink is configured. -/
def Setting.routable (d : Delivery) : Bool := due st.now d && st.configured d.envelope.sinkName

/-- A due delivery whose sink is not. -/
def Setting.unroutable (d : Delivery) : Bool := due st.now d && !st.configured d.envelope.sinkName

/-- The due deliveries without a sink that may be claimed before a delivery. -/
def Setting.before (o : Outbox) (d : Delivery) : List Delivery :=
  o.rows.filter fun u => st.unroutable u && claimKey u ≤ claimKey d

/-- The due deliveries with a sink that may be claimed before a delivery, and itself. -/
def Setting.ahead (o : Outbox) (d : Delivery) : List Delivery :=
  o.rows.filter fun r => st.routable r && claimKey r ≤ claimKey d

/-- Fewer than a batch of deliveries without a sink are due no later than the delivery, and every
other one due no later can be tried again. -/
structure Reached (o : Outbox) (d : Delivery) : Prop where
  room : (st.before o d).length < st.batchSize
  placed : ∀ e ∈ st.ahead o d, e.deliveryId ≠ d.deliveryId →
    (e.attempts+1 : ℕ) < st.retry.maxAttempts →
    ∃ at', st.retry.retryAt st.now (e.attempts+1) = .ok at'

/-- Every due delivery with a sink is attempted after finitely many passes, and by
`drain_until_empty` when it is given enough of them. -/
def NoneStarves (o : Outbox) : Prop :=
  ∀ d ∈ o.rows, st.routable d = true →
    (∃ n : ℕ, ∀ passes, Drains st o passes → n ≤ passes.length → d.deliveryId ∈ passes.flatten) ∧
    ∃ n : ℕ, ∀ m passes, n ≤ m → UntilEmpty st m o passes → d.deliveryId ∈ passes.flatten

end Queues

/-! ### One pass -/

section Passes
variable {st : Setting} {a : AlertDispatcher} {o : Outbox} {d : Delivery} {claimed : List Delivery}

theorem unroutable_routed (hfits : Fits st a) (e : Delivery) :
    a.sinks e.envelope.sinkName = none ↔ st.configured e.envelope.sinkName = false := by
  rw [← hfits.sinks]
  cases a.sinks e.envelope.sinkName <;> simp

theorem routable_due (h : st.routable d = true) :
    due st.now d = true ∧ st.configured d.envelope.sinkName = true := by
  unfold Setting.routable at h
  rwa [Bool.and_eq_true] at h

/-- What is claimed with the delivery, or in its place, may be claimed before it. -/
theorem claimed_key {limit : ℕ} (h : Claimed o st.now limit claimed) (hd : d ∈ o.rows)
    (hdue : due st.now d = true) :
    (∃ front back, claimed = front ++ d::back ∧ ∀ e ∈ front, claimKey e ≤ claimKey d) ∨
    d ∉ claimed ∧ claimed.length = limit ∧ ∀ e ∈ claimed, claimKey e ≤ claimKey d := by
  obtain ⟨sorted,hperm,hsorted,rfl⟩ := h
  have hmem : d ∈ sorted := hperm.mem_iff.mpr (List.mem_filter.mpr ⟨hd,hdue⟩)
  by_cases hin : d ∈ sorted.take limit
  · left
    obtain ⟨front,back,hsplit⟩ := List.append_of_mem hin
    refine ⟨front,back,hsplit,fun e he => ?_⟩
    have htake := hsorted.sublist (List.take_sublist limit sorted)
    rw [hsplit] at htake
    exact (List.pairwise_append.mp htake).2.2 e he d List.mem_cons_self
  · right
    have hdrop : d ∈ sorted.drop limit := by
      rw [← List.take_append_drop limit sorted, List.mem_append] at hmem
      exact hmem.resolve_left hin
    refine ⟨hin,?_,fun e he => ?_⟩
    · have hlong : 0 < (sorted.drop limit).length := List.length_pos_of_mem hdrop
      rw [List.length_drop] at hlong
      rw [List.length_take]
      omega
    · rw [← List.take_append_drop limit sorted] at hsorted
      exact (List.pairwise_append.mp hsorted).2.2 e he d hdrop

theorem mem_ahead {e : Delivery} (he : e ∈ o.rows) (hdue : due st.now e = true)
    (hsink : st.configured e.envelope.sinkName = true) (hkey : claimKey e ≤ claimKey d) :
    e ∈ st.ahead o d := by
  apply List.mem_filter.mpr
  refine ⟨he,?_⟩
  unfold Setting.routable
  rw [hdue, hsink]
  exact decide_eq_true hkey

theorem mem_front {α : Type} {x y : α} {front rest before after : List α}
    (h : front ++ x::rest = before ++ y::after) (hx : x ∉ before) (hne : x ≠ y) : y ∈ front := by
  rcases List.append_eq_append_iff.mp h with ⟨middle,hbefore,hrest⟩ | ⟨middle,hfront,hrest⟩
  · exfalso
    cases middle with
    | nil => exact hne (List.cons.inj hrest).1
    | cons z middle =>
      apply hx
      rw [hbefore, (List.cons.inj hrest).1]
      exact List.mem_append_right _ List.mem_cons_self
  · cases middle with
    | nil => exact absurd (List.cons.inj hrest).1.symm hne
    | cons z middle =>
      rw [hfront, (List.cons.inj hrest).1]
      exact List.mem_append_right _ List.mem_cons_self

theorem sentBy_routed (hfits : Fits st a) {after : Outbox} {ds : List Delivery} {fates : List Fate}
    (h : List.Forall₂ (Ended a st.now after) ds fates) (hunique : (ds.map (·.deliveryId)).Nodup)
    (hd : d ∈ ds) (hsink : st.configured d.envelope.sinkName = true) :
    d.deliveryId ∈ sentBy ds fates := by
  obtain ⟨fate,hended,hcount⟩ := sentBy_own h hunique hd
  apply List.count_pos_iff.mp
  rw [hcount]
  cases fate with
  | unroutable =>
    have hnone := (unroutable_routed hfits d).mp (hended.routed.mp rfl)
    rw [hsink] at hnone
    cases hnone
  | _ => exact Nat.zero_lt_one

/-- A claimed delivery that has a sink is handed to it in a pass that is completed. -/
theorem claimed_sent (hfits : Fits st a) {limit : ℕ} {p : Progress}
    (hclaimed : Claimed o st.now limit claimed) (hp : Accounted a st.now o claimed p)
    (hd : d ∈ claimed) (hroutable : st.configured d.envelope.sinkName = true) :
    d.deliveryId ∈ p.sent := by
  obtain ⟨fates,hends,hsent,-⟩ := hp.ends
  rw [hsent]
  exact sentBy_routed hfits hends (claimed_unique hclaimed) hd hroutable

/-- A pass that ends before it is completed has handed the delivery to its sink. -/
theorem aborted_sent (hfits : Fits st a) (hreached : Reached st o d) (hd : d ∈ o.rows)
    (hroutable : st.routable d = true) {p : Progress}
    (hclaimed : Claimed o st.now st.batchSize claimed)
    (herror : drain a st.now o none claimed = .error p) : d.deliveryId ∈ p.sent := by
  obtain ⟨hdue,hsink⟩ := routable_due hroutable
  have hclaimed' : Claimed o st.now ((none : Option ℕ).getD a.batchSize) claimed := by
    rw [Option.getD_none, hfits.batchSize]
    exact hclaimed
  rcases @drain_cases a st.now o none claimed hclaimed' with ⟨p',hok,-⟩ |
    ⟨front,e,rest,fates,p₁,p',hsplit,herror',hp,hstuck⟩
  · cases hok.symm.trans herror
  · rw [← Except.error.inj (herror'.symm.trans herror), hstuck.sent, hp.sent, List.nil_append,
      List.mem_append, List.mem_singleton]
    have hunique := claimed_unique hclaimed
    have he : e ∈ claimed := by
      rw [hsplit]
      exact List.mem_append_right _ List.mem_cons_self
    obtain ⟨herow,hedue⟩ := claimed_due hclaimed he
    have hesink : st.configured e.envelope.sinkName = true := by
      by_contra hbad
      rw [Bool.not_eq_true] at hbad
      exact hstuck.routed ((unroutable_routed hfits e).mpr hbad)
    -- The pass ends at a delivery that cannot be placed, so the delivery does not come after it.
    have hnot : ¬(claimKey e ≤ claimKey d ∧ e.deliveryId ≠ d.deliveryId) := by
      rintro ⟨hkey,hid⟩
      have hplaced := hreached.placed e (mem_ahead herow hedue hesink hkey) hid
      rw [← hfits.retry] at hplaced
      obtain ⟨at',hat⟩ := hplaced hstuck.spare
      exact hstuck.unplaced at' hat
    rcases claimed_key hclaimed hd hdue with ⟨before,after,hcut,hkeys⟩ | ⟨-,-,hkeys⟩
    · by_cases hsame : e.deliveryId = d.deliveryId
      · exact .inr hsame.symm
      · left
        have hebefore : e ∉ before := fun hmem => hnot ⟨hkeys e hmem,hsame⟩
        have hdfront : d ∈ front :=
          mem_front (hsplit.symm.trans hcut) hebefore fun heq => hsame (congrArg _ heq)
        rw [hsplit, List.map_append] at hunique
        exact sentBy_routed hfits hp.ends hunique.of_append_left hdfront hsink
    · by_contra hmissing
      exact hnot ⟨hkeys e he,fun hsame => hmissing (.inr hsame.symm)⟩

/-- A due row after a pass was due before it, and was not claimed or has no sink. -/
theorem due_after (hfits : Fits st a) {limit : ℕ} {p : Progress}
    (hclaimed : Claimed o st.now limit claimed) (hp : Accounted a st.now o claimed p)
    {r : Delivery} (hr : r ∈ p.outbox.rows) (hdue : due st.now r = true) :
    r ∈ o.rows ∧ (r.deliveryId ∈ claimed.map (·.deliveryId) →
      st.configured r.envelope.sinkName = false) := by
  obtain ⟨fates,hends,-,-⟩ := hp.ends
  by_cases hid : r.deliveryId ∈ claimed.map (·.deliveryId)
  · obtain ⟨e,he,hsame⟩ := List.mem_map.mp hid
    obtain ⟨fate,hended,-⟩ := sentBy_own hends (claimed_unique hclaimed) he
    obtain ⟨r',hr',hid',hleaves⟩ := hended.leaves
    obtain rfl := row_unique hr' hr (hid'.trans hsame)
    unfold due at hdue
    rw [Bool.and_eq_true, decide_eq_true_eq] at hdue
    cases fate with
    | delivered =>
      rw [over_waits (.inl hleaves.1)] at hdue
      cases hdue.1
    | retrying => exact absurd hdue.2 (not_le.mpr hleaves.2.2)
    | abandoned =>
      rw [over_waits (.inr hleaves.1)] at hdue
      cases hdue.1
    | unroutable =>
      have hrow : r' = e := hleaves
      rw [hrow]
      exact ⟨(claimed_due hclaimed he).1,
        fun _ => (unroutable_routed hfits e).mp (hended.routed.mp rfl)⟩
  · exact ⟨(hp.others r hid).mp hr,fun hmem => absurd hmem hid⟩

theorem length_le_of_rows {l m : List Delivery} (hl : (l.map (·.deliveryId)).Nodup)
    (h : ∀ r ∈ l, r ∈ m) : l.length ≤ m.length :=
  (List.subperm_of_subset (List.Nodup.of_map _ hl) h).length_le

theorem filter_unique (o : Outbox) (f : Delivery → Bool) :
    ((o.rows.filter f).map (·.deliveryId)).Nodup := o.unique.sublist (List.filter_sublist.map _)

/-- A completed pass attempts the delivery, or brings it nearer. -/
theorem completed_pass (hfits : Fits st a) (hreached : Reached st o d) (hd : d ∈ o.rows)
    (hroutable : st.routable d = true) {p : Progress}
    (hclaimed : Claimed o st.now st.batchSize claimed)
    (hok : drain a st.now o none claimed = .ok p) : d.deliveryId ∈ p.sent ∨
      (p.report.hasMore = true ∧ idle p.report = false) ∧ d ∈ p.outbox.rows ∧
      Reached st p.outbox d ∧ (st.ahead p.outbox d).length < (st.ahead o d).length := by
  obtain ⟨hdue,hsink⟩ := routable_due hroutable
  have hclaimed' : Claimed o st.now ((none : Option ℕ).getD a.batchSize) claimed := by
    rw [Option.getD_none, hfits.batchSize]
    exact hclaimed
  have hp : Accounted a st.now o claimed p := by
    rcases @drain_cases a st.now o none claimed hclaimed' with ⟨p',hok',hp⟩ |
      ⟨_,_,_,_,_,_,_,herror,_⟩
    · rw [← Except.ok.inj (hok'.symm.trans hok)]
      exact hp
    · cases herror.symm.trans hok
  rcases claimed_key hclaimed hd hdue with ⟨front,back,hsplit,-⟩ | ⟨hnot,hlength,hkeys⟩
  · left
    apply claimed_sent hfits hclaimed hp _ hsink
    rw [hsplit]
    exact List.mem_append_right _ List.mem_cons_self
  · right
    have hfree : d.deliveryId ∉ claimed.map (·.deliveryId) := by
      intro hmem
      obtain ⟨e,he,hid⟩ := List.mem_map.mp hmem
      rw [row_unique (claimed_due hclaimed he).1 hd hid] at he
      exact hnot he
    -- A full batch of deliveries without a sink would stand before the delivery.
    have hrouted : ∃ e ∈ claimed, st.configured e.envelope.sinkName = true := by
      by_contra hnone
      have hall : ∀ e ∈ claimed, e ∈ st.before o d := by
        intro e he
        obtain ⟨herow,hedue⟩ := claimed_due hclaimed he
        apply List.mem_filter.mpr
        refine ⟨herow,?_⟩
        unfold Setting.unroutable
        rw [hedue, Bool.not_eq_true _ |>.mp fun hc => hnone ⟨e,he,hc⟩]
        exact decide_eq_true (hkeys e he)
      have hle := length_le_of_rows (claimed_unique hclaimed) hall
      have hroom := hreached.room
      omega
    obtain ⟨e,he,hesink⟩ := hrouted
    obtain ⟨herow,hedue⟩ := claimed_due hclaimed he
    have hsent := claimed_sent hfits hclaimed hp he hesink
    refine ⟨⟨?_,?_⟩,(hp.others d hfree).mpr hd,⟨?_,?_⟩,?_⟩
    · rw [drain_hasMore hok (List.ne_nil_of_mem he), Option.getD_none, hfits.batchSize, hlength]
      exact decide_eq_true rfl
    · unfold idle
      have hpos : 0 < p.report.attempted := by
        rw [hp.attempted]
        exact List.length_pos_of_mem hsent
      have hne : p.report.attempted ≠ 0 := by omega
      simp [hne]
    · apply lt_of_le_of_lt _ hreached.room
      apply length_le_of_rows (filter_unique _ _)
      intro r hr
      obtain ⟨hrow,hkept⟩ := List.mem_filter.mp hr
      rw [Bool.and_eq_true] at hkept
      have hrdue : due st.now r = true := by
        have hun := hkept.1
        unfold Setting.unroutable at hun
        rw [Bool.and_eq_true] at hun
        exact hun.1
      apply List.mem_filter.mpr
      exact ⟨(due_after hfits hclaimed hp hrow hrdue).1,by rw [Bool.and_eq_true]; exact hkept⟩
    · intro r hr
      obtain ⟨hrow,hkept⟩ := List.mem_filter.mp hr
      rw [Bool.and_eq_true] at hkept
      have hrdue := (routable_due hkept.1).1
      apply hreached.placed r (List.mem_filter.mpr _)
      exact ⟨(due_after hfits hclaimed hp hrow hrdue).1,by rw [Bool.and_eq_true]; exact hkept⟩
    · have hahead : e ∈ st.ahead o d := mem_ahead herow hedue hesink (hkeys e he)
      have hfewer : ((st.ahead o d).filter (·.deliveryId ≠ e.deliveryId)).length <
          (st.ahead o d).length :=
        List.length_filter_lt_length_iff_exists.mpr ⟨e,hahead,by simp⟩
      apply lt_of_le_of_lt _ hfewer
      apply length_le_of_rows (filter_unique _ _)
      intro r hr
      obtain ⟨hrow,hkept⟩ := List.mem_filter.mp hr
      rw [Bool.and_eq_true] at hkept
      obtain ⟨hrdue,hrsink⟩ := routable_due hkept.1
      obtain ⟨hrold,hrunsent⟩ := due_after hfits hclaimed hp hrow hrdue
      apply List.mem_filter.mpr
      refine ⟨mem_ahead hrold hrdue hrsink (of_decide_eq_true hkept.2),decide_eq_true ?_⟩
      intro hid
      have hnone := hrunsent (hid ▸ List.mem_map_of_mem he)
      rw [hrsink] at hnone
      cases hnone

end Passes

/-! ### Every run of passes -/

section Runs
variable {st : Setting}

/-- A delivery that is not starved is attempted in as many passes as there are before it. -/
theorem drains_attempt {o : Outbox} {d : Delivery} {passes : List (List DeliveryId)}
    (h : Drains st o passes) (hd : d ∈ o.rows) (hroutable : st.routable d = true)
    (hreached : Reached st o d) (hlong : (st.ahead o d).length < passes.length) :
    d.deliveryId ∈ passes.flatten := by
  induction h with
  | none o => cases hlong
  | @drained o a claimed p rest hfits hclaimed hok _ ih =>
    rw [List.flatten_cons, List.mem_append]
    rcases completed_pass hfits hreached hd hroutable hclaimed hok with hsent |
      ⟨-,hkept,hstill,hnearer⟩
    · exact .inl hsent
    · rw [List.length_cons] at hlong
      exact .inr (ih hkept hstill (by omega))
  | @aborted o a claimed p rest hfits hclaimed herror _ _ =>
    rw [List.flatten_cons, List.mem_append]
    exact .inl (aborted_sent hfits hreached hd hroutable hclaimed herror)

theorem untilEmpty_attempt {n : ℕ} {o : Outbox} {d : Delivery} {passes : List (List DeliveryId)}
    (h : UntilEmpty st n o passes) (hd : d ∈ o.rows) (hroutable : st.routable d = true)
    (hreached : Reached st o d) (hlong : (st.ahead o d).length < n) :
    d.deliveryId ∈ passes.flatten := by
  induction h with
  | spent o => cases hlong
  | idle hfits hclaimed hok hidle =>
    rw [List.flatten_cons, List.mem_append]
    rcases completed_pass hfits hreached hd hroutable hclaimed hok with hsent | ⟨⟨-,hbusy⟩,-⟩
    · exact .inl hsent
    · cases hidle.symm.trans hbusy
  | last hfits hclaimed hok _ hlast =>
    rw [List.flatten_cons, List.mem_append]
    rcases completed_pass hfits hreached hd hroutable hclaimed hok with hsent | ⟨⟨hmore,-⟩,-⟩
    · exact .inl hsent
    · cases hlast.symm.trans hmore
  | more hfits hclaimed hok _ _ _ ih =>
    rw [List.flatten_cons, List.mem_append]
    rcases completed_pass hfits hreached hd hroutable hclaimed hok with hsent |
      ⟨-,hkept,hstill,hnearer⟩
    · exact .inl hsent
    · exact .inr (ih hkept hstill (by omega))
  | aborted hfits hclaimed herror =>
    rw [List.flatten_cons, List.mem_append]
    exact .inl (aborted_sent hfits hreached hd hroutable hclaimed herror)

end Runs

/-! ### A run that passes a delivery over -/

/-- Sinks that refuse everything. -/
def refusing (st : Setting) : AlertDispatcher where
  sinks := fun name => if st.configured name then some fun _ _ => .result ⟨false,none,true⟩ else none
  retry := st.retry
  batchSize := st.batchSize
  repr := id

theorem refusing_fits (st : Setting) : Fits st (refusing st) := by
  refine ⟨fun name => ?_,rfl,rfl⟩
  unfold refusing
  dsimp only
  cases st.configured name <;> rfl

section Adversary
variable (st : Setting) (o : Outbox) (d : Delivery)

/-- The other due deliveries. -/
def others : List Delivery := (o.rows.filter (due st.now)).filter (·.deliveryId ≠ d.deliveryId)

/-- Those that a claim may put before the delivery. -/
def front : List Delivery := sortedBy claimKey ((others st o d).filter (claimKey · ≤ claimKey d))

def back : List Delivery :=
  sortedBy claimKey ((others st o d).filter fun e => !decide (claimKey e ≤ claimKey d))

/-- A claim that puts the delivery behind every other one of its instant. -/
def lastClaim : List Delivery := (front st o d ++ d::back st o d).take st.batchSize

end Adversary

section Starving
variable {st : Setting} {o : Outbox} {d : Delivery}

theorem mem_front_iff {e : Delivery} : e ∈ front st o d ↔
    (e ∈ o.rows ∧ due st.now e = true) ∧ e.deliveryId ≠ d.deliveryId ∧ claimKey e ≤ claimKey d := by
  unfold front others
  rw [mem_sortedBy, List.mem_filter, List.mem_filter, List.mem_filter, decide_eq_true_eq,
    decide_eq_true_eq, and_assoc]

theorem filter_own {rows : List Delivery} (hunique : (rows.map (·.deliveryId)).Nodup)
    (hd : d ∈ rows) : rows.filter (·.deliveryId = d.deliveryId) = [d] := by
  induction rows with
  | nil => cases hd
  | cons e rows ih =>
    rw [List.map_cons, List.nodup_cons] at hunique
    rcases List.mem_cons.mp hd with rfl | hd
    · rw [List.filter_cons_of_pos (by simp), List.filter_eq_nil_iff.mpr]
      intro r hr hid
      apply hunique.1
      rw [← of_decide_eq_true hid]
      exact List.mem_map_of_mem hr
    · rw [List.filter_cons_of_neg, ih hunique.2 hd]
      intro hid
      apply hunique.1
      rw [of_decide_eq_true hid]
      exact List.mem_map_of_mem hd

theorem lastClaim_claimed (hd : d ∈ o.rows) (hdue : due st.now d = true) :
    Claimed o st.now st.batchSize (lastClaim st o d) := by
  refine ⟨front st o d ++ d::back st o d,?_,?_,rfl⟩
  · have hown : (o.rows.filter (due st.now)).filter (·.deliveryId = d.deliveryId) = [d] :=
      filter_own (filter_unique o _) (List.mem_filter.mpr ⟨hd,hdue⟩)
    have hparts : (others st o d).Perm (front st o d ++ back st o d) :=
      ((List.filter_append_perm (fun e => decide (claimKey e ≤ claimKey d)) _).symm).trans
        ((sortedBy_perm _ _).symm.append (sortedBy_perm _ _).symm)
    have hall := List.filter_append_perm (fun e : Delivery => decide (e.deliveryId = d.deliveryId))
      (o.rows.filter (due st.now))
    rw [hown] at hall
    have hothers : (o.rows.filter (due st.now)).filter
        (fun e => !decide (e.deliveryId = d.deliveryId)) = others st o d := by
      unfold others
      congr 1
      funext e
      simp
    rw [hothers] at hall
    exact (List.perm_middle.trans (hparts.symm.cons d)).trans hall
  · apply List.pairwise_append.mpr
    refine ⟨sortedBy_ordered _ _,List.pairwise_cons.mpr ⟨?_,sortedBy_ordered _ _⟩,?_⟩
    · intro e he
      unfold back at he
      rw [mem_sortedBy, List.mem_filter] at he
      have hlate : ¬ claimKey e ≤ claimKey d := by simpa using he.2
      exact (not_le.mp hlate).le
    · intro e he r hr
      have hearly := (mem_front_iff.mp he).2.2
      rcases List.mem_cons.mp hr with rfl | hr
      · exact hearly
      · unfold back at hr
        rw [mem_sortedBy, List.mem_filter] at hr
        have hlate : ¬ claimKey r ≤ claimKey d := by simpa using hr.2
        exact hearly.trans (not_le.mp hlate).le

/-- The delivery is due, and too many stand before it or a pass ends before it. -/
structure Blocked (st : Setting) (o : Outbox) (d : Delivery) : Prop where
  row : d ∈ o.rows
  routable : st.routable d = true
  blocked : st.batchSize ≤ (st.before o d).length ∨
    ∃ e ∈ st.ahead o d, e.deliveryId ≠ d.deliveryId ∧ (e.attempts+1 : ℕ) < st.retry.maxAttempts ∧
      ∀ at', st.retry.retryAt st.now (e.attempts+1) ≠ .ok at'

theorem blocked_of (hd : d ∈ o.rows) (hroutable : st.routable d = true) (h : ¬ Reached st o d) :
    Blocked st o d := by
  refine ⟨hd,hroutable,?_⟩
  by_contra hnone
  rw [not_or, not_le] at hnone
  apply h
  refine ⟨hnone.1,fun e he hid hspare => ?_⟩
  by_contra hunplaced
  exact hnone.2 ⟨e,he,hid,hspare,fun at' hat => hunplaced ⟨at',hat⟩⟩

theorem deliver_sent (a : AlertDispatcher) (now : Instant) (p : Progress) (c : ClaimedDelivery) :
    ∃ p', (deliver a now p c = .ok p' ∨ deliver a now p c = .error p') ∧
      ∀ id ∈ p'.sent, id ∈ p.sent ∨ id = c.deliveryId := by
  have hkept : ∀ id ∈ p.sent, id ∈ p.sent ∨ id = c.deliveryId := fun id hid => .inl hid
  have hadded : ∀ id ∈ p.sent ++ [c.deliveryId], id ∈ p.sent ∨ id = c.deliveryId := by
    intro id hid
    rcases List.mem_append.mp hid with hid | hid
    · exact .inl hid
    · exact .inr (List.mem_singleton.mp hid)
  simp only [deliver]
  cases a.sinks c.envelope.sinkName with
  | none => exact ⟨_,.inl rfl,hkept⟩
  | some sink =>
    dsimp only
    split_ifs
    · exact ⟨_,.inl rfl,hadded⟩
    · exact ⟨_,.inl rfl,hadded⟩
    · cases a.retry.retryAt now (c.attempts+1) with
      | ok at' => exact ⟨_,.inl rfl,hadded⟩
      | error e => exact ⟨_,.inr rfl,hadded⟩

/-- A delivery that refusing sinks cannot be tried at again ends the pass. -/
theorem refused_stuck {e : Delivery} (hsink : st.configured e.envelope.sinkName = true)
    (hspare : (e.attempts+1 : ℕ) < st.retry.maxAttempts)
    (hunplaced : ∀ at', st.retry.retryAt st.now (e.attempts+1) ≠ .ok at') (p : Progress) :
    ∃ p', deliver (refusing st) st.now p e.claimed = .error p' := by
  have hover : (!true || st.retry.exhausted (e.attempts+1)) = false := by
    unfold RetrySchedule.exhausted
    rw [Bool.not_true, Bool.false_or, decide_eq_false_iff_not]
    exact not_le.mpr hspare
  cases hplaced : st.retry.retryAt st.now (e.attempts+1) with
  | ok at' => exact absurd hplaced (hunplaced at')
  | error fault =>
    simp only [deliver, refusing, Delivery.claimed, hsink, attempt, if_true, Bool.false_eq_true,
      if_false, hover, hplaced]
    exact ⟨_,rfl⟩

theorem deliverAll_delivered {a : AlertDispatcher} {now : Instant} {f : Delivery} {p p₁ : Progress}
    (h : deliver a now p f.claimed = .ok p₁) (rest : List Delivery) :
    deliverAll a now (f::rest) p = deliverAll a now rest p₁ := by
  simp only [deliverAll, h]

theorem deliverAll_halted {a : AlertDispatcher} {now : Instant} {f : Delivery} {p p₁ : Progress}
    (h : deliver a now p f.claimed = .error p₁) (rest : List Delivery) :
    deliverAll a now (f::rest) p = .error p₁ := by
  simp only [deliverAll, h]

theorem deliverAll_stuck {a : AlertDispatcher} {now : Instant} {e : Delivery}
    (hstuck : ∀ p, ∃ p', deliver a now p e.claimed = .error p') (ahead rest : List Delivery)
    (p : Progress) : ∃ p', deliverAll a now (ahead ++ e::rest) p = .error p' ∧
      ∀ id ∈ p'.sent, id ∈ p.sent ∨ id ∈ (ahead ++ [e]).map (·.deliveryId) := by
  induction ahead generalizing p with
  | nil =>
    obtain ⟨p',hp'⟩ := hstuck p
    obtain ⟨p'',hres,hsent⟩ := deliver_sent a now p e.claimed
    have hsame : p'' = p' := by
      rcases hres with hres | hres
      · cases hp'.symm.trans hres
      · exact Except.error.inj (hres.symm.trans hp')
    refine ⟨p',deliverAll_halted hp' rest,fun id hid => ?_⟩
    rcases hsent id (hsame ▸ hid) with hold | hnew
    · exact .inl hold
    · exact .inr (List.mem_singleton.mpr hnew)
  | cons f ahead ih =>
    rw [List.cons_append]
    obtain ⟨p₁,hres | hres,hsent⟩ := deliver_sent a now p f.claimed
    · obtain ⟨p',hrest,hids⟩ := ih p₁
      rw [deliverAll_delivered hres]
      refine ⟨p',hrest,fun id hid => ?_⟩
      rcases hids id hid with hold | hnew
      · rcases hsent id hold with hold | hnew
        · exact .inl hold
        · exact .inr (hnew ▸ List.mem_cons_self)
      · exact .inr (List.mem_cons_of_mem _ hnew)
    · rw [deliverAll_halted hres]
      refine ⟨p₁,rfl,fun id hid => ?_⟩
      rcases hsent id hid with hold | hnew
      · exact .inl hold
      · exact .inr (hnew ▸ List.mem_cons_self)

/-- A row that is not claimed, or has no sink, stays as it is. -/
theorem row_kept {a : AlertDispatcher} (hfits : Fits st a) {limit : ℕ} {claimed : List Delivery}
    {p : Progress} (hclaimed : Claimed o st.now limit claimed)
    (hp : Accounted a st.now o claimed p) {u : Delivery} (hu : u ∈ o.rows)
    (hquiet : u.deliveryId ∉ claimed.map (·.deliveryId) ∨
      st.configured u.envelope.sinkName = false) : u ∈ p.outbox.rows := by
  by_cases hid : u.deliveryId ∈ claimed.map (·.deliveryId)
  · obtain ⟨e,he,hsame⟩ := List.mem_map.mp hid
    obtain rfl := row_unique (claimed_due hclaimed he).1 hu hsame
    have hsink := hquiet.resolve_left fun hfree => hfree hid
    obtain ⟨fates,hends,-,-⟩ := hp.ends
    obtain ⟨fate,hended,-⟩ := sentBy_own hends (claimed_unique hclaimed) he
    obtain ⟨r,hr,-,hleaves⟩ := hended.leaves
    rw [hended.routed.mpr ((unroutable_routed hfits e).mpr hsink)] at hleaves
    have hrow : r = e := hleaves
    rw [← hrow]
    exact hr
  · exact (hp.others u hid).mpr hu

theorem claimed_default {claimed : List Delivery} (h : Claimed o st.now st.batchSize claimed) :
    Claimed o st.now ((none : Option ℕ).getD (refusing st).batchSize) claimed := h

/-- A pass that does not claim the delivery leaves it blocked, if what blocks it stays. -/
theorem unclaimed_pass (h : Blocked st o d) (hfree : d.deliveryId ∉
    (lastClaim st o d).map (·.deliveryId))
    (hstays : ∀ p, Accounted (refusing st) st.now o (lastClaim st o d) p →
      d ∈ p.outbox.rows → Blocked st p.outbox d) :
    ∃ sent o', d.deliveryId ∉ sent ∧ Blocked st o' d ∧
      ∀ rest, Drains st o' rest → Drains st o (sent::rest) := by
  have hclaimed := lastClaim_claimed h.row (routable_due h.routable).1
  rcases @drain_cases (refusing st) st.now o none _ (claimed_default hclaimed) with ⟨p,hok,hp⟩ |
    ⟨_,_,_,_,_,p,_,herror,_,_⟩
  · refine ⟨p.sent,p.outbox,sent_claimed (claimed_default hclaimed) (.inl hok) hfree,
      hstays p hp ((hp.others d hfree).mpr h.row),fun rest hrest => ?_⟩
    exact .drained (refusing_fits st) hclaimed hok hrest
  · refine ⟨p.sent,o,sent_claimed (claimed_default hclaimed) (.inr herror) hfree,h,
      fun rest hrest => ?_⟩
    exact .aborted (refusing_fits st) hclaimed herror hrest

theorem front_free : d.deliveryId ∉ (front st o d).map (·.deliveryId) := by
  intro hmem
  obtain ⟨e,he,hid⟩ := List.mem_map.mp hmem
  exact (mem_front_iff.mp he).2.1 hid

/-- There is a pass that does not attempt a blocked delivery and leaves it blocked. -/
theorem starving_pass (h : Blocked st o d) : ∃ sent o', d.deliveryId ∉ sent ∧ Blocked st o' d ∧
    ∀ rest, Drains st o' rest → Drains st o (sent::rest) := by
  obtain ⟨hdue,hsink⟩ := routable_due h.routable
  have hclaimed := lastClaim_claimed h.row hdue
  rcases h.blocked with hfull | ⟨e,he,hid,hspare,hunplaced⟩
  · -- A full batch without sinks is claimed, and all of it is claimed again.
    have hin : ∀ u ∈ st.before o d, u ∈ front st o d := by
      intro u hu
      obtain ⟨hrow,hkept⟩ := List.mem_filter.mp hu
      rw [Bool.and_eq_true, Setting.unroutable, Bool.and_eq_true, decide_eq_true_eq] at hkept
      apply mem_front_iff.mpr
      refine ⟨⟨hrow,hkept.1.1⟩,?_,hkept.2⟩
      intro heq
      rw [row_unique hrow h.row heq, hsink] at hkept
      cases hkept.1.2
    have hlong : st.batchSize ≤ (front st o d).length :=
      hfull.trans (length_le_of_rows (filter_unique o _) hin)
    have hfront : lastClaim st o d = (front st o d).take st.batchSize := by
      unfold lastClaim
      rw [List.take_append_of_le_length hlong]
    apply unclaimed_pass h
    · rw [hfront]
      exact fun hmem => front_free (((List.take_sublist _ _).map _).subset hmem)
    · intro p hp hrow
      refine ⟨hrow,h.routable,.inl (hfull.trans ?_)⟩
      apply length_le_of_rows (filter_unique o _)
      intro u hu
      obtain ⟨hurow,hukept⟩ := List.mem_filter.mp hu
      apply List.mem_filter.mpr
      refine ⟨row_kept (refusing_fits st) hclaimed hp hurow (.inr ?_),hukept⟩
      rw [Bool.and_eq_true, Setting.unroutable, Bool.and_eq_true] at hukept
      simpa using hukept.1.2
  · obtain ⟨herow,hekept⟩ := List.mem_filter.mp he
    rw [Bool.and_eq_true, decide_eq_true_eq] at hekept
    obtain ⟨hedue,hesink⟩ := routable_due hekept.1
    have hfront : e ∈ front st o d := mem_front_iff.mpr ⟨⟨herow,hedue⟩,hid,hekept.2⟩
    by_cases hcut : e ∈ (front st o d).take st.batchSize
    · -- The pass ends at a delivery that is claimed before this one.
      obtain ⟨first,second,hsplit⟩ := List.append_of_mem hcut
      have hlast : ∃ rest, lastClaim st o d = first ++ e::rest := by
        unfold lastClaim
        rw [List.take_append, hsplit]
        exact ⟨_,by rw [List.append_assoc, List.cons_append]⟩
      obtain ⟨rest,hlast⟩ := hlast
      obtain ⟨p,herror,hsent⟩ := deliverAll_stuck (refused_stuck hesink hspare hunplaced) first rest
        ⟨o,{},[]⟩
      have hdrain : drain (refusing st) st.now o none (lastClaim st o d) = .error p := by
        unfold drain
        have hne : lastClaim st o d ≠ [] := by
          rw [hlast]
          exact List.append_ne_nil_of_right_ne_nil _ (List.cons_ne_nil _ _)
        simp only [if_neg hne]
        rw [hlast, herror]
      refine ⟨p.sent,o,fun hmem => ?_,h,fun rest hrest => ?_⟩
      · rcases hsent _ hmem with hold | hnew
        · cases hold
        · apply @front_free st o d
          have hsub : (first ++ [e]).Sublist (front st o d) := by
            have htake := List.take_sublist st.batchSize (front st o d)
            rw [hsplit] at htake
            exact ((List.sublist_append_left [e] second).append_left first).trans htake
          exact (hsub.map _).subset hnew
      · exact .aborted (refusing_fits st) hclaimed hdrain hrest
    · have hshort : st.batchSize ≤ (front st o d).length := by
        by_contra hlong
        apply hcut
        rw [List.take_of_length_le (by omega)]
        exact hfront
      have hfront : lastClaim st o d = (front st o d).take st.batchSize := by
        unfold lastClaim
        rw [List.take_append_of_le_length hshort]
      apply unclaimed_pass h
      · rw [hfront]
        exact fun hmem => front_free (((List.take_sublist _ _).map _).subset hmem)
      · intro p hp hrow
        refine ⟨hrow,h.routable,.inr ⟨e,List.mem_filter.mpr ⟨?_,?_⟩,hid,hspare,hunplaced⟩⟩
        · apply row_kept (refusing_fits st) hclaimed hp herow
          left
          rw [hfront]
          intro hmem
          obtain ⟨r,hr,hsame⟩ := List.mem_map.mp hmem
          have hrrow := (mem_front_iff.mp (List.mem_of_mem_take hr)).1.1
          rw [row_unique hrrow herow hsame] at hr
          exact hcut hr
        · rw [Bool.and_eq_true, decide_eq_true_eq]
          exact hekept

/-- A blocked delivery is passed over as often as one likes. -/
theorem blocked_starves (h : Blocked st o d) (n : ℕ) : ∃ passes, Drains st o passes ∧
    passes.length = n ∧ d.deliveryId ∉ passes.flatten := by
  induction n generalizing o with
  | zero => exact ⟨[],.none o,rfl,List.not_mem_nil⟩
  | succ n ih =>
    obtain ⟨sent,o',hsent,hblocked,hstep⟩ := starving_pass h
    obtain ⟨passes,hdrains,hlength,hmissed⟩ := ih hblocked
    refine ⟨sent::passes,hstep passes hdrains,congrArg (·+1) hlength,?_⟩
    rw [List.flatten_cons, List.mem_append, not_or]
    exact ⟨hsent,hmissed⟩

end Starving

/-- No delivery starves if each due one with a sink is reached, and only then. -/
theorem none_starves (st : Setting) (o : Outbox) : NoneStarves st o ↔
    ∀ d ∈ o.rows, st.routable d = true → Reached st o d := by
  constructor
  · intro h d hd hroutable
    by_contra hblocked
    obtain ⟨n,hn⟩ := (h d hd hroutable).1
    obtain ⟨passes,hdrains,hlength,hmissed⟩ := blocked_starves (blocked_of hd hroutable hblocked) n
    exact hmissed (hn passes hdrains hlength.ge)
  · intro h d hd hroutable
    have hreached := h d hd hroutable
    refine ⟨⟨(st.ahead o d).length+1,fun passes hdrains hlong => ?_⟩,
      (st.ahead o d).length+1,fun m passes hlong hruns => ?_⟩
    · exact drains_attempt hdrains hd hroutable hreached (by omega)
    · exact untilEmpty_attempt hruns hd hroutable hreached (by omega)

namespace Sample

theorem parts_accepted : ({} : RetryParts).Accepted :=
  ⟨by norm_num,by norm_num,by norm_num,by norm_num,by norm_num [maxAttemptsCeiling]⟩

def envelope (sinkName : String) : DeliveryEnvelope where
  eventId := "event"
  alertKey := "alert"
  trigger := .criticalRiskFindingOpened
  transition := .raised
  sinkName := sinkName
  occurredAt := 0
  summary := "Everyone may write"
  payload := []

/-- One delivery for a sink that was removed, and a later one for the sink that is there. -/
def rows : List Delivery :=
  [pendingDelivery "first" (envelope "removed") 0, pendingDelivery "second" (envelope "hook") 10]

theorem rows_unique : (rows.map (·.deliveryId)).Nodup := by decide

def outbox : Outbox := ⟨rows,rows_unique⟩

/-- One delivery a pass. -/
def setting : Setting where
  configured := fun name => name = "hook"
  retry := ⟨{},parts_accepted⟩
  batchSize := 1
  positive := le_rfl
  now := 60

end Sample

open Sample in
/-- The delivery behind the one without a sink is not attempted, however often the outbox is
drained. -/
theorem second_starves : ¬ NoneStarves setting outbox := by
  intro h
  have hrow : pendingDelivery "second" (envelope "hook") 10 ∈ outbox.rows :=
    List.mem_cons_of_mem _ List.mem_cons_self
  have hroutable : setting.routable (pendingDelivery "second" (envelope "hook") 10) = true := by
    decide
  obtain ⟨n,hn⟩ := (h _ hrow hroutable).1
  obtain ⟨passes,hdrains,hlength,hmissed⟩ := blocked_starves ⟨hrow,hroutable,.inl (by decide)⟩ n
  exact hmissed (hn passes hdrains hlength.ge)

end Adg.StarvedDeliveries
