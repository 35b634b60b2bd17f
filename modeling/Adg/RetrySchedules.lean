import Adg.AlertModel

/-!
# How long to wait before the next attempt

A delay grows by a factor with every attempt and is capped. The growth is
computed before the cap is applied, and what a duration cannot hold is not
computed at all.
-/

set_option autoImplicit false

namespace Adg.RetrySchedules
open Adg.ObjectVersions

/-! ### Rounding to the nearest integer -/

/-- The nearest integer, and the even one of two that are as near. -/
def roundHalfEven (q : ℚ) : ℤ :=
  if q-⌊q⌋ < 1/2 then ⌊q⌋
  else if 1/2 < q-⌊q⌋ then ⌊q⌋+1
  else if ⌊q⌋%2 = 0 then ⌊q⌋
  else ⌊q⌋+1

theorem roundHalfEven_bounds (q : ℚ) : ⌊q⌋ ≤ roundHalfEven q ∧ roundHalfEven q ≤ ⌊q⌋+1 := by
  unfold roundHalfEven
  split_ifs <;> omega

theorem roundHalfEven_int (n : ℤ) : roundHalfEven n = n := by
  unfold roundHalfEven
  rw [Int.floor_intCast, if_pos (by norm_num)]

theorem roundHalfEven_mono {q r : ℚ} (h : q ≤ r) : roundHalfEven q ≤ roundHalfEven r := by
  rcases lt_or_eq_of_le (Int.floor_mono h) with hlt | heq
  · have hq := (roundHalfEven_bounds q).2
    have hr := (roundHalfEven_bounds r).1
    omega
  · unfold roundHalfEven
    rw [← heq]
    have hfrac : q-⌊q⌋ ≤ r-⌊q⌋ := by linarith
    split_ifs with h1 h2 h3 h4 h5 h6 <;> first | omega | (exfalso; linarith)

/-! ### Durations -/

/-- A `timedelta`, in microseconds. -/
abbrev Duration := ℤ

/-- `timedelta.max`. -/
def timedeltaMax : Duration := 1000000000*86400000000-1

/-- `timedelta.min`. -/
def timedeltaMin : Duration := -999999999*86400000000

/-- `datetime.max`. -/
def datetimeMax : Instant := 253402300799999999

inductive Fault where
  | policy (message field : String)
  | overflow
  deriving DecidableEq, Repr

/-- `timedelta(seconds=seconds)`. -/
def timedelta (seconds : ℚ) : Except Fault Duration :=
  let microseconds := roundHalfEven (seconds*1000000)
  if timedeltaMin ≤ microseconds ∧ microseconds ≤ timedeltaMax then .ok microseconds
  else .error .overflow

/-- `instant + duration`. -/
def later (instant : Instant) (duration : Duration) : Except Fault Instant :=
  if instant+duration ≤ datetimeMax then .ok (instant+duration) else .error .overflow

/-! ### The schedule -/

def maxAttemptsCeiling : ℤ := 20

/-- What a schedule says. -/
structure RetryParts where
  initial : Duration := 30000000
  multiplier : ℚ := 4
  maximum : Duration := 3600000000
  maxAttempts : ℤ := 6

/-- What `RetrySchedule.__post_init__` accepts. A duration holds no more than `timedelta.max`. -/
structure RetryParts.Accepted (r : RetryParts) : Prop where
  initial_pos : 0 < r.initial
  multiplier_one : 1 ≤ r.multiplier
  maximum_initial : r.initial ≤ r.maximum
  attempts_pos : 1 ≤ r.maxAttempts
  attempts_ceiling : r.maxAttempts ≤ maxAttemptsCeiling

structure RetrySchedule extends RetryParts where
  accepted : toRetryParts.Accepted

theorem accepted_of {r : RetryParts} (h1 : ¬ r.initial ≤ 0) (h2 : ¬ r.multiplier < 1)
    (h3 : ¬ r.maximum < r.initial) (h4 : 1 ≤ r.maxAttempts ∧ r.maxAttempts ≤ maxAttemptsCeiling) :
    r.Accepted := ⟨not_le.mp h1,not_lt.mp h2,not_lt.mp h3,h4.1,h4.2⟩

/-- `RetrySchedule.__post_init__`. -/
def RetrySchedule.build (r : RetryParts) : Except Fault RetrySchedule :=
  if h1 : r.initial ≤ 0 then
    .error (.policy "The first retry delay must be positive." "initial")
  else if h2 : r.multiplier < 1 then
    .error (.policy "A retry multiplier below 1 makes each attempt sooner than the last, which turns a failing endpoint into a tight loop." "multiplier")
  else if h3 : r.maximum < r.initial then
    .error (.policy "The retry ceiling must be at least the first delay." "maximum")
  else if h4 : 1 ≤ r.maxAttempts ∧ r.maxAttempts ≤ maxAttemptsCeiling then
    .ok ⟨r,accepted_of h1 h2 h3 h4⟩
  else
    let received := r.maxAttempts
    .error (.policy s!"max_attempts must be between 1 and 20; received {received}. An unbounded retry keeps a dead endpoint's backlog growing in front of every other delivery." "max_attempts")

theorem build_accepted {r : RetryParts} {s : RetrySchedule} (h : RetrySchedule.build r = .ok s) :
    s.toRetryParts = r := by
  unfold RetrySchedule.build at h
  split_ifs at h
  rw [← Except.ok.inj h]

/-- `delay_before`. -/
def RetrySchedule.delayBefore (s : RetrySchedule) (attempt : ℕ) : Except Fault Duration := do
  if attempt < 1 then
    throw (.policy "A retry delay is asked for after an attempt, so the count is at least 1." "attempt")
  let seconds : ℚ := s.initial/1000000*s.multiplier^(attempt-1)
  return min (← timedelta seconds) s.maximum

/-- `exhausted`. -/
def RetrySchedule.exhausted (s : RetrySchedule) (attempts : ℕ) : Bool := s.maxAttempts ≤ attempts

/-! ### Delays -/

section Delays
variable (s : RetrySchedule)

/-- The delay after an attempt, before the cap. -/
def RetrySchedule.grown (attempt : ℕ) : Duration :=
  roundHalfEven (s.initial*s.multiplier^(attempt-1))

theorem grown_mono {m n : ℕ} (h : m ≤ n) : s.grown m ≤ s.grown n := by
  apply roundHalfEven_mono
  have hpow : s.multiplier^(m-1) ≤ s.multiplier^(n-1) :=
    pow_le_pow_right₀ s.accepted.multiplier_one (by omega)
  have hinitial : (0 : ℚ) ≤ s.initial := by exact_mod_cast s.accepted.initial_pos.le
  exact mul_le_mul_of_nonneg_left hpow hinitial

theorem initial_grown (n : ℕ) : s.initial ≤ s.grown n := by
  have hfirst : s.grown 1 = s.initial := by
    unfold RetrySchedule.grown
    rw [Nat.sub_self, pow_zero, mul_one, roundHalfEven_int]
  have hzero : s.grown 0 = s.grown 1 := rfl
  rcases Nat.eq_zero_or_pos n with rfl | hpos
  · rw [hzero, hfirst]
  · rw [← hfirst]
    exact grown_mono s hpos

theorem delayBefore_eq {n : ℕ} (h : 1 ≤ n) : s.delayBefore n =
    if s.grown n ≤ timedeltaMax then .ok (min (s.grown n) s.maximum) else .error .overflow := by
  have hmicro : (s.initial/1000000*s.multiplier^(n-1) : ℚ)*1000000 =
      s.initial*s.multiplier^(n-1) := by ring
  have hmin : timedeltaMin ≤ s.grown n := by
    have hinitial := initial_grown s n
    have hpos := s.accepted.initial_pos
    unfold timedeltaMin
    linarith
  unfold RetrySchedule.delayBefore
  rw [if_neg (by omega)]
  show (timedelta (s.initial/1000000*s.multiplier^(n-1))).bind
    (fun d => .ok (min d s.maximum)) = _
  unfold timedelta
  rw [hmicro]
  change (if timedeltaMin ≤ s.grown n ∧ s.grown n ≤ timedeltaMax then Except.ok (s.grown n)
    else Except.error Fault.overflow).bind _ = _
  by_cases hmax : s.grown n ≤ timedeltaMax
  · rw [if_pos ⟨hmin,hmax⟩, if_pos hmax]
    rfl
  · rw [if_neg fun hboth => hmax hboth.2, if_neg hmax]
    rfl

/-- A delay that is computed stands between the first one and the ceiling. -/
theorem delayBefore_bounds {n : ℕ} {d : Duration} (h : 1 ≤ n) (hd : s.delayBefore n = .ok d) :
    s.initial ≤ d ∧ d ≤ s.maximum := by
  rw [delayBefore_eq s h] at hd
  split_ifs at hd
  rw [← Except.ok.inj hd]
  exact ⟨le_min (initial_grown s n) s.accepted.maximum_initial,min_le_right _ _⟩

/-- Delays do not get shorter. -/
theorem delayBefore_mono {m n : ℕ} {d e : Duration} (hm : 1 ≤ m) (h : m ≤ n)
    (hd : s.delayBefore m = .ok d) (he : s.delayBefore n = .ok e) : d ≤ e := by
  rw [delayBefore_eq s hm] at hd
  rw [delayBefore_eq s (hm.trans h)] at he
  split_ifs at hd
  split_ifs at he
  rw [← Except.ok.inj hd, ← Except.ok.inj he]
  exact min_le_min_right _ (grown_mono s h)

/-- When a delivery is tried again after some attempts. -/
def RetrySchedule.retryAt (now : Instant) (attempts : ℕ) : Except Fault Instant := do
  later now (← s.delayBefore attempts)

theorem retryAt_ok {now at' : Instant} {n : ℕ} (hn : 1 ≤ n) : s.retryAt now n = .ok at' ↔
    s.grown n ≤ timedeltaMax ∧ now+min (s.grown n) s.maximum ≤ datetimeMax ∧
      at' = now+min (s.grown n) s.maximum := by
  unfold RetrySchedule.retryAt
  rw [delayBefore_eq s hn]
  by_cases hmax : s.grown n ≤ timedeltaMax
  · rw [if_pos hmax]
    show later now _ = _ ↔ _
    unfold later
    by_cases hlate : now+min (s.grown n) s.maximum ≤ datetimeMax
    · rw [if_pos hlate, Except.ok.injEq]
      exact ⟨fun h => ⟨hmax,hlate,h.symm⟩,fun h => h.2.2.symm⟩
    · rw [if_neg hlate]
      constructor
      · intro h
        cases h
      · exact fun h => absurd h.2.1 hlate
  · rw [if_neg hmax]
    constructor
    · intro h
      cases h
    · exact fun h => absurd h.1 hmax

/-- The next attempt is after the one that failed. -/
theorem retryAt_later {now at' : Instant} {n : ℕ} (hn : 1 ≤ n) (h : s.retryAt now n = .ok at') :
    now < at' := by
  have hpos := s.accepted.initial_pos
  have hgrown := initial_grown s n
  have hmaximum := s.accepted.maximum_initial
  have hmin : 0 < min (s.grown n) s.maximum := lt_min (by linarith) (by linarith)
  rw [((retryAt_ok s hn).mp h).2.2]
  linarith

end Delays

end Adg.RetrySchedules
