import Mathlib

/-!
# Ordered allow and deny rules over bit sets

An ordered rule list settles every bit independently: the first rule that
names a bit decides it. The usual implementation keeps two accumulators and
subtracts each from the other's contributions; this module proves the two
readings equal and derives how the outcome moves when rules are removed or
newly applied. Nothing here mentions a particular rule type.
-/

set_option autoImplicit false

namespace Adg.OrderedRules

section Settling
variable {ε : Type*} {w : ℕ} (allow : ε → Bool) (mask : ε → BitVec w)

/-- What has been decided so far, in each direction. -/
structure Settled (w : ℕ) where
  granted : BitVec w := 0
  denied : BitVec w := 0

/-- The part of a rule's mask that nothing before it had refused it. -/
def contribution (s : Settled w) (e : ε) : BitVec w :=
  if allow e then mask e &&& ~~~s.denied else mask e &&& ~~~s.granted

def settle (s : Settled w) (e : ε) : Settled w :=
  if allow e then { s with granted := s.granted ||| contribution allow mask s e }
  else { s with denied := s.denied ||| contribution allow mask s e }

def settleAll (s : Settled w) (es : List ε) : Settled w := es.foldl (settle allow mask) s

/-- The first rule that names a bit. -/
def decider (b : ℕ) (es : List ε) : Option ε := es.find? fun e => (mask e).getLsbD b

@[simp] theorem settleAll_nil (s : Settled w) : settleAll allow mask s [] = s := rfl

@[simp] theorem settleAll_cons (s : Settled w) (e : ε) (es : List ε) :
    settleAll allow mask s (e::es) = settleAll allow mask (settle allow mask s e) es := rfl

theorem settleAll_append (s : Settled w) (es fs : List ε) :
    settleAll allow mask s (es++fs) = settleAll allow mask (settleAll allow mask s es) fs :=
  List.foldl_append

theorem settle_granted_bit (s : Settled w) (e : ε) (b : ℕ) (hb : b < w) :
    (settle allow mask s e).granted.getLsbD b =
      (s.granted.getLsbD b || (allow e && (mask e).getLsbD b && !s.denied.getLsbD b)) := by
  cases ha : allow e <;> simp [settle, contribution, ha, hb]

theorem settle_denied_bit (s : Settled w) (e : ε) (b : ℕ) (hb : b < w) :
    (settle allow mask s e).denied.getLsbD b =
      (s.denied.getLsbD b || (!allow e && (mask e).getLsbD b && !s.granted.getLsbD b)) := by
  cases ha : allow e <;> simp [settle, contribution, ha, hb]

/-- The closed form of the accumulator walk, from any starting point. -/
theorem settleAll_granted_bit (s : Settled w) (es : List ε) (b : ℕ) (hb : b < w) :
    (settleAll allow mask s es).granted.getLsbD b =
      (s.granted.getLsbD b || (!s.denied.getLsbD b && (decider mask b es).any allow)) := by
  induction es generalizing s with
  | nil => simp [decider]
  | cons e es ih =>
    rw [settleAll_cons, ih, settle_granted_bit _ _ _ _ _ hb, settle_denied_bit _ _ _ _ _ hb]
    cases ha : allow e <;> cases hm : (mask e).getLsbD b <;>
      cases s.granted.getLsbD b <;> cases s.denied.getLsbD b <;>
      simp [decider, hm, ha]

theorem settleAll_denied_bit (s : Settled w) (es : List ε) (b : ℕ) (hb : b < w) :
    (settleAll allow mask s es).denied.getLsbD b =
      (s.denied.getLsbD b ||
        (!s.granted.getLsbD b && (decider mask b es).any (fun e => !allow e))) := by
  induction es generalizing s with
  | nil => simp [decider]
  | cons e es ih =>
    rw [settleAll_cons, ih, settle_granted_bit _ _ _ _ _ hb, settle_denied_bit _ _ _ _ _ hb]
    cases ha : allow e <;> cases hm : (mask e).getLsbD b <;>
      cases s.granted.getLsbD b <;> cases s.denied.getLsbD b <;>
      simp [decider, hm, ha]

def Disjoint (s : Settled w) : Prop := s.granted &&& s.denied = 0

theorem disjoint_iff (s : Settled w) :
    Disjoint s ↔ ∀ b, b < w → (s.granted.getLsbD b && s.denied.getLsbD b) = false := by
  constructor
  · intro h b _
    simpa using congrArg (fun v => v.getLsbD b) h
  · intro h
    apply BitVec.eq_of_getLsbD_eq
    intro b hb
    simpa using h b hb

theorem settle_disjoint (s : Settled w) (e : ε) (h : Disjoint s) :
    Disjoint (settle allow mask s e) := by
  rw [disjoint_iff] at *
  intro b hb
  have := h b hb
  rw [settle_granted_bit _ _ _ _ _ hb, settle_denied_bit _ _ _ _ _ hb]
  revert this
  cases allow e <;> cases (mask e).getLsbD b <;>
    cases s.granted.getLsbD b <;> cases s.denied.getLsbD b <;> simp

theorem settleAll_disjoint (s : Settled w) (es : List ε) (h : Disjoint s) :
    Disjoint (settleAll allow mask s es) := by
  induction es generalizing s with
  | nil => exact h
  | cons e es ih => exact ih _ (settle_disjoint allow mask s e h)

theorem empty_disjoint : Disjoint ({} : Settled w) := by
  simp [Disjoint]

/-- From nothing settled, a bit is granted exactly when its decider allows. -/
theorem granted_iff (es : List ε) (b : ℕ) :
    (settleAll allow mask {} es).granted.getLsbD b = true ↔
      ∃ e, decider mask b es = some e ∧ allow e = true := by
  by_cases hb : b < w
  · rw [settleAll_granted_bit _ _ _ _ _ hb]
    simp [Option.any_eq_true]
  · have hnone : decider mask b es = none :=
      List.find?_eq_none.mpr fun e _ => by simp [BitVec.getLsbD_of_ge (mask e) b (by omega)]
    rw [BitVec.getLsbD_of_ge _ b (by omega), hnone]
    simp

end Settling

section Selection
variable {ε : Type*} {w : ℕ} {allow : ε → Bool} {mask : ε → BitVec w}

theorem decider_mem {b : ℕ} {es : List ε} {e : ε} (h : decider mask b es = some e) : e ∈ es :=
  List.mem_of_find?_eq_some h

theorem decider_names {b : ℕ} {es : List ε} {e : ε} (h : decider mask b es = some e) :
    (mask e).getLsbD b = true := by
  simpa using List.find?_some h

theorem decider_cons_named {b : ℕ} {e : ε} (es : List ε) (h : (mask e).getLsbD b = true) :
    decider mask b (e::es) = some e := by
  simp [decider, h]

theorem decider_cons_unnamed {b : ℕ} {e : ε} (es : List ε) (h : (mask e).getLsbD b = false) :
    decider mask b (e::es) = decider mask b es := by
  simp [decider, h]

theorem decider_isSome {b : ℕ} {es : List ε} {e : ε} (he : e ∈ es)
    (hb : (mask e).getLsbD b = true) : ∃ d, decider mask b es = some d := by
  rw [← Option.isSome_iff_exists]
  exact List.find?_isSome.mpr ⟨e,he,hb⟩

/-- Withdrawing allow rules never grants a bit: its decider was already an
allow rule, or the bit was decided by a withdrawn one. -/
theorem decider_withdrawn {b : ℕ} (es : List ε) (keep : ε → Bool)
    (hkeep : ∀ e ∈ es, keep e = false → allow e = true) {e : ε}
    (h : decider mask b (es.filter keep) = some e) (ha : allow e = true) :
    ∃ d, decider mask b es = some d ∧ allow d = true := by
  induction es with
  | nil => simp [decider] at h
  | cons f fs ih =>
    cases hm : (mask f).getLsbD b with
    | true =>
      refine ⟨f,decider_cons_named fs hm,?_⟩
      cases hk : keep f with
      | false => exact hkeep f (by simp) hk
      | true =>
        rw [List.filter_cons_of_pos hk, decider_cons_named _ hm] at h
        exact Option.some.inj h ▸ ha
    | false =>
      rw [decider_cons_unnamed _ hm]
      apply ih (fun e he => hkeep e (by simp [he]))
      cases hk : keep f with
      | false => rwa [List.filter_cons_of_neg (by simp [hk])] at h
      | true => rwa [List.filter_cons_of_pos hk, decider_cons_unnamed _ hm] at h

/-- When more rules apply, the new decider is the old one or a new rule. -/
theorem decider_widened {b : ℕ} (es : List ε) (p q : ε → Bool)
    (hpq : ∀ e ∈ es, p e = true → q e = true) {d : ε}
    (h : decider mask b (es.filter p) = some d) :
    ∃ d', decider mask b (es.filter q) = some d' ∧ (d' = d ∨ p d' = false) := by
  induction es with
  | nil => simp [decider] at h
  | cons f fs ih =>
    have hrest := fun e he => hpq e (List.mem_cons_of_mem f he)
    cases hp : p f with
    | true =>
      have hq := hpq f (by simp) hp
      rw [List.filter_cons_of_pos hp] at h
      rw [List.filter_cons_of_pos hq]
      cases hm : (mask f).getLsbD b with
      | true =>
        rw [decider_cons_named _ hm] at h ⊢
        exact ⟨f,rfl,.inl (Option.some.inj h)⟩
      | false =>
        rw [decider_cons_unnamed _ hm] at h ⊢
        exact ih hrest h
    | false =>
      rw [List.filter_cons_of_neg (by simp [hp])] at h
      cases hq : q f with
      | false =>
        rw [List.filter_cons_of_neg (by simp [hq])]
        exact ih hrest h
      | true =>
        rw [List.filter_cons_of_pos hq]
        cases hm : (mask f).getLsbD b with
        | true => exact ⟨f,decider_cons_named _ hm,.inr hp⟩
        | false =>
          rw [decider_cons_unnamed _ hm]
          exact ih hrest h

end Selection

section Subtraction
variable {ε : Type*} {w : ℕ} (allow : ε → Bool) (mask : ε → BitVec w)

/-- Whether some rule of the kind asked for names a bit, wherever it stands. -/
def named (kind : Bool) (b : ℕ) (es : List ε) : Bool :=
  es.any fun e => allow e == kind && (mask e).getLsbD b

/-- The reading in which order does not matter: every allow, less every deny. -/
def subtracted (b : ℕ) (es : List ε) : Bool :=
  named allow mask true b es && !named allow mask false b es

/-- A deny of a bit that an allow before it had settled. -/
def Overtaken (b : ℕ) (es : List ε) (d : ε) : Prop :=
  ∃ before after, es = before ++ d :: after ∧ allow d = false ∧ (mask d).getLsbD b = true ∧
    ∃ e, decider mask b before = some e ∧ allow e = true

theorem overtaken_cons_unnamed {b : ℕ} {e d : ε} (es : List ε) (h : (mask e).getLsbD b = false) :
    Overtaken allow mask b (e::es) d ↔ Overtaken allow mask b es d := by
  constructor
  · rintro ⟨before,after,hes,hd,hb,x,hx,ha⟩
    cases before with
    | nil =>
      obtain ⟨rfl,-⟩ := List.cons.inj hes
      rw [hb] at h
      cases h
    | cons f before =>
      obtain ⟨rfl,hrest⟩ := List.cons.inj hes
      rw [decider_cons_unnamed _ h] at hx
      exact ⟨before,after,hrest,hd,hb,x,hx,ha⟩
  · rintro ⟨before,after,hes,hd,hb,x,hx,ha⟩
    refine ⟨e::before,after,by rw [hes]; rfl,hd,hb,x,?_,ha⟩
    rwa [decider_cons_unnamed _ h]

/-- Once an allow has settled a bit, every later deny of it is overtaken. -/
theorem overtaken_cons_allowed {b : ℕ} {e d : ε} (es : List ε) (hm : (mask e).getLsbD b = true)
    (ha : allow e = true) :
    Overtaken allow mask b (e::es) d ↔ d ∈ es ∧ allow d = false ∧ (mask d).getLsbD b = true := by
  constructor
  · rintro ⟨before,after,hes,hd,hb,-⟩
    cases before with
    | nil =>
      obtain ⟨rfl,-⟩ := List.cons.inj hes
      rw [ha] at hd
      cases hd
    | cons f before =>
      obtain ⟨-,rfl⟩ := List.cons.inj hes
      exact ⟨by simp,hd,hb⟩
  · rintro ⟨hmem,hd,hb⟩
    obtain ⟨before,after,rfl⟩ := List.append_of_mem hmem
    exact ⟨e::before,after,rfl,hd,hb,e,decider_cons_named _ hm,ha⟩

theorem not_overtaken_cons_denied {b : ℕ} {e d : ε} (es : List ε)
    (hm : (mask e).getLsbD b = true) (ha : allow e = false) :
    ¬ Overtaken allow mask b (e::es) d := by
  rintro ⟨before,after,hes,-,-,x,hx,hallow⟩
  cases before with
  | nil => cases hx
  | cons f before =>
    obtain ⟨rfl,-⟩ := List.cons.inj hes
    rw [decider_cons_named _ hm] at hx
    rw [← Option.some.inj hx, ha] at hallow
    cases hallow

/-- The two readings of a bit agree exactly when no deny of it is overtaken. -/
theorem readings_agree_iff (b : ℕ) (es : List ε) :
    (decider mask b es).any allow = subtracted allow mask b es ↔
      ∀ d, ¬ Overtaken allow mask b es d := by
  induction es with
  | nil =>
    constructor
    · rintro - d ⟨before,after,hes,-⟩
      exact absurd hes (by simp)
    · intro _
      rfl
  | cons e es ih =>
    cases hm : (mask e).getLsbD b with
    | false =>
      simp only [overtaken_cons_unnamed allow mask es hm, ← ih, decider_cons_unnamed es hm]
      simp [subtracted, named, hm]
    | true =>
      rw [decider_cons_named es hm]
      cases ha : allow e with
      | false =>
        have hnone : ∀ d, ¬ Overtaken allow mask b (e::es) d :=
          fun d => not_overtaken_cons_denied allow mask es hm ha
        simp [hnone, subtracted, named, hm, ha]
      | true =>
        simp only [overtaken_cons_allowed allow mask es hm ha]
        simp [subtracted, named, hm, ha]

end Subtraction

end Adg.OrderedRules
