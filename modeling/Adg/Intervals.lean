import Mathlib

/-!
# Half-open spans on a line

A span starts at a point and either stops before another or is still open.
Spans that lie apart from each other can be put in order, and then each stops
before the next one starts.
-/

set_option autoImplicit false

namespace Adg.Intervals

structure Span (α : Type*) where
  start : α
  stop : Option α

variable {α : Type*} [LinearOrder α]

namespace Span

/-- `[start, stop)`, and everything from `start` on while there is no stop. -/
def Covers (s : Span α) (t : α) : Prop := s.start ≤ t ∧ ∀ e, s.stop = some e → t < e

/-- The span has stopped by the time the other one starts. -/
def Before (s t : Span α) : Prop := ∃ e, s.stop = some e ∧ e ≤ t.start

def Apart (s t : Span α) : Prop := s.Before t ∨ t.Before s

/-- A span does not stop before it starts. -/
def Forward (s : Span α) : Prop := ∀ e, s.stop = some e → s.start ≤ e

/-- A span that has stopped has covered something. -/
def Proper (s : Span α) : Prop := ∀ e, s.stop = some e → s.start < e

theorem Proper.forward {s : Span α} (h : s.Proper) : s.Forward := fun e he => (h e he).le

theorem Apart.symm {s t : Span α} (h : s.Apart t) : t.Apart s := Or.symm h

theorem Before.trans {s t u : Span α} (ht : t.Forward) (hst : s.Before t) (htu : t.Before u) :
    s.Before u := by
  obtain ⟨e,he,hle⟩ := hst
  obtain ⟨f,hf,hfu⟩ := htu
  exact ⟨e,he,hle.trans ((ht f hf).trans hfu)⟩

theorem Before.start_lt {s t : Span α} (hs : s.Proper) (h : s.Before t) : s.start < t.start := by
  obtain ⟨e,he,hle⟩ := h
  exact (hs e he).trans_le hle

theorem Apart.start_ne {s t : Span α} (hs : s.Proper) (ht : t.Proper) (h : s.Apart t) :
    s.start ≠ t.start := by
  rcases h with h | h
  · exact (h.start_lt hs).ne
  · exact (h.start_lt ht).ne'

theorem Before.not_both {s t : Span α} {x : α} (h : s.Before t) (hs : s.Covers x) :
    ¬ t.Covers x := by
  obtain ⟨e,he,hle⟩ := h
  intro ht
  exact absurd (hs.2 e he) (not_lt.mpr (hle.trans ht.1))

/-- No point is covered twice by spans that lie apart. -/
theorem Apart.not_both {s t : Span α} {x : α} (h : s.Apart t) (hs : s.Covers x) :
    ¬ t.Covers x := by
  rcases h with h | h
  · exact h.not_both hs
  · exact fun ht => h.not_both ht hs

/-- Of two spans that lie apart, the one that starts earlier stops first. -/
theorem Apart.before_of_le {s t : Span α} (ht : t.Proper) (h : s.Apart t)
    (hle : s.start ≤ t.start) : s.Before t := by
  rcases h with h | h
  · exact h
  · exact absurd (h.start_lt ht) (not_lt.mpr hle)

end Span

section Lists
variable {β : Type*} (span : β → Span α)

/-- Every member stops before the ones after it start. -/
def InOrder (xs : List β) : Prop := xs.Pairwise fun x y => (span x).Before (span y)

def AllApart (xs : List β) : Prop := xs.Pairwise fun x y => (span x).Apart (span y)

variable {span}

theorem InOrder.allApart {xs : List β} (h : InOrder span xs) : AllApart span xs :=
  h.imp fun hb => .inl hb

theorem AllApart.perm {xs ys : List β} (hp : xs.Perm ys) (h : AllApart span xs) :
    AllApart span ys :=
  hp.pairwise h fun hab => hab.symm

/-- Spans that lie apart and are sorted by their starts are in order. -/
theorem AllApart.inOrder {xs : List β} (h : AllApart span xs)
    (hproper : ∀ x ∈ xs, (span x).Proper)
    (hsorted : xs.Pairwise fun x y => (span x).start ≤ (span y).start) : InOrder span xs := by
  induction xs with
  | nil => exact .nil
  | cons x xs ih =>
    obtain ⟨ha,h⟩ := List.pairwise_cons.mp h
    obtain ⟨hs,hsorted⟩ := List.pairwise_cons.mp hsorted
    refine List.pairwise_cons.mpr ⟨fun y hy => ?_,
      ih h (fun y hy => hproper y (List.mem_cons_of_mem x hy)) hsorted⟩
    exact (ha y hy).before_of_le (hproper y (List.mem_cons_of_mem x hy)) (hs y hy)

/-- It is enough that each member stops before the next one starts. -/
theorem inOrder_of_chain {xs : List β} (hforward : ∀ x ∈ xs, (span x).Forward)
    (h : xs.IsChain fun x y => (span x).Before (span y)) : InOrder span xs := by
  induction xs with
  | nil => exact .nil
  | cons x xs ih =>
    have hrest := ih (fun y hy => hforward y (List.mem_cons_of_mem x hy)) h.tail
    refine List.pairwise_cons.mpr ⟨?_,hrest⟩
    cases xs with
    | nil => simp
    | cons y ys =>
      have hxy : (span x).Before (span y) := (List.isChain_cons_cons.mp h).1
      intro z hz
      rcases List.mem_cons.mp hz with rfl | hz
      · exact hxy
      · exact hxy.trans (hforward y (by simp)) ((List.pairwise_cons.mp hrest).1 z hz)

theorem InOrder.chain {xs : List β} (h : InOrder span xs) :
    xs.IsChain fun x y => (span x).Before (span y) := List.Pairwise.isChain h

end Lists

end Adg.Intervals
