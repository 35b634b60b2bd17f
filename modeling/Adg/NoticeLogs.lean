import Mathlib

/-!
# Logs of spaced notices

A notice names a topic, the instant of what it tells, the instant at which it
was given and how long the topic had to be quiet before it. A log is spaced
when every notice tells of something after the quiet that followed the ones
before it on its topic. A clock that remembers the last notice of each topic
is enough to keep a log spaced.
-/

set_option autoImplicit false

namespace Adg.NoticeLogs

section Clocks
variable {κ τ : Type*} [Preorder τ]

/-- Every instant the old clock shows is shown by the new one, or a later one is. -/
def Onward (old new : κ → Option τ) : Prop :=
  ∀ k m, old k = some m → ∃ m', new k = some m' ∧ m ≤ m'

theorem Onward.refl (clock : κ → Option τ) : Onward clock clock :=
  fun _ m h => ⟨m,h,le_rfl⟩

theorem Onward.trans {a b c : κ → Option τ} (hab : Onward a b) (hbc : Onward b c) : Onward a c := by
  intro k m h
  obtain ⟨m',h',hle⟩ := hab k m h
  obtain ⟨m'',h'',hle'⟩ := hbc k m' h'
  exact ⟨m'',h'',hle.trans hle'⟩

end Clocks

structure Notice (κ τ : Type*) where
  topic : κ
  occurred : τ
  given : τ
  quiet : τ

section Logs
variable {κ τ : Type*} [AddCommGroup τ] [LinearOrder τ]

/-- The later notice tells of something after the quiet that the earlier one began. -/
def Apart (a b : Notice κ τ) : Prop := a.topic = b.topic → a.given+b.quiet ≤ b.occurred

/-- Told after it happened, and the quiet is not negative. -/
structure Timely (n : Notice κ τ) : Prop where
  past : n.occurred < n.given
  patient : 0 ≤ n.quiet

/-- A log that is spaced, under a clock that has seen all of it. -/
structure Spaced (clock : κ → Option τ) (log : List (Notice κ τ)) : Prop where
  apart : log.Pairwise Apart
  timely : ∀ n ∈ log, Timely n
  seen : ∀ n ∈ log, ∃ m, clock n.topic = some m ∧ n.given ≤ m

theorem spaced_nil (clock : κ → Option τ) : Spaced clock [] :=
  ⟨List.Pairwise.nil,by simp,by simp⟩

/-- A clock that moves on has still seen the log. -/
theorem Spaced.onward {old new : κ → Option τ} {log : List (Notice κ τ)} (h : Spaced old log)
    (hnew : Onward old new) : Spaced new log := by
  refine ⟨h.apart,h.timely,fun n hn => ?_⟩
  obtain ⟨m,hm,hle⟩ := h.seen n hn
  obtain ⟨m',hm',hle'⟩ := hnew n.topic m hm
  exact ⟨m',hm',hle.trans hle'⟩

variable [IsOrderedAddMonoid τ]

/-- A notice that waits for the clock of its topic and resets it. -/
theorem Spaced.snoc {old new : κ → Option τ} {log : List (Notice κ τ)} {n : Notice κ τ}
    (h : Spaced old log) (htimely : Timely n)
    (hwait : ∀ m, old n.topic = some m → m+n.quiet ≤ n.occurred)
    (hnew : Onward old new) (hreset : new n.topic = some n.given) : Spaced new (log ++ [n]) := by
  constructor
  · apply List.pairwise_append.mpr
    refine ⟨h.apart,List.pairwise_singleton _ _,fun a ha b hb htopic => ?_⟩
    rw [List.mem_singleton] at hb
    subst hb
    obtain ⟨m,hm,hle⟩ := h.seen a ha
    rw [htopic] at hm
    calc a.given+b.quiet ≤ m+b.quiet := by gcongr
      _ ≤ b.occurred := hwait m hm
  · intro a ha
    rcases List.mem_append.mp ha with ha | ha
    · exact h.timely a ha
    · rw [List.mem_singleton.mp ha]
      exact htimely
  · intro a ha
    rcases List.mem_append.mp ha with ha | ha
    · exact (h.onward hnew).seen a ha
    · rw [List.mem_singleton.mp ha]
      exact ⟨n.given,hreset,le_rfl⟩

/-- Notices of one topic tell of later and later things. -/
theorem Spaced.increasing {clock : κ → Option τ} {log : List (Notice κ τ)} (h : Spaced clock log) :
    log.Pairwise fun a b => a.topic = b.topic → a.occurred < b.occurred := by
  apply h.apart.imp_of_mem
  intro a b ha hb hapart htopic
  calc a.occurred < a.given := (h.timely a ha).past
    _ ≤ a.given+b.quiet := le_add_of_nonneg_right (h.timely b hb).patient
    _ ≤ b.occurred := hapart htopic

/-- A thing that always goes by one topic is told of once. -/
theorem Spaced.told_once {ι : Type*} {clock : κ → Option τ} {log : List (Notice κ τ)}
    (h : Spaced clock log) {thing : Notice κ τ → ι}
    (hone : ∀ a ∈ log, ∀ b ∈ log, thing a = thing b → a.topic = b.topic ∧ a.occurred = b.occurred) :
    (log.map thing).Nodup := by
  rw [List.Nodup, List.pairwise_map]
  apply h.increasing.imp_of_mem
  intro a b ha hb hlt hsame
  obtain ⟨htopic,hocc⟩ := hone a ha b hb hsame
  exact (hlt htopic).ne hocc

end Logs

end Adg.NoticeLogs
