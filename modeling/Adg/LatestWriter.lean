import Mathlib

/-!
# Registers of the latest writer

A register keeps the value of the latest arrival and the source of the earliest
one. Whatever the order of arrival, it ends with the extreme instants, a value
that came at the latest and a source that came at the earliest. Only arrivals
that tie for an extreme leave a choice, and the order makes it.
-/

set_option autoImplicit false

namespace Adg.LatestWriter

structure Register (α β τ : Type*) where
  value : α
  last : τ
  source : β
  first : τ

variable {α β τ : Type*} [LinearOrder τ]

/-- A later value or an equal one takes over; a source has to be earlier. -/
def merge (s x : Register α β τ) : Register α β τ where
  value := if s.last ≤ x.last then x.value else s.value
  last := max s.last x.last
  source := if x.first < s.first then x.source else s.source
  first := min s.first x.first

/-- The value is that of an arrival no other one is later than. -/
def Newest (xs : List (Register α β τ)) (r : Register α β τ) : Prop :=
  ∃ n ∈ xs, (∀ x ∈ xs, x.last ≤ n.last) ∧ r.value = n.value ∧ r.last = n.last

/-- The source is that of an arrival no other one is earlier than. -/
def Oldest (xs : List (Register α β τ)) (r : Register α β τ) : Prop :=
  ∃ o ∈ xs, (∀ x ∈ xs, o.first ≤ x.first) ∧ r.source = o.source ∧ r.first = o.first

/-- The register after some arrivals. -/
def arriveAll (xs : List (Register α β τ)) : Option (Register α β τ) :=
  xs.foldl (fun s x => some (s.elim x fun r => merge r x)) none

theorem arriveAll_snoc (xs : List (Register α β τ)) (x : Register α β τ) :
    arriveAll (xs ++ [x]) = some ((arriveAll xs).elim x fun r => merge r x) := by
  unfold arriveAll
  rw [List.foldl_append]
  rfl

/-- Two registers that the same arrivals settled, in whatever order. -/
structure Agree (xs : List (Register α β τ)) (r s : Register α β τ) : Prop where
  last : r.last = s.last
  first : r.first = s.first
  newest : Newest xs r ∧ Newest xs s
  oldest : Oldest xs r ∧ Oldest xs s
  value : (∀ x ∈ xs, ∀ y ∈ xs, x.last = r.last → y.last = r.last → x.value = y.value) →
    r.value = s.value
  source : (∀ x ∈ xs, ∀ y ∈ xs, x.first = r.first → y.first = r.first → x.source = y.source) →
    r.source = s.source

end Adg.LatestWriter
