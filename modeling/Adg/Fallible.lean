import Mathlib

/-!
# Fallible steps

What follows from a fallible computation that returned: each of its steps
did, and every item of a list that was computed item by item comes from one.
-/

set_option autoImplicit false

namespace Adg.Fallible

variable {ε ε' α β : Type}

/-- A step after a fallible one returns when both do. -/
theorem bind_ok {x : Except ε α} {f : α → Except ε β} {b : β} :
    (x >>= f) = .ok b ↔ ∃ a, x = .ok a ∧ f a = .ok b := by
  cases x with
  | error e => simp [bind, Except.bind]
  | ok a => simp [bind, Except.bind]

theorem map_ok {x : Except ε α} {f : α → β} {b : β} :
    f <$> x = .ok b ↔ ∃ a, x = .ok a ∧ f a = b := by
  cases x with
  | error e => simp [Functor.map, Except.map]
  | ok a => simp [Functor.map, Except.map]

theorem mapped_ok {x : Except ε α} {f : α → β} {b : β} :
    x.map f = .ok b ↔ ∃ a, x = .ok a ∧ f a = b := by
  cases x with
  | error e => simp [Except.map]
  | ok a => simp [Except.map]

theorem mapError_ok {x : Except ε α} {f : ε → ε'} {a : α} :
    x.mapError f = .ok a ↔ x = .ok a := by
  cases x with
  | error e => simp [Except.mapError]
  | ok a => simp [Except.mapError]

theorem mem_mapM {f : α → Except ε β} {l : List α} {ys : List β} {y : β}
    (h : l.mapM f = .ok ys) (hy : y ∈ ys) : ∃ x ∈ l, f x = .ok y := by
  induction l generalizing ys with
  | nil =>
    cases h
    cases hy
  | cons x l ih =>
    rw [List.mapM_cons] at h
    obtain ⟨z,hx,h⟩ := bind_ok.mp h
    obtain ⟨zs,hl,h⟩ := bind_ok.mp h
    cases h
    rcases List.mem_cons.mp hy with rfl | hy
    · exact ⟨x,List.mem_cons_self,hx⟩
    · obtain ⟨x',hx',hf⟩ := ih hl hy
      exact ⟨x',List.mem_cons_of_mem x hx',hf⟩

theorem mem_flatten_mapM {f : α → Except ε (List β)} {l : List α} {ys : List β} {y : β}
    (h : List.flatten <$> l.mapM f = .ok ys) (hy : y ∈ ys) :
    ∃ x ∈ l, ∃ zs, f x = .ok zs ∧ y ∈ zs := by
  obtain ⟨zss,hl,rfl⟩ := map_ok.mp h
  obtain ⟨zs,hzs,hy⟩ := List.mem_flatten.mp hy
  obtain ⟨x,hx,hf⟩ := mem_mapM hl hzs
  exact ⟨x,hx,zs,hf,hy⟩

/-- A list computed item by item is the list of what its items give. -/
theorem mapM_forall₂ {f : α → Except ε β} {l : List α} {m : List β} :
    l.mapM f = .ok m ↔ List.Forall₂ (fun a b => f a = .ok b) l m := by
  induction l generalizing m with
  | nil =>
    rw [List.mapM_nil]
    constructor
    · intro h
      cases h
      exact .nil
    · intro h
      cases h
      rfl
  | cons a l ih =>
    rw [List.mapM_cons]
    constructor
    · intro h
      obtain ⟨b,ha,h⟩ := bind_ok.mp h
      obtain ⟨bs,hl,h⟩ := bind_ok.mp h
      cases h
      exact .cons ha (ih.mp hl)
    · intro h
      cases h with
      | cons ha hl => exact bind_ok.mpr ⟨_,ha,bind_ok.mpr ⟨_,ih.mpr hl,rfl⟩⟩

/-- What an item gives is in the list that was computed. -/
theorem mapM_mem {f : α → Except ε β} {l : List α} {ys : List β} (h : l.mapM f = .ok ys) {x : α}
    (hx : x ∈ l) : ∃ y ∈ ys, f x = .ok y := by
  induction l generalizing ys with
  | nil => cases hx
  | cons a l ih =>
    rw [List.mapM_cons] at h
    obtain ⟨y,ha,h⟩ := bind_ok.mp h
    obtain ⟨zs,hl,h⟩ := bind_ok.mp h
    cases h
    rcases List.mem_cons.mp hx with rfl | hx
    · exact ⟨y,List.mem_cons_self,ha⟩
    · obtain ⟨z,hz,hfz⟩ := ih hl hx
      exact ⟨z,List.mem_cons_of_mem y hz,hfz⟩

/-- Items that are computed without a failure are mapped. -/
theorem mapM_of_ok {f : α → Except ε β} {g : α → β} {l : List α}
    (h : ∀ a ∈ l, f a = .ok (g a)) : l.mapM f = .ok (l.map g) := by
  induction l with
  | nil => rfl
  | cons a l ih =>
    rw [List.mapM_cons, h a List.mem_cons_self, ih fun b hb => h b (List.mem_cons_of_mem a hb)]
    rfl

theorem mapM_each {f : α → Except ε β} {l : List α} {ys : List β} (h : l.mapM f = .ok ys) :
    ∀ a ∈ l, ∃ y, f a = .ok y := by
  induction l generalizing ys with
  | nil => simp
  | cons a l ih =>
    rw [List.mapM_cons] at h
    obtain ⟨y,ha,h⟩ := bind_ok.mp h
    obtain ⟨zs,hl,-⟩ := bind_ok.mp h
    exact List.forall_mem_cons.mpr ⟨⟨y,ha⟩,ih hl⟩

/-- Items that are computed alike make lists that are. -/
theorem mapM_same {f g : α → Except ε β} {l : List α} (h : ∀ a ∈ l, f a = g a) :
    l.mapM f = l.mapM g := by
  induction l with
  | nil => rfl
  | cons a l ih =>
    rw [List.mapM_cons, List.mapM_cons, h a List.mem_cons_self,
      ih fun b hb => h b (List.mem_cons_of_mem a hb)]

/-- When each item is computed the list is, of what each gives. -/
theorem mapM_succeeds {f : α → Except ε β} {l : List α}
    (h : ∀ a ∈ l, ∃ b, f a = .ok b) :
    ∃ bs, l.mapM f = .ok bs ∧ ∀ b, b ∈ bs ↔ ∃ a ∈ l, f a = .ok b := by
  induction l with
  | nil => exact ⟨[],rfl,by simp⟩
  | cons a l ih =>
    obtain ⟨b,hb⟩ := h a List.mem_cons_self
    obtain ⟨bs,hbs,hmem⟩ := ih fun c hc => h c (List.mem_cons_of_mem a hc)
    refine ⟨b :: bs,?_,?_⟩
    · rw [List.mapM_cons, hb, hbs]
      rfl
    · intro c
      rw [List.mem_cons, hmem]
      constructor
      · rintro (rfl | ⟨d,hd,hc⟩)
        · exact ⟨a,List.mem_cons_self,hb⟩
        · exact ⟨d,List.mem_cons_of_mem a hd,hc⟩
      · rintro ⟨d,hd,hc⟩
        rcases List.mem_cons.mp hd with rfl | hd
        · rw [hb] at hc
          exact .inl (Except.ok.inj hc).symm
        · exact .inr ⟨d,hd,hc⟩

theorem toOption_some {x : Except ε α} {a : α} : x.toOption = some a ↔ x = .ok a := by
  cases x with
  | error e => simp [Except.toOption]
  | ok b => simp [Except.toOption]

end Adg.Fallible
