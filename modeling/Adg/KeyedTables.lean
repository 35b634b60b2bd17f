import Mathlib

/-!
# Tables with a primary key

A table holds at most one row for a key. Inserting with a merge keeps the
stored row's say in what a second arrival changes, and an update rewrites rows
in place. Both are described by what a lookup returns afterwards.
-/

set_option autoImplicit false

namespace Adg.KeyedTables

structure KeyedTable (κ ρ : Type*) where
  entries : List (κ × ρ)
  keys_nodup : (entries.map (·.1)).Nodup

variable {κ ρ : Type*} [DecidableEq κ]

/-- Rows with different keys are found by their keys. -/
theorem find_keyed {l : List ρ} {key : ρ → κ} (hn : (l.map key).Nodup) {r : ρ} (hr : r ∈ l) :
    l.find? (key · = key r) = some r := by
  cases hf : l.find? (key · = key r) with
  | none => exact absurd (List.find?_eq_none.mp hf r hr) (by simp)
  | some x =>
    have hx : key x = key r := by simpa using List.find?_some hf
    rw [List.inj_on_of_nodup_map hn (List.mem_of_find?_eq_some hf) hr hx]

namespace KeyedTable

def empty : KeyedTable κ ρ := ⟨[],by simp⟩

def get? (t : KeyedTable κ ρ) (k : κ) : Option ρ := (t.entries.find? (·.1 = k)).map (·.2)

def values (t : KeyedTable κ ρ) : List ρ := t.entries.map (·.2)

theorem get?_eq_some {t : KeyedTable κ ρ} {k : κ} {r : ρ} :
    t.get? k = some r ↔ (k,r) ∈ t.entries := by
  unfold get?
  constructor
  · intro h
    obtain ⟨e,he,rfl⟩ := Option.map_eq_some_iff.mp h
    have hk : e.1 = k := by simpa using List.find?_some he
    rw [← hk]
    exact List.mem_of_find?_eq_some he
  · intro h
    cases hf : t.entries.find? (·.1 = k) with
    | none => exact absurd (List.find?_eq_none.mp hf _ h) (by simp)
    | some e =>
      have hk : e.1 = k := by simpa using List.find?_some hf
      have he : e = (k,r) :=
        List.inj_on_of_nodup_map t.keys_nodup (List.mem_of_find?_eq_some hf) h hk
      rw [he]
      rfl

theorem get?_eq_none {t : KeyedTable κ ρ} {k : κ} :
    t.get? k = none ↔ k ∉ t.entries.map (·.1) := by
  constructor
  · intro h hm
    obtain ⟨e,he,rfl⟩ := List.mem_map.mp hm
    have := get?_eq_some.mpr he
    rw [h] at this
    cases this
  · intro h
    cases hr : t.get? k with
    | none => rfl
    | some r => exact absurd (List.mem_map.mpr ⟨_,get?_eq_some.mp hr,rfl⟩) h

/-- `INSERT ... ON CONFLICT DO UPDATE`, with what the conflict makes of the
stored row and the excluded one. -/
def upsert (merge : ρ → ρ → ρ) (t : KeyedTable κ ρ) (e : κ × ρ) : KeyedTable κ ρ :=
  if h : e.1 ∈ t.entries.map (·.1) then
    ⟨t.entries.map fun s => if s.1 = e.1 then (s.1,merge s.2 e.2) else s, by
      rw [List.map_map]
      have : ((·.1) ∘ fun s : κ × ρ => if s.1 = e.1 then (s.1,merge s.2 e.2) else s) = (·.1) := by
        funext s
        simp only [Function.comp]
        split <;> rfl
      rw [this]
      exact t.keys_nodup⟩
  else
    ⟨t.entries ++ [e], by
      rw [List.map_append, List.nodup_append]
      refine ⟨t.keys_nodup,by simp,?_⟩
      intro a ha b hb hab
      rw [List.map_singleton, List.mem_singleton] at hb
      exact h (hb ▸ hab ▸ ha)⟩

/-- What a row becomes when another one arrives under its key. -/
def arrive (merge : ρ → ρ → ρ) (stored : Option ρ) (r : ρ) : ρ :=
  match stored with
  | none => r
  | some s => merge s r

theorem get?_upsert (merge : ρ → ρ → ρ) (t : KeyedTable κ ρ) (e : κ × ρ) (k : κ) :
    (t.upsert merge e).get? k =
      if k = e.1 then some (arrive merge (t.get? k) e.2) else t.get? k := by
  by_cases hin : e.1 ∈ t.entries.map (·.1)
  · have hentries : (t.upsert merge e).entries =
        t.entries.map fun s => if s.1 = e.1 then (s.1,merge s.2 e.2) else s := by
      simp [upsert, hin]
    have hfind : ∀ xs : List (κ × ρ),
        (xs.map fun s => if s.1 = e.1 then (s.1,merge s.2 e.2) else s).find? (·.1 = k) =
          (xs.find? (·.1 = k)).map fun s => if s.1 = e.1 then (s.1,merge s.2 e.2) else s := by
      intro xs
      rw [List.find?_map]
      congr 2
      funext s
      simp only [Function.comp]
      split <;> rfl
    unfold get?
    rw [hentries, hfind, Option.map_map]
    cases hf : t.entries.find? (·.1 = k) with
    | none =>
      have hne : k ≠ e.1 := by
        rintro rfl
        obtain ⟨s,hs,hse⟩ := List.mem_map.mp hin
        exact absurd (List.find?_eq_none.mp hf s hs) (by simp [hse])
      simp [hne]
    | some s =>
      have hk : s.1 = k := by simpa using List.find?_some hf
      by_cases hke : k = e.1
      · simp [hk, hke, arrive]
      · simp [hk, hke]
  · have hentries : (t.upsert merge e).entries = t.entries ++ [e] := by simp [upsert, hin]
    unfold get?
    rw [hentries, List.find?_append]
    by_cases hke : k = e.1
    · have hnone : t.entries.find? (·.1 = k) = none :=
        List.find?_eq_none.mpr fun s hs => by
          simpa [hke] using fun h => hin (List.mem_map.mpr ⟨s,hs,h⟩)
      rw [hnone]
      simp [hke, arrive]
    · simp [hke, Ne.symm hke]

/-- One statement inserts its rows one after another. -/
def upsertAll (merge : ρ → ρ → ρ) (t : KeyedTable κ ρ) (es : List (κ × ρ)) : KeyedTable κ ρ :=
  es.foldl (upsert merge) t

theorem upsertAll_cons (merge : ρ → ρ → ρ) (t : KeyedTable κ ρ) (e : κ × ρ) (es : List (κ × ρ)) :
    t.upsertAll merge (e :: es) = (t.upsert merge e).upsertAll merge es := rfl

/-- The rows that arrive under a key, in their order. -/
def arrivals (es : List (κ × ρ)) (k : κ) : List ρ := (es.filter (·.1 = k)).map (·.2)

/-- What arrives under one key is merged in order, and touches no other key. -/
theorem get?_upsertAll (merge : ρ → ρ → ρ) (t : KeyedTable κ ρ) (es : List (κ × ρ)) (k : κ) :
    (t.upsertAll merge es).get? k =
      (arrivals es k).foldl (fun s r => some (arrive merge s r)) (t.get? k) := by
  induction es generalizing t with
  | nil => rfl
  | cons e es ih =>
    rw [upsertAll_cons, ih, get?_upsert]
    by_cases hk : k = e.1
    · simp [arrivals, hk]
    · simp [arrivals, hk, Ne.symm hk]

theorem get?_upsertAll_other (merge : ρ → ρ → ρ) (t : KeyedTable κ ρ) {es : List (κ × ρ)} {k : κ}
    (h : k ∉ es.map (·.1)) : (t.upsertAll merge es).get? k = t.get? k := by
  rw [get?_upsertAll]
  have hnil : arrivals es k = [] := by
    unfold arrivals
    rw [List.map_eq_nil_iff, List.filter_eq_nil_iff]
    intro e he
    simpa using fun hk => h (List.mem_map.mpr ⟨e,he,hk⟩)
  rw [hnil]
  rfl

theorem get?_upsertAll_once (merge : ρ → ρ → ρ) (t : KeyedTable κ ρ) {es : List (κ × ρ)}
    {e : κ × ρ} (h : e ∈ es) (hn : (es.map (·.1)).Nodup) :
    (t.upsertAll merge es).get? e.1 = some (arrive merge (t.get? e.1) e.2) := by
  induction es generalizing t with
  | nil => cases h
  | cons f es ih =>
    obtain ⟨hf,hn⟩ := List.nodup_cons.mp hn
    rw [upsertAll_cons]
    rcases List.mem_cons.mp h with rfl | h
    · rw [get?_upsertAll_other merge _ hf, get?_upsert, if_pos rfl]
    · have hne : e.1 ≠ f.1 := fun hk => hf (List.mem_map.mpr ⟨e,h,hk⟩)
      rw [ih _ h hn, get?_upsert, if_neg hne]

theorem get?_empty (k : κ) : (empty : KeyedTable κ ρ).get? k = none := rfl

/-- What holds of the stored rows and the arriving ones, and of what a merge
makes of two, holds of all rows afterwards. -/
theorem upsertAll_forall {merge : ρ → ρ → ρ} {P : κ → ρ → Prop} {t : KeyedTable κ ρ}
    {es : List (κ × ρ)} (hmerge : ∀ k s r, P k s → P k r → P k (merge s r))
    (ht : ∀ e ∈ t.entries, P e.1 e.2) (he : ∀ e ∈ es, P e.1 e.2) :
    ∀ e ∈ (t.upsertAll merge es).entries, P e.1 e.2 := by
  have hfold : ∀ (k : κ) (rs : List ρ) (s : Option ρ), (∀ r ∈ rs, P k r) →
      (∀ r, s = some r → P k r) → ∀ r,
      rs.foldl (fun s r => some (arrive merge s r)) s = some r → P k r := by
    intro k rs
    induction rs with
    | nil => exact fun s _ hs r hr => hs r hr
    | cons x rs ih =>
      intro s hrs hs
      refine ih _ (fun r hr => hrs r (List.mem_cons_of_mem x hr)) fun r hr => ?_
      obtain rfl := Option.some.inj hr
      cases s with
      | none => exact hrs x (List.mem_cons_self ..)
      | some s => exact hmerge k s x (hs s rfl) (hrs x (List.mem_cons_self ..))
  intro e hmem
  have hget := get?_eq_some.mpr hmem
  rw [get?_upsertAll] at hget
  refine hfold e.1 _ _ (fun r hr => ?_) (fun r hr => ht _ (get?_eq_some.mp hr)) e.2 hget
  obtain ⟨x,hx,rfl⟩ := List.mem_map.mp hr
  obtain ⟨hx,hk⟩ := List.mem_filter.mp hx
  have hk : x.1 = e.1 := by simpa using hk
  rw [← hk]
  exact he x hx

/-- `INSERT ... ON CONFLICT DO NOTHING`. -/
def insertNew (t : KeyedTable κ ρ) (es : List (κ × ρ)) : KeyedTable κ ρ :=
  t.upsertAll (fun stored _ => stored) es

/-- A stored row keeps its place, and otherwise the first one to arrive takes it. -/
theorem get?_insertNew (t : KeyedTable κ ρ) (es : List (κ × ρ)) (k : κ) :
    (t.insertNew es).get? k = (t.get? k).or (arrivals es k).head? := by
  have hkept : ∀ (s : ρ) (rs : List ρ),
      rs.foldl (fun s r => some (arrive (fun stored _ => stored) s r)) (some s) = some s := by
    intro s rs
    induction rs with
    | nil => rfl
    | cons r rs ih => exact ih
  unfold insertNew
  rw [get?_upsertAll]
  cases t.get? k with
  | some s => exact hkept s _
  | none =>
    cases harr : arrivals es k with
    | nil => rfl
    | cons r rs => exact hkept r rs

theorem arrivals_eq_nil {es : List (κ × ρ)} {k : κ} : arrivals es k = [] ↔ k ∉ es.map (·.1) := by
  unfold arrivals
  rw [List.map_eq_nil_iff, List.filter_eq_nil_iff]
  simp only [decide_eq_true_eq, List.mem_map, not_exists, not_and]

theorem insertNew_isSome {t : KeyedTable κ ρ} {es : List (κ × ρ)} {k : κ} :
    ((t.insertNew es).get? k).isSome = true ↔ (t.get? k).isSome = true ∨ k ∈ es.map (·.1) := by
  rw [get?_insertNew, Option.isSome_or, Bool.or_eq_true]
  refine or_congr_right ?_
  have hhead : (arrivals es k).head?.isSome = true ↔ arrivals es k ≠ [] := by
    cases arrivals es k <;> simp
  exact hhead.trans ((not_congr arrivals_eq_nil).trans not_not)

theorem insertNew_fresh {t : KeyedTable κ ρ} {k : κ} (h : t.get? k = none) (r : ρ) :
    (t.insertNew [(k,r)]).entries = t.entries ++ [(k,r)] := by
  have hnew : k ∉ t.entries.map (·.1) := get?_eq_none.mp h
  simp only [insertNew, upsertAll, List.foldl_cons, List.foldl_nil, upsert, dif_neg hnew]

/-- Every row that was there is there as it was. -/
def Within (t u : KeyedTable κ ρ) : Prop := ∀ k r, t.get? k = some r → u.get? k = some r

theorem Within.refl (t : KeyedTable κ ρ) : t.Within t := fun _ _ h => h

theorem Within.trans {t u v : KeyedTable κ ρ} (htu : t.Within u) (huv : u.Within v) :
    t.Within v := fun k r h => huv k r (htu k r h)

theorem within_insertNew (t : KeyedTable κ ρ) (es : List (κ × ρ)) : t.Within (t.insertNew es) := by
  intro k r h
  rw [get?_insertNew, h]
  rfl

/-- `UPDATE ... WHERE`. -/
def update (t : KeyedTable κ ρ) (p : κ → ρ → Bool) (f : ρ → ρ) : KeyedTable κ ρ :=
  ⟨t.entries.map fun e => if p e.1 e.2 then (e.1,f e.2) else e, by
    rw [List.map_map]
    have : ((·.1) ∘ fun e : κ × ρ => if p e.1 e.2 then (e.1,f e.2) else e) = (·.1) := by
      funext e
      simp only [Function.comp]
      split <;> rfl
    rw [this]
    exact t.keys_nodup⟩

theorem get?_update (t : KeyedTable κ ρ) (p : κ → ρ → Bool) (f : ρ → ρ) (k : κ) :
    (t.update p f).get? k = (t.get? k).map fun r => if p k r then f r else r := by
  unfold get? update
  rw [List.find?_map, Option.map_map, Option.map_map]
  have hpred : ((fun e : κ × ρ => decide (e.1 = k)) ∘
      fun e : κ × ρ => if p e.1 e.2 then (e.1,f e.2) else e) = fun e => decide (e.1 = k) := by
    funext e
    simp only [Function.comp]
    split <;> rfl
  rw [hpred]
  cases hf : t.entries.find? (fun e => decide (e.1 = k)) with
  | none => rfl
  | some e =>
    have hk : e.1 = k := by simpa using List.find?_some hf
    subst hk
    simp only [Option.map_some, Function.comp]
    split <;> rfl

end KeyedTable

end Adg.KeyedTables
