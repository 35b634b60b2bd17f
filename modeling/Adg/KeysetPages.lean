import Adg.SortedLists

/-!
# Keyset pages

A keyset page holds the first keys behind a cursor, and its last key is the
cursor of the next page. Two lists that are paged under the cursor of one of
them lose the keys of the other that a page has no room for.
-/

set_option autoImplicit false

namespace Adg.KeysetPages
open Adg.SortedLists

section Pages
variable {κ : Type*} [LinearOrder κ]

/-- A page of keys, with the cursor of the next one. -/
structure Page (κ : Type*) where
  items : List κ
  hasMore : Bool
  nextKey : Option κ
  deriving DecidableEq, Repr

/-- Every key once, in order. -/
def inOrder (keys : List κ) : List κ := sortedBy id keys.dedup

/-- What stands behind a cursor. -/
def behind (after : Option κ) (keys : List κ) : List κ :=
  (inOrder keys).filter fun k => after.all (· < k)

def pageOf (n : ℕ) (after : Option κ) (keys : List κ) : Page κ :=
  let visible := (behind after keys).take n
  let hasMore := decide (n < (behind after keys).length)
  { items := visible
    hasMore := hasMore
    nextKey := if hasMore then visible.getLast? else none }

@[simp] theorem mem_inOrder {keys : List κ} {k : κ} : k ∈ inOrder keys ↔ k ∈ keys := by
  rw [inOrder, mem_sortedBy, List.mem_dedup]

theorem inOrder_strict (keys : List κ) : (inOrder keys).Pairwise (· < ·) := by
  have hnodup : (inOrder keys).Nodup :=
    (sortedBy_perm id keys.dedup).nodup_iff.mpr (List.nodup_dedup keys)
  have hordered := sortedBy_ordered id keys.dedup
  exact (hordered.and hnodup).imp fun h => lt_of_le_of_ne h.1 h.2

theorem mem_behind {after : Option κ} {keys : List κ} {k : κ} :
    k ∈ behind after keys ↔ k ∈ keys ∧ ∀ c ∈ after, c < k := by
  rw [behind, List.mem_filter, mem_inOrder]
  cases after <;> simp

theorem behind_strict (after : Option κ) (keys : List κ) :
    (behind after keys).Pairwise (· < ·) := (inOrder_strict keys).filter _

theorem behind_none (keys : List κ) : behind none keys = inOrder keys := by
  simp [behind]

/-- Two lists in strict order with the same members are one list. -/
theorem strict_ext {l m : List κ} (hl : l.Pairwise (· < ·)) (hm : m.Pairwise (· < ·))
    (h : ∀ k, k ∈ l ↔ k ∈ m) : l = m := by
  have hperm : l.Perm m := (List.perm_ext_iff_of_nodup (hl.imp ne_of_lt) (hm.imp ne_of_lt)).mpr h
  apply List.Perm.eq_of_pairwise _ hl hm hperm
  intro a b _ _ hab hba
  exact absurd hba hab.not_gt

/-- A key is among the first `n` when fewer than `n` stand before it. -/
theorem mem_take_iff {l : List κ} (hl : l.Pairwise (· < ·)) {n : ℕ} {k : κ} :
    k ∈ l.take n ↔ k ∈ l ∧ (l.filter (· < k)).length < n := by
  induction l generalizing n with
  | nil => simp
  | cons a l ih =>
    obtain ⟨ha,hl⟩ := List.pairwise_cons.mp hl
    cases n with
    | zero => simp
    | succ n =>
      rw [List.take_succ_cons, List.mem_cons, List.mem_cons, ih hl]
      by_cases hka : k = a
      · have hnone : (a :: l).filter (· < k) = [] := by
          apply List.filter_eq_nil_iff.mpr
          intro b hb
          rcases List.mem_cons.mp hb with rfl | hb
          · simp [hka]
          · rw [hka]
            simpa using (ha b hb).le
        rw [hnone]
        simp [hka]
      · simp only [hka, false_or]
        constructor
        · rintro ⟨hk,hcount⟩
          refine ⟨hk,?_⟩
          rw [List.filter_cons_of_pos (by simpa using ha k hk), List.length_cons]
          omega
        · rintro ⟨hk,hcount⟩
          refine ⟨hk,?_⟩
          rw [List.filter_cons_of_pos (by simpa using ha k hk), List.length_cons] at hcount
          omega

/-! ### Ranks -/

/-- How many keys stand between a cursor and a key. -/
def rank (after : Option κ) (keys : List κ) (k : κ) : ℕ :=
  ((behind after keys).filter (· < k)).length

theorem mem_items {n : ℕ} {after : Option κ} {keys : List κ} {k : κ} :
    k ∈ (pageOf n after keys).items ↔ k ∈ behind after keys ∧ rank after keys k < n :=
  mem_take_iff (behind_strict after keys)

/-- A later key has a higher rank. -/
theorem rank_lt {after : Option κ} {keys : List κ} {c k : κ} (hc : c ∈ behind after keys)
    (hck : c < k) : rank after keys c < rank after keys k := by
  have hnarrow : (behind after keys).filter (· < c) =
      ((behind after keys).filter (· < k)).filter (· < c) := by
    rw [List.filter_filter]
    apply List.filter_congr
    intro b _
    by_cases hbc : b < c
    · simp [hbc, hbc.trans hck]
    · simp [hbc]
  rw [rank, hnarrow]
  apply List.length_filter_lt_length_iff_exists.mpr
  exact ⟨c,List.mem_filter.mpr ⟨hc,by simpa using hck⟩,by simp⟩

/-- Ranks from the start and ranks from a key add up. -/
theorem rank_split {keys : List κ} {c k : κ} (hc : c ∈ keys) (hck : c < k) :
    rank none keys k = rank none keys c+1+rank (some c) keys k := by
  obtain ⟨before,rest,hsplit⟩ := List.append_of_mem (mem_inOrder.mpr hc)
  have hstrict := inOrder_strict keys
  rw [hsplit] at hstrict
  obtain ⟨-,hrest,hcross⟩ := List.pairwise_append.mp hstrict
  have hbefore : ∀ b ∈ before, b < c := fun b hb => hcross b hb c List.mem_cons_self
  have hbehind : ∀ b ∈ rest, c < b := (List.pairwise_cons.mp hrest).1
  have hfront : before.filter (· < c) = before :=
    List.filter_eq_self.mpr fun b hb => by simpa using hbefore b hb
  have hfront' : before.filter (· < k) = before :=
    List.filter_eq_self.mpr fun b hb => by simpa using (hbefore b hb).trans hck
  have hnone : rest.filter (· < c) = [] :=
    List.filter_eq_nil_iff.mpr fun b hb => by simpa using (hbehind b hb).le
  have hnone' : before.filter (c < ·) = [] :=
    List.filter_eq_nil_iff.mpr fun b hb => by simpa using (hbefore b hb).le
  have hall : rest.filter (c < ·) = rest :=
    List.filter_eq_self.mpr fun b hb => by simpa using hbehind b hb
  have hafter : behind (some c) keys = rest := by
    rw [behind, hsplit, List.filter_append, List.filter_cons_of_neg (by simp)]
    simp only [Option.all_some]
    rw [hnone', hall, List.nil_append]
  rw [rank, rank, rank, behind_none, hafter, hsplit, List.filter_append, List.filter_append, hfront,
    hfront', List.filter_cons_of_pos (by simpa using hck), List.filter_cons_of_neg (by simp), hnone]
  simp only [List.length_append, List.length_cons, List.length_nil]
  omega

/-! ### The next cursor -/

section Cursor
variable {n : ℕ} {after : Option κ} {keys : List κ}

theorem nextKey_last {d : κ} (h : (pageOf n after keys).nextKey = some d) :
    n < (behind after keys).length ∧ ((behind after keys).take n).getLast? = some d := by
  simp only [pageOf] at h
  split_ifs at h with hmore
  exact ⟨of_decide_eq_true hmore,h⟩

/-- The keys up to the next cursor are those of the page. -/
theorem le_nextKey {d k : κ} (h : (pageOf n after keys).nextKey = some d) :
    k ≤ d ↔ rank after keys k < n := by
  obtain ⟨hmore,hlast⟩ := nextKey_last h
  have hstrict : (behind after keys).Pairwise fun a b => id a < id b := behind_strict after keys
  exact le_last_iff hstrict hlast hmore.le

theorem nextKey_behind {d : κ} (h : (pageOf n after keys).nextKey = some d) :
    d ∈ behind after keys :=
  List.mem_of_mem_take (List.mem_of_getLast? (nextKey_last h).2)

/-- The next cursor is the last key of a full page. -/
theorem nextKey_rank {d : κ} (h : (pageOf n after keys).nextKey = some d) :
    rank after keys d+1 = n := by
  obtain ⟨hmore,hlast⟩ := nextKey_last h
  obtain ⟨before,hbefore⟩ := List.getLast?_eq_some_iff.mp hlast
  have hlength := congrArg List.length hbefore
  rw [List.length_take, Nat.min_eq_left hmore.le, List.length_append, List.length_singleton] at hlength
  have hsplit : behind after keys = before ++ d :: (behind after keys).drop n := by
    conv_lhs => rw [← List.take_append_drop n (behind after keys), hbefore]
    simp
  have hstrict := behind_strict after keys
  rw [hsplit] at hstrict
  obtain ⟨-,hrest,hcross⟩ := List.pairwise_append.mp hstrict
  have hfront : before.filter (· < d) = before :=
    List.filter_eq_self.mpr fun b hb => by simpa using hcross b hb d List.mem_cons_self
  have hback : ((behind after keys).drop n).filter (· < d) = [] :=
    List.filter_eq_nil_iff.mpr fun b hb => by simpa using ((List.pairwise_cons.mp hrest).1 b hb).le
  rw [rank, hsplit, List.filter_append, hfront, List.filter_cons_of_neg (by simp), hback,
    List.append_nil]
  exact hlength.symm

/-- Something stands behind the next cursor. -/
theorem nextKey_not_last {d : κ} (h : (pageOf n after keys).nextKey = some d) :
    ∃ k ∈ behind after keys, d < k := by
  obtain ⟨hmore,hlast⟩ := nextKey_last h
  have hk : (behind after keys)[n] ∈ behind after keys := List.getElem_mem hmore
  refine ⟨_,hk,?_⟩
  by_contra hle
  have hrank := (le_nextKey h).mp (not_lt.mp hle)
  have hmem := (mem_take_iff (behind_strict after keys)).mpr ⟨hk,hrank⟩
  obtain ⟨i,hi,heq⟩ := List.getElem_of_mem hmem
  rw [List.getElem_take] at heq
  have hin := (List.Nodup.getElem_inj_iff ((behind_strict after keys).imp ne_of_lt)).mp heq
  rw [List.length_take] at hi
  omega

theorem nextKey_none (hn : 0 < n) (h : (pageOf n after keys).nextKey = none) :
    (behind after keys).length ≤ n := by
  by_contra hmore
  simp only [pageOf] at h
  rw [if_pos (decide_eq_true (by omega)), List.getLast?_eq_none_iff] at h
  have hlength := congrArg List.length h
  rw [List.length_take, List.length_nil] at hlength
  omega

end Cursor

/-! ### A page with further keys merged into it -/

section Merged
variable {n : ℕ} {after : Option κ} {keys extra : List κ}

/-- The keys of a page and further keys behind its cursor, in order. -/
def merged (n : ℕ) (after : Option κ) (keys extra : List κ) : List κ :=
  inOrder ((pageOf n after keys).items ++ extra.dedup.filter fun k => after.all (· < k))

theorem mem_merged {k : κ} : k ∈ merged n after keys extra ↔ k ∈ behind after (keys ++ extra) ∧
    (k ∈ (pageOf n after keys).items ∨ k ∈ extra) := by
  have hall : after.all (fun a => decide (a < k)) = true ↔ ∀ a ∈ after, a < k := by
    cases after <;> simp
  rw [merged, mem_inOrder, List.mem_append, List.mem_filter, List.mem_dedup, mem_behind,
    List.mem_append, hall]
  constructor
  · rintro (hk | ⟨hk,hbehind⟩)
    · obtain ⟨hkeys,hbehind⟩ := mem_behind.mp (mem_items.mp hk).1
      exact ⟨⟨Or.inl hkeys,hbehind⟩,Or.inl hk⟩
    · exact ⟨⟨Or.inr hk,hbehind⟩,Or.inr hk⟩
  · rintro ⟨⟨-,hbehind⟩,hk | hk⟩
    · exact Or.inl hk
    · exact Or.inr ⟨hk,hbehind⟩

theorem merged_eq_filter : merged n after keys extra = (behind after (keys ++ extra)).filter fun k =>
    k ∈ (pageOf n after keys).items ∨ k ∈ extra := by
  apply strict_ext (inOrder_strict _) ((behind_strict _ _).filter _)
  intro k
  rw [List.mem_filter, decide_eq_true_eq]
  exact mem_merged

theorem rank_le {l : List κ} {b c : κ} (h : b ≤ c) :
    (l.filter (· < b)).length ≤ (l.filter (· < c)).length := by
  rw [← List.countP_eq_length_filter, ← List.countP_eq_length_filter]
  apply List.countP_mono_left
  intro a _ ha
  rw [decide_eq_true_eq] at ha ⊢
  exact ha.trans_le h

theorem behind_subset : behind after keys ⊆ behind after (keys ++ extra) := by
  intro k hk
  obtain ⟨hkeys,hbehind⟩ := mem_behind.mp hk
  exact mem_behind.mpr ⟨List.mem_append_left _ hkeys,hbehind⟩

/-- What a page has no room for stands behind `n` keys that it has. -/
theorem left_out (extra : List κ) {x : κ} (hx : x ∈ behind after keys) (hout : x ∉ (pageOf n after keys).items) :
    n ≤ ((merged n after keys extra).filter (· < x)).length := by
  have hrank : n ≤ rank after keys x := by
    by_contra hlt
    exact hout (mem_items.mpr ⟨hx,not_le.mp hlt⟩)
  have hlength : ((pageOf n after keys).items).length = n := by
    have hbound := List.length_filter_le (· < x) (behind after keys)
    rw [rank] at hrank
    simp only [pageOf, List.length_take]
    omega
  have hnodup : ((pageOf n after keys).items).Nodup :=
    (((behind_strict after keys).imp ne_of_lt).sublist (List.take_sublist _ _))
  have hsubset : (pageOf n after keys).items ⊆ (merged n after keys extra).filter (· < x) := by
    intro y hy
    obtain ⟨hbehind,hyrank⟩ := mem_items.mp hy
    rw [List.mem_filter, decide_eq_true_eq]
    refine ⟨mem_merged.mpr ⟨behind_subset hbehind,Or.inl hy⟩,?_⟩
    by_contra hle
    have hmono : rank after keys x ≤ rank after keys y := rank_le (not_lt.mp hle)
    omega
  calc n = ((pageOf n after keys).items).length := hlength.symm
    _ ≤ _ := (hnodup.subperm hsubset).length_le

/-- Nothing is lost before a key that fewer than `n` merged keys stand before. -/
theorem merged_before {k : κ} (hcount : ((merged n after keys extra).filter (· < k)).length < n) :
    (merged n after keys extra).filter (· < k) = (behind after (keys ++ extra)).filter (· < k) := by
  rw [merged_eq_filter, List.filter_filter]
  apply List.filter_congr
  intro x hx
  by_cases hxk : x < k
  · have hmem : x ∈ (pageOf n after keys).items ∨ x ∈ extra := by
      by_contra hout
      rw [not_or] at hout
      obtain ⟨hkeys,hbehind⟩ := mem_behind.mp hx
      have hx' : x ∈ behind after keys :=
        mem_behind.mpr ⟨(List.mem_append.mp hkeys).resolve_right hout.2,hbehind⟩
      have hleft := left_out extra hx' hout.1
      have hmono : ((merged n after keys extra).filter (· < x)).length ≤
          ((merged n after keys extra).filter (· < k)).length := rank_le hxk.le
      omega
    simp [hxk, hmem]
  · simp [hxk]

/-- Merging into a page gives the page of both lists of keys. -/
theorem merged_items :
    (merged n after keys extra).take n = (pageOf n after (keys ++ extra)).items := by
  apply strict_ext ((inOrder_strict _).sublist (List.take_sublist _ _))
    ((behind_strict _ _).sublist (List.take_sublist _ _))
  intro k
  have hright : k ∈ (behind after (keys ++ extra)).take n ↔
      k ∈ behind after (keys ++ extra) ∧ rank after (keys ++ extra) k < n := mem_items
  rw [hright, mem_take_iff (inOrder_strict _)]
  constructor
  · rintro ⟨hk,hcount⟩
    refine ⟨(mem_merged.mp hk).1,?_⟩
    have hcount' : ((merged n after keys extra).filter (· < k)).length < n := hcount
    rwa [merged_before hcount'] at hcount'
  · rintro ⟨hk,hcount⟩
    have hsublist : (merged n after keys extra).Sublist (behind after (keys ++ extra)) := by
      rw [merged_eq_filter]
      exact List.filter_sublist
    refine ⟨mem_merged.mpr ⟨hk,?_⟩,((hsublist.filter _).length_le).trans_lt hcount⟩
    obtain ⟨hkeys,hbehind⟩ := mem_behind.mp hk
    rcases List.mem_append.mp hkeys with hkeys | hextra
    · refine Or.inl (mem_items.mpr ⟨mem_behind.mpr ⟨hkeys,hbehind⟩,?_⟩)
      have hnarrow : ((behind after keys).filter (· < k)).length ≤
          ((behind after (keys ++ extra)).filter (· < k)).length := by
        apply (List.Nodup.subperm (((behind_strict _ _).filter _).imp ne_of_lt) ?_).length_le
        intro x hx
        obtain ⟨hmem,hlt⟩ := List.mem_filter.mp hx
        exact List.mem_filter.mpr ⟨behind_subset hmem,hlt⟩
      exact hnarrow.trans_lt hcount
    · exact Or.inr hextra

theorem merged_more : ((pageOf n after keys).hasMore || decide (n < (merged n after keys extra).length)) =
    (pageOf n after (keys ++ extra)).hasMore := by
  have hsublist : (merged n after keys extra).Sublist (behind after (keys ++ extra)) := by
    rw [merged_eq_filter]
    exact List.filter_sublist
  have hkeys : (behind after keys).length ≤ (behind after (keys ++ extra)).length :=
    (List.Nodup.subperm ((behind_strict _ _).imp ne_of_lt) behind_subset).length_le
  have hmerged := hsublist.length_le
  simp only [pageOf, ← Bool.decide_or, decide_eq_decide]
  constructor
  · rintro (h | h) <;> omega
  · intro hmore
    by_contra hnone
    rw [not_or, not_lt, not_lt] at hnone
    have hall : merged n after keys extra = behind after (keys ++ extra) := by
      rw [merged_eq_filter]
      apply List.filter_eq_self.mpr
      intro k hk
      obtain ⟨hmem,hbehind⟩ := mem_behind.mp hk
      rw [decide_eq_true_eq]
      rcases List.mem_append.mp hmem with hmem | hmem
      · left
        show k ∈ (behind after keys).take n
        rw [List.take_of_length_le hnone.1]
        exact mem_behind.mpr ⟨hmem,hbehind⟩
      · exact Or.inr hmem
    rw [hall] at hnone
    omega

end Merged

/-! ### Page by page -/

/-- The last key of a full page, when pages are counted from the start and another key follows. -/
def Boundary (n : ℕ) (keys : List κ) (c : κ) : Prop :=
  c ∈ keys ∧ n ∣ rank none keys c+1 ∧ ∃ k ∈ keys, c < k

instance (n : ℕ) (keys : List κ) (c : κ) : Decidable (Boundary n keys c) :=
  inferInstanceAs (Decidable (_ ∧ _ ∧ _))

/-- A cursor that paging from the start comes to. -/
def Cursor (n : ℕ) (keys : List κ) (after : Option κ) : Prop := ∀ c ∈ after, Boundary n keys c

/-- The next boundary behind a cursor is the next cursor. -/
theorem boundary_next {n : ℕ} {keys : List κ} {after : Option κ} (hafter : Cursor n keys after)
    {d : κ} (h : (pageOf n after keys).nextKey = some d) :
    Boundary n keys d ∧ ∀ c, Boundary n keys c → (∀ a ∈ after, a < c) → d ≤ c := by
  have hd := mem_behind.mp (nextKey_behind h)
  obtain ⟨k,hk,hdk⟩ := nextKey_not_last h
  have hrank := nextKey_rank h
  have hfirst : ∀ c ∈ behind after keys, n ≤ rank after keys c+1 → d ≤ c := by
    intro c hc hle
    by_contra hlt
    have hless := rank_lt hc (not_le.mp hlt)
    omega
  cases after with
  | none =>
    refine ⟨⟨hd.1,by rw [hrank],k,(mem_behind.mp hk).1,hdk⟩,?_⟩
    rintro c ⟨hc,hdvd,-⟩ hbehind
    exact hfirst c (mem_behind.mpr ⟨hc,hbehind⟩) (Nat.le_of_dvd (by omega) hdvd)
  | some a =>
    obtain ⟨ha,hadvd,-⟩ := hafter a rfl
    have had := rank_split ha (hd.2 a rfl)
    refine ⟨⟨hd.1,?_,k,(mem_behind.mp hk).1,hdk⟩,?_⟩
    · rw [show rank none keys d+1 = (rank none keys a+1)+n by omega]
      exact Nat.dvd_add hadvd (Nat.dvd_refl n)
    · rintro c ⟨hc,hdvd,-⟩ hbehind
      have hac := rank_split ha (hbehind a rfl)
      rw [show rank none keys c+1 = (rank none keys a+1)+(rank (some a) keys c+1) by omega] at hdvd
      exact hfirst c (mem_behind.mpr ⟨hc,hbehind⟩)
        (Nat.le_of_dvd (by omega) ((Nat.dvd_add_right hadvd).mp hdvd))

/-- Behind the last cursor no boundary stands. -/
theorem boundary_last {n : ℕ} (hn : 0 < n) {keys : List κ} {after : Option κ}
    (hafter : Cursor n keys after) (h : (pageOf n after keys).nextKey = none) {c : κ}
    (hc : Boundary n keys c) : ¬ ∀ a ∈ after, a < c := by
  intro hbehind
  obtain ⟨hmem,hdvd,k,hk,hck⟩ := hc
  have hshort := nextKey_none hn h
  have hcmem : c ∈ behind after keys := mem_behind.mpr ⟨hmem,hbehind⟩
  have hkmem : k ∈ behind after keys :=
    mem_behind.mpr ⟨hk,fun a ha => (hbehind a ha).trans hck⟩
  have hless := rank_lt hcmem hck
  have hbound : rank after keys k < (behind after keys).length :=
    List.length_filter_lt_length_iff_exists.mpr ⟨k,hkmem,by simp⟩
  have hfull : n ≤ rank after keys c+1 := by
    cases after with
    | none => exact Nat.le_of_dvd (by omega) hdvd
    | some a =>
      obtain ⟨ha,hadvd,-⟩ := hafter a rfl
      have hac := rank_split ha (hbehind a rfl)
      rw [show rank none keys c+1 = (rank none keys a+1)+(rank (some a) keys c+1) by omega] at hdvd
      exact Nat.le_of_dvd (by omega) ((Nat.dvd_add_right hadvd).mp hdvd)
  omega

/-- The cursors of a run, page by page, until none is left. -/
inductive Walk (n : ℕ) (keys : List κ) : Option κ → List (Option κ) → Prop where
  | last {after : Option κ} (h : (pageOf n after keys).nextKey = none) : Walk n keys after [after]
  | more {after : Option κ} {c : κ} {cursors : List (Option κ)}
      (h : (pageOf n after keys).nextKey = some c) (rest : Walk n keys (some c) cursors) :
      Walk n keys after (after :: cursors)

/-- Paging ends. -/
theorem walk_exists (n : ℕ) (keys : List κ) (after : Option κ) :
    ∃ cursors, Walk n keys after cursors := by
  induction hlength : (behind after keys).length using Nat.strongRecOn generalizing after with
  | ind length ih =>
    cases hnext : (pageOf n after keys).nextKey with
    | none => exact ⟨[after],.last hnext⟩
    | some c =>
      have hc := nextKey_behind hnext
      have hfewer : (behind (some c) keys).length < length := by
        have hnarrow : behind (some c) keys = (behind after keys).filter (c < ·) := by
          apply strict_ext (behind_strict _ _) ((behind_strict _ _).filter _)
          intro k
          rw [List.mem_filter, mem_behind, mem_behind]
          constructor
          · rintro ⟨hk,hck⟩
            exact ⟨⟨hk,fun a ha => ((mem_behind.mp hc).2 a ha).trans (hck c rfl)⟩,
              by simpa using hck c rfl⟩
          · rintro ⟨⟨hk,-⟩,hck⟩
            refine ⟨hk,?_⟩
            rintro a ⟨rfl⟩
            simpa using hck
        rw [hnarrow, ← hlength]
        exact List.length_filter_lt_length_iff_exists.mpr ⟨c,hc,by simp⟩
      obtain ⟨cursors,hrest⟩ := ih _ hfewer (some c) rfl
      exact ⟨after :: cursors,.more hnext hrest⟩

/-! ### Two lists under one cursor -/

/-- What two pages behind one cursor report, up to the next cursor of the first. -/
def window (n : ℕ) (keys others : List κ) (after : Option κ) : List κ :=
  (inOrder ((pageOf n after others).items ++ (pageOf n after keys).items)).filter fun k =>
    (pageOf n after keys).nextKey.all (k ≤ ·)

/-- How many keys of the other list lie between the last boundary before a key and that key. -/
def lead (n : ℕ) (keys others : List κ) (k : κ) : ℕ :=
  ((inOrder others).filter fun b => b < k ∧ ∀ c ∈ keys, Boundary n keys c → c < k → c < b).length

/-- What a run over both lists reports of a key: that it is a key of the list whose cursor is
followed, or that the other list reaches it within one page of the boundary before it. -/
def Reached (n : ℕ) (keys others : List κ) (k : κ) : Prop :=
  k ∈ keys ∨ k ∈ others ∧ lead n keys others k < n

instance (n : ℕ) (keys others : List κ) (k : κ) : Decidable (Reached n keys others k) :=
  inferInstanceAs (Decidable (_ ∨ _))

section Windows
variable {n : ℕ} (hn : 0 < n) {keys others : List κ} {after : Option κ}

theorem mem_window {k : κ} : k ∈ window n keys others after ↔
    (k ∈ (pageOf n after others).items ∨ k ∈ (pageOf n after keys).items) ∧
      ∀ d ∈ (pageOf n after keys).nextKey, k ≤ d := by
  rw [window, List.mem_filter, mem_inOrder, List.mem_append]
  cases (pageOf n after keys).nextKey <;> simp

theorem window_behind {k : κ} (h : k ∈ window n keys others after) : ∀ a ∈ after, a < k := by
  rcases (mem_window.mp h).1 with h | h
  all_goals exact (mem_behind.mp (mem_items.mp h).1).2

theorem window_strict : (window n keys others after).Pairwise (· < ·) :=
  (inOrder_strict _).filter _

include hn

theorem page_room {k : κ} (hk : k ∈ keys) (hbehind : ∀ a ∈ after, a < k)
    (hnext : ∀ d ∈ (pageOf n after keys).nextKey, k ≤ d) : k ∈ (pageOf n after keys).items := by
  have hmem : k ∈ behind after keys := mem_behind.mpr ⟨hk,hbehind⟩
  refine mem_items.mpr ⟨hmem,?_⟩
  cases hd : (pageOf n after keys).nextKey with
  | none =>
    have hshort := nextKey_none hn hd
    have hbound : rank after keys k < (behind after keys).length :=
      List.length_filter_lt_length_iff_exists.mpr ⟨k,hmem,by simp⟩
    omega
  | some d => exact (le_nextKey hd).mp (hnext d hd)

/-- Within one window the last boundary is the cursor. -/
theorem lead_eq_rank (hafter : Cursor n keys after) {k : κ} (hbehind : ∀ a ∈ after, a < k)
    (hnext : ∀ d ∈ (pageOf n after keys).nextKey, k ≤ d) :
    lead n keys others k = rank after others k := by
  have hboundary : ∀ c, Boundary n keys c → c < k → ¬ ∀ a ∈ after, a < c := by
    intro c hc hck hac
    cases hd : (pageOf n after keys).nextKey with
    | none => exact boundary_last hn hafter hd hc hac
    | some d => exact absurd (((boundary_next hafter hd).2 c hc hac).trans_lt hck) (hnext d hd).not_gt
  rw [lead, rank, behind, List.filter_filter]
  congr 1
  apply List.filter_congr
  intro b _
  cases after with
  | none =>
    have hnone : ∀ c ∈ keys, Boundary n keys c → c < k → c < b := by
      intro c _ hc hck
      exact absurd (by simp) (hboundary c hc hck)
    simp only [Option.all_none, Bool.and_true, decide_eq_decide]
    exact ⟨fun h => h.1,fun h => ⟨h,hnone⟩⟩
  | some a =>
    have ha := hafter a rfl
    simp only [Option.all_some, ← Bool.decide_and, decide_eq_decide]
    constructor
    · rintro ⟨hbk,hall⟩
      exact ⟨hbk,hall a ha.1 ha (hbehind a rfl)⟩
    · rintro ⟨hbk,hab⟩
      refine ⟨hbk,?_⟩
      intro c _ hc hck
      have hca : c ≤ a := by
        by_contra hlt
        exact hboundary c hc hck (by simpa using hlt)
      exact hca.trans_lt hab

/-- One window reports of the keys between its cursors those that are reached. -/
theorem window_reached (hafter : Cursor n keys after) {k : κ} (hbehind : ∀ a ∈ after, a < k)
    (hnext : ∀ d ∈ (pageOf n after keys).nextKey, k ≤ d) :
    k ∈ window n keys others after ↔ Reached n keys others k := by
  rw [mem_window, Reached, lead_eq_rank hn hafter hbehind hnext]
  constructor
  · rintro ⟨hothers | hkeys,-⟩
    · obtain ⟨hmem,hrank⟩ := mem_items.mp hothers
      exact Or.inr ⟨(mem_behind.mp hmem).1,hrank⟩
    · exact Or.inl (mem_behind.mp (mem_items.mp hkeys).1).1
  · rintro (hkeys | ⟨hothers,hrank⟩)
    · exact ⟨Or.inr (page_room hn hkeys hbehind hnext),hnext⟩
    · exact ⟨Or.inl (mem_items.mpr ⟨mem_behind.mpr ⟨hothers,hbehind⟩,hrank⟩),hnext⟩

/-- A run reports, in order and once each, the keys behind its first cursor that are reached. -/
theorem walk_reports (others : List κ) {cursors : List (Option κ)} (hwalk : Walk n keys after cursors)
    (hafter : Cursor n keys after) :
    (∀ k, k ∈ cursors.flatMap (window n keys others) ↔
      (∀ a ∈ after, a < k) ∧ Reached n keys others k) ∧
    (cursors.flatMap (window n keys others)).Pairwise (· < ·) := by
  induction hwalk with
  | @last after h =>
    rw [List.flatMap_cons, List.flatMap_nil, List.append_nil]
    have hnone : ∀ k : κ, ∀ d ∈ (pageOf n after keys).nextKey, k ≤ d := by
      intro k d hd
      rw [h] at hd
      cases hd
    refine ⟨?_,window_strict⟩
    intro k
    constructor
    · intro hk
      have hbehind := window_behind hk
      exact ⟨hbehind,(window_reached hn hafter hbehind (hnone k)).mp hk⟩
    · rintro ⟨hbehind,hreached⟩
      exact (window_reached hn hafter hbehind (hnone k)).mpr hreached
  | @more after c cursors h rest ih =>
    have hc := (boundary_next hafter h).1
    have hafterc : ∀ a ∈ after, a < c := (mem_behind.mp (nextKey_behind h)).2
    obtain ⟨hrest,hstrict⟩ := ih (by rintro a ⟨rfl⟩; exact hc)
    have hnext : ∀ {k}, k ≤ c → ∀ d ∈ (pageOf n after keys).nextKey, k ≤ d := by
      intro k hk d hd
      rw [h] at hd
      rw [← Option.some.inj hd]
      exact hk
    rw [List.flatMap_cons]
    constructor
    · intro k
      rw [List.mem_append, hrest]
      constructor
      · rintro (hk | ⟨hck,hreached⟩)
        · have hbehind := window_behind hk
          exact ⟨hbehind,(window_reached hn hafter hbehind (mem_window.mp hk).2).mp hk⟩
        · exact ⟨fun a ha => (hafterc a ha).trans (hck c rfl),hreached⟩
      · rintro ⟨hbehind,hreached⟩
        by_cases hkc : k ≤ c
        · exact Or.inl ((window_reached hn hafter hbehind (hnext hkc)).mpr hreached)
        · refine Or.inr ⟨?_,hreached⟩
          rintro a ⟨rfl⟩
          exact not_le.mp hkc
    · apply List.pairwise_append.mpr
      refine ⟨window_strict,hstrict,?_⟩
      intro k hk k' hk'
      have hkc := (mem_window.mp hk).2 c h
      exact hkc.trans_lt (((hrest k').mp hk').1 c rfl)

end Windows

end Pages

end Adg.KeysetPages
