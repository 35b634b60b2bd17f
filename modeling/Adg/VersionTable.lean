import Adg.ObjectVersions

/-!
# The table of versions

The database numbers the rows and enforces the checks, the identity of a
version and the single open version of an object. Every statement either
leaves a table that meets all of them or is refused, and a refused statement
aborts the transaction it belongs to.
-/

set_option autoImplicit false

namespace Adg.VersionTable
open Adg.ObjectVersions

/-- The `CHECK` constraints of `object_versions`. -/
def checks (v : ObjectVersion) : Bool :=
  v.validFrom ≤ v.lastSeenAt ∧ v.validTo.all (v.lastSeenAt ≤ ·) ∧
    v.validTo.isNone = v.closeReason.isNone ∧ v.validTo.isNone = v.closedByRunId.isNone ∧
    v.isPresent = v.state.isSome ∧ v.isPresent = v.stateHash.isSome

/-- `uq_object_versions_identity` and `ux_object_versions_open`, between two rows. -/
def Compatible (v w : ObjectVersion) : Prop :=
  v.object = w.object → v.validFrom ≠ w.validFrom ∧ ¬ (v.isOpen = true ∧ w.isOpen = true)

instance : DecidableRel Compatible := fun v w => by unfold Compatible; infer_instance

theorem Compatible.symm {v w : ObjectVersion} (h : Compatible v w) : Compatible w v :=
  fun ho => ⟨(h ho.symm).1.symm,fun hb => (h ho.symm).2 hb.symm⟩

inductive Violation where
  | check
  | identity
  | oneOpen
  deriving DecidableEq, Repr

/-- The constraint a row would break beside the given ones. -/
def clash (rows : List ObjectVersion) (v : ObjectVersion) : Option Violation :=
  if checks v = false then some .check
  else if rows.any (fun r => r.object = v.object ∧ r.validFrom = v.validFrom) then some .identity
  else if v.isOpen ∧ rows.any (fun r => r.object = v.object ∧ r.isOpen) then some .oneOpen
  else none

theorem clash_none {rows : List ObjectVersion} {v : ObjectVersion} :
    clash rows v = none ↔ checks v = true ∧ ∀ r ∈ rows, Compatible r v := by
  unfold clash
  constructor
  · intro h
    split_ifs at h with hc hi ho
    refine ⟨by simpa using hc,fun r hr hobj => ⟨fun hfrom => hi ?_,fun hopen => ho ?_⟩⟩
    · exact List.any_eq_true.mpr ⟨r,hr,by simp [hobj, hfrom]⟩
    · exact ⟨hopen.2,List.any_eq_true.mpr ⟨r,hr,by simp [hobj, hopen.1]⟩⟩
  · rintro ⟨hc,hr⟩
    rw [if_neg (by simp [hc]), if_neg, if_neg]
    · rintro ⟨hopen,hany⟩
      obtain ⟨r,hm,h⟩ := List.any_eq_true.mp hany
      have h : r.object = v.object ∧ r.isOpen = true := of_decide_eq_true h
      exact (hr r hm h.1).2 ⟨h.2,hopen⟩
    · intro hany
      obtain ⟨r,hm,h⟩ := List.any_eq_true.mp hany
      have h : r.object = v.object ∧ r.validFrom = v.validFrom := of_decide_eq_true h
      exact (hr r hm h.1).1 h.2

structure Table where
  rows : List ObjectVersion := []
  nextId : ℕ := 0
  ids_fresh : ∀ v ∈ rows, v.versionId < nextId := by simp
  ids_nodup : (rows.map (·.versionId)).Nodup := by simp
  checked : ∀ v ∈ rows, checks v = true := by simp
  compatible : rows.Pairwise Compatible := by simp

theorem no_ids : ∀ v ∈ ([] : List ObjectVersion), v.versionId < 0 := by simp

theorem no_checks : ∀ v ∈ ([] : List ObjectVersion), checks v = true := by simp

/-- A table with nothing in it yet. -/
def Table.blank : Table where
  rows := []
  nextId := 0
  ids_fresh := no_ids
  ids_nodup := List.nodup_nil
  checked := no_checks
  compatible := List.Pairwise.nil

/-- The row an `INSERT` stores: its number comes from the table. -/
def numbered (n : ℕ) (v : ObjectVersion) : ObjectVersion := { v with versionId := n }

/-- A set clause writes columns, never the number. -/
def rewrite (id : ℕ) (f : ObjectVersion → ObjectVersion) (r : ObjectVersion) : ObjectVersion :=
  if r.versionId = id then { f r with versionId := r.versionId } else r

theorem rewrite_id (id : ℕ) (f : ObjectVersion → ObjectVersion) (r : ObjectVersion) :
    (rewrite id f r).versionId = r.versionId := by
  unfold rewrite
  split <;> rfl

theorem rewrite_other {id : ℕ} (f : ObjectVersion → ObjectVersion) {r : ObjectVersion}
    (h : r.versionId ≠ id) : rewrite id f r = r := if_neg h

namespace Table

theorem row_unique (t : Table) {r s : ObjectVersion} (hr : r ∈ t.rows) (hs : s ∈ t.rows)
    (h : r.versionId = s.versionId) : r = s :=
  List.inj_on_of_nodup_map t.ids_nodup hr hs h

theorem distinct_ids (t : Table) :
    t.rows.Pairwise fun r s => r.versionId ≠ s.versionId :=
  List.pairwise_map.mp t.ids_nodup

theorem compatible_of_ne (t : Table) {r s : ObjectVersion} (hr : r ∈ t.rows)
    (hs : s ∈ t.rows) (h : r ≠ s) : Compatible r s :=
  have : Std.Symm Compatible := ⟨fun _ _ h => h.symm⟩
  t.compatible.forall hr hs h

/-- `INSERT INTO object_versions`. -/
def insertVersion (t : Table) (v : ObjectVersion) : Except Violation Table :=
  match h : clash t.rows (numbered t.nextId v) with
  | some e => .error e
  | none => .ok
    { rows := t.rows ++ [numbered t.nextId v]
      nextId := t.nextId+1
      ids_fresh := by
        intro r hr
        rcases List.mem_append.mp hr with hr | hr
        · exact (t.ids_fresh r hr).trans (Nat.lt_succ_self _)
        · rw [List.mem_singleton.mp hr]; exact Nat.lt_succ_self _
      ids_nodup := by
        rw [List.map_append, List.nodup_append]
        refine ⟨t.ids_nodup,by simp,?_⟩
        intro a ha b hb
        obtain ⟨r,hr,rfl⟩ := List.mem_map.mp ha
        rw [List.mem_singleton.mp hb]
        exact (t.ids_fresh r hr).ne
      checked := by
        intro r hr
        rcases List.mem_append.mp hr with hr | hr
        · exact t.checked r hr
        · rw [List.mem_singleton.mp hr]; exact (clash_none.mp h).1
      compatible := by
        refine List.pairwise_append.mpr ⟨t.compatible,by simp,fun r hr s hs => ?_⟩
        rw [List.mem_singleton.mp hs]
        exact (clash_none.mp h).2 r hr }

/-- `UPDATE object_versions SET ... WHERE id = :target_id`. -/
def updateVersion (t : Table) (id : ℕ) (f : ObjectVersion → ObjectVersion) :
    Except Violation Table :=
  match hold : t.rows.find? (·.versionId = id) with
  | none => .ok t
  | some old =>
    match h : clash (t.rows.filter (·.versionId ≠ id)) (rewrite id f old) with
    | some e => .error e
    | none => .ok
      { rows := t.rows.map (rewrite id f)
        nextId := t.nextId
        ids_fresh := by
          intro r hr
          obtain ⟨s,hs,rfl⟩ := List.mem_map.mp hr
          rw [rewrite_id]
          exact t.ids_fresh s hs
        ids_nodup := by
          rw [List.map_map, show ((·.versionId) ∘ rewrite id f) = (·.versionId) from
            funext (rewrite_id id f)]
          exact t.ids_nodup
        checked := by
          intro r hr
          obtain ⟨s,hs,rfl⟩ := List.mem_map.mp hr
          by_cases hid : s.versionId = id
          · have hid' : old.versionId = id := by simpa using List.find?_some hold
            rw [t.row_unique hs (List.mem_of_find?_eq_some hold) (hid.trans hid'.symm)]
            exact (clash_none.mp h).1
          · rw [rewrite_other f hid]
            exact t.checked s hs
        compatible := by
          have hid' : old.versionId = id := by simpa using List.find?_some hold
          have hmem := List.mem_of_find?_eq_some hold
          have hnew : ∀ r ∈ t.rows, r.versionId ≠ id → Compatible r (rewrite id f old) :=
            fun r hr hne => (clash_none.mp h).2 r (List.mem_filter.mpr ⟨hr,by simpa using hne⟩)
          refine List.pairwise_map.mpr ((t.compatible.and t.distinct_ids).imp_of_mem ?_)
          intro r s hr hs hrs
          by_cases hrid : r.versionId = id
          · have hsid : s.versionId ≠ id := fun e => hrs.2 (hrid.trans e.symm)
            rw [rewrite_other f hsid, t.row_unique hr hmem (hrid.trans hid'.symm)]
            exact (hnew s hs hsid).symm
          · rw [rewrite_other f hrid]
            by_cases hsid : s.versionId = id
            · rw [t.row_unique hs hmem (hsid.trans hid'.symm)]
              exact hnew r hr hrid
            · rw [rewrite_other f hsid]
              exact hrs.1 }

/-- The statements of one execution, each refused on its own. -/
def insertAll (t : Table) (vs : List ObjectVersion) : Except Violation Table :=
  vs.foldlM insertVersion t

abbrev Update := ℕ × (ObjectVersion → ObjectVersion)

def updateAll (t : Table) (us : List Update) : Except Violation Table :=
  us.foldlM (fun t u => t.updateVersion u.1 u.2) t

/-- `UPDATE ... WHERE`, over the rows that match when the statement starts. -/
def updateWhere (t : Table) (p : ObjectVersion → Bool)
    (f : ObjectVersion → ObjectVersion) : Except Violation Table :=
  t.updateAll ((t.rows.filter p).map fun r => (r.versionId,f))

end Table

/-! ### What a statement does -/

/-- The row after every update that names it. -/
def amend (us : List Table.Update) (r : ObjectVersion) : ObjectVersion :=
  us.foldl (fun r u => rewrite u.1 u.2 r) r

def numberedFrom : ℕ → List ObjectVersion → List ObjectVersion
  | _, [] => []
  | n, v :: vs => numbered n v :: numberedFrom (n+1) vs

theorem amend_id (us : List Table.Update) (r : ObjectVersion) :
    (amend us r).versionId = r.versionId := by
  induction us generalizing r with
  | nil => rfl
  | cons u us ih =>
    show (amend us (rewrite u.1 u.2 r)).versionId = r.versionId
    rw [ih, rewrite_id]

theorem amend_other {us : List Table.Update} {r : ObjectVersion}
    (h : ∀ u ∈ us, u.1 ≠ r.versionId) : amend us r = r := by
  induction us generalizing r with
  | nil => rfl
  | cons u us ih =>
    show amend us (rewrite u.1 u.2 r) = r
    rw [rewrite_other u.2 (h u List.mem_cons_self).symm]
    exact ih fun v hv => h v (List.mem_cons_of_mem u hv)

/-- A row named once is rewritten once. -/
theorem amend_named {us : List Table.Update} {u : Table.Update} {r : ObjectVersion}
    (hu : u ∈ us) (hid : u.1 = r.versionId) (hnodup : (us.map (·.1)).Nodup) :
    amend us r = rewrite u.1 u.2 r := by
  induction us with
  | nil => cases hu
  | cons v us ih =>
    obtain ⟨hv,hnodup⟩ := List.nodup_cons.mp hnodup
    show amend us (rewrite v.1 v.2 r) = rewrite u.1 u.2 r
    rcases List.mem_cons.mp hu with rfl | hu
    · refine amend_other fun w hw hwid => hv ?_
      rw [rewrite_id, ← hid] at hwid
      exact List.mem_map.mpr ⟨w,hw,hwid⟩
    · have hne : r.versionId ≠ v.1 := fun e =>
        hv (List.mem_map.mpr ⟨u,hu,hid.trans e⟩)
      rw [rewrite_other v.2 hne]
      exact ih hu hnodup

theorem mem_numberedFrom {n : ℕ} {vs : List ObjectVersion} {r : ObjectVersion}
    (h : r ∈ numberedFrom n vs) : ∃ v ∈ vs, ∃ m, n ≤ m ∧ r = numbered m v := by
  induction vs generalizing n with
  | nil => cases h
  | cons v vs ih =>
    rcases List.mem_cons.mp h with rfl | h
    · exact ⟨v,List.mem_cons_self,n,le_rfl,rfl⟩
    · obtain ⟨w,hw,m,hle,hm⟩ := ih h
      exact ⟨w,List.mem_cons_of_mem v hw,m,(Nat.le_succ n).trans hle,hm⟩

theorem numberedFrom_append (n : ℕ) (vs ws : List ObjectVersion) :
    numberedFrom n (vs ++ ws) = numberedFrom n vs ++ numberedFrom (n+vs.length) ws := by
  induction vs generalizing n with
  | nil => rfl
  | cons v vs ih =>
    simp only [List.cons_append, numberedFrom, ih, List.length_cons]
    rw [Nat.add_right_comm, Nat.add_assoc]

theorem numberedFrom_mem {n : ℕ} {vs : List ObjectVersion} {v : ObjectVersion} (h : v ∈ vs) :
    ∃ m, numbered m v ∈ numberedFrom n vs := by
  induction vs generalizing n with
  | nil => cases h
  | cons w vs ih =>
    rcases List.mem_cons.mp h with rfl | h
    · exact ⟨n,List.mem_cons_self⟩
    · obtain ⟨m,hm⟩ := ih (n := n+1) h
      exact ⟨m,List.mem_cons_of_mem _ hm⟩

section Moved
variable {t t' : Table} {g : ObjectVersion → ObjectVersion} {news : List ObjectVersion} {n : ℕ}

/-- Where the stored rows moved and new ones were added, a row is one or the other. -/
theorem mem_moved (h : t'.rows = t.rows.map g ++ numberedFrom n news) :
    ∀ v ∈ t'.rows, (∃ w ∈ t.rows, v = g w) ∨ ∃ x ∈ news, ∃ m, n ≤ m ∧ v = numbered m x := by
  intro v hv
  rw [h] at hv
  rcases List.mem_append.mp hv with hv | hv
  · obtain ⟨w,hw,rfl⟩ := List.mem_map.mp hv
    exact .inl ⟨w,hw,rfl⟩
  · exact .inr (mem_numberedFrom hv)

theorem moved_stored (h : t'.rows = t.rows.map g ++ numberedFrom n news) :
    ∀ v ∈ t.rows, g v ∈ t'.rows := by
  intro v hv
  rw [h]
  exact List.mem_append_left _ (List.mem_map.mpr ⟨v,hv,rfl⟩)

theorem moved_added (h : t'.rows = t.rows.map g ++ numberedFrom n news) :
    ∀ x ∈ news, ∃ m, numbered m x ∈ t'.rows := by
  intro x hx
  obtain ⟨m,hm⟩ := numberedFrom_mem (n := n) hx
  exact ⟨m,by rw [h]; exact List.mem_append_right _ hm⟩

end Moved

namespace Table

theorem insertVersion_ok {t t' : Table} {v : ObjectVersion}
    (h : t.insertVersion v = .ok t') :
    t'.rows = t.rows ++ [numbered t.nextId v] ∧ t'.nextId = t.nextId+1 := by
  unfold insertVersion at h
  split at h
  · cases h
  · cases h; exact ⟨rfl,rfl⟩

theorem insertVersion_returns {t : Table} {v : ObjectVersion} (hc : checks v = true)
    (hr : ∀ r ∈ t.rows, Compatible r v) : ∃ t', t.insertVersion v = .ok t' := by
  have hnone : clash t.rows (numbered t.nextId v) = none := clash_none.mpr ⟨hc,hr⟩
  unfold insertVersion
  split
  · next e he => exact absurd (he.symm.trans hnone) (by simp)
  · exact ⟨_,rfl⟩

theorem updateVersion_ok {t t' : Table} {id : ℕ} {f : ObjectVersion → ObjectVersion}
    (h : t.updateVersion id f = .ok t') :
    t'.rows = t.rows.map (rewrite id f) ∧ t'.nextId = t.nextId := by
  unfold updateVersion at h
  split at h
  · next hnone =>
    cases h
    refine ⟨?_,rfl⟩
    have hall : ∀ r ∈ t.rows, rewrite id f r = r := fun r hr =>
      rewrite_other f (by simpa using List.find?_eq_none.mp hnone r hr)
    rw [List.map_congr_left hall, List.map_id']
  · split at h
    · cases h
    · cases h; exact ⟨rfl,rfl⟩

theorem updateVersion_returns {t : Table} {id : ℕ} {f : ObjectVersion → ObjectVersion}
    (h : ∀ old ∈ t.rows, old.versionId = id → checks (rewrite id f old) = true ∧
      ∀ r ∈ t.rows, r.versionId ≠ id → Compatible r (rewrite id f old)) :
    ∃ t', t.updateVersion id f = .ok t' := by
  unfold updateVersion
  split
  · exact ⟨t,rfl⟩
  · next old hold =>
    have hm := h old (List.mem_of_find?_eq_some hold) (by simpa using List.find?_some hold)
    have hnone : clash (t.rows.filter (·.versionId ≠ id)) (rewrite id f old) = none := by
      refine clash_none.mpr ⟨hm.1,fun r hr => ?_⟩
      obtain ⟨hr,hne⟩ := List.mem_filter.mp hr
      exact hm.2 r hr (by simpa using hne)
    split
    · next e he => exact absurd (he.symm.trans hnone) (by simp)
    · exact ⟨_,rfl⟩

theorem insertAll_ok {t t' : Table} {vs : List ObjectVersion}
    (h : t.insertAll vs = .ok t') :
    t'.rows = t.rows ++ numberedFrom t.nextId vs ∧ t'.nextId = t.nextId+vs.length := by
  induction vs generalizing t with
  | nil => cases h; simp [numberedFrom]
  | cons v vs ih =>
    cases h1 : t.insertVersion v with
    | error e => simp [insertAll, h1, bind, Except.bind] at h
    | ok t1 =>
      have hrest : t1.insertAll vs = .ok t' := by simpa [insertAll, h1, bind, Except.bind] using h
      obtain ⟨hrows,hnext⟩ := insertVersion_ok h1
      obtain ⟨hrows',hnext'⟩ := ih hrest
      rw [hrows', hnext', hrows, hnext]
      refine ⟨by simp [numberedFrom],?_⟩
      rw [List.length_cons, Nat.add_right_comm, Nat.add_assoc]

theorem insertAll_returns {t : Table} {vs : List ObjectVersion}
    (hc : ∀ v ∈ vs, checks v = true) (hr : ∀ v ∈ vs, ∀ r ∈ t.rows, Compatible r v)
    (hp : vs.Pairwise Compatible) : ∃ t', t.insertAll vs = .ok t' := by
  induction vs generalizing t with
  | nil => exact ⟨t,rfl⟩
  | cons v vs ih =>
    obtain ⟨t1,h1⟩ := insertVersion_returns (hc v (by simp)) (hr v (by simp))
    obtain ⟨hv,hp⟩ := List.pairwise_cons.mp hp
    have hrest : ∃ t', t1.insertAll vs = .ok t' := by
      refine ih (fun w hw => hc w (by simp [hw])) (fun w hw r hm => ?_) hp
      rw [(insertVersion_ok h1).1] at hm
      rcases List.mem_append.mp hm with hm | hm
      · exact hr w (by simp [hw]) r hm
      · rw [List.mem_singleton.mp hm]
        exact hv w hw
    obtain ⟨t',h'⟩ := hrest
    exact ⟨t',by simpa [insertAll, h1, bind, Except.bind] using h'⟩

theorem updateAll_ok {t t' : Table} {us : List Update} (h : t.updateAll us = .ok t') :
    t'.rows = t.rows.map (amend us) ∧ t'.nextId = t.nextId := by
  induction us generalizing t with
  | nil => cases h; exact ⟨(List.map_id' _).symm,rfl⟩
  | cons u us ih =>
    cases h1 : t.updateVersion u.1 u.2 with
    | error e => simp [updateAll, h1, bind, Except.bind] at h
    | ok t1 =>
      have hrest : t1.updateAll us = .ok t' := by simpa [updateAll, h1, bind, Except.bind] using h
      obtain ⟨hrows,hnext⟩ := updateVersion_ok h1
      obtain ⟨hrows',hnext'⟩ := ih hrest
      refine ⟨?_,hnext'.trans hnext⟩
      rw [hrows', hrows, List.map_map]
      rfl

/-- An update that names at most one row keeps its object and stays clear of
the other rows. -/
structure Fits (t : Table) (u : Update) : Prop where
  object : ∀ r ∈ t.rows, r.versionId = u.1 → (rewrite u.1 u.2 r).object = r.object
  checks : ∀ r ∈ t.rows, r.versionId = u.1 → checks (rewrite u.1 u.2 r) = true
  clear : ∀ r ∈ t.rows, r.versionId = u.1 → ∀ s ∈ t.rows, s.versionId ≠ u.1 →
    Compatible s (rewrite u.1 u.2 r)

/-- Two updates are about different objects. -/
def Distinct (t : Table) (u w : Update) : Prop :=
  ∀ r ∈ t.rows, ∀ s ∈ t.rows, r.versionId = u.1 → s.versionId = w.1 → r.object ≠ s.object

/-- Updates of different objects do not get in each other's way. -/
theorem updateAll_returns {t : Table} {us : List Update} (h : ∀ u ∈ us, t.Fits u)
    (hd : us.Pairwise t.Distinct) : ∃ t', t.updateAll us = .ok t' := by
  induction us generalizing t with
  | nil => exact ⟨t,rfl⟩
  | cons u us ih =>
    have hu := h u List.mem_cons_self
    obtain ⟨hud,hd⟩ := List.pairwise_cons.mp hd
    obtain ⟨t1,h1⟩ : ∃ t1, t.updateVersion u.1 u.2 = .ok t1 :=
      updateVersion_returns fun r hr hid => ⟨hu.checks r hr hid,hu.clear r hr hid⟩
    have hrows := (updateVersion_ok h1).1
    have back : ∀ w ∈ us, ∀ r ∈ t1.rows, r.versionId = w.1 → r ∈ t.rows ∧ r.versionId ≠ u.1 := by
      intro w hw r hr hid
      rw [hrows] at hr
      obtain ⟨s,hs,rfl⟩ := List.mem_map.mp hr
      rw [rewrite_id] at hid ⊢
      by_cases hsu : s.versionId = u.1
      · exact absurd rfl (hud w hw s hs s hs hsu hid)
      · rw [rewrite_other u.2 hsu]
        exact ⟨hs,hsu⟩
    obtain ⟨t',h'⟩ : ∃ t', t1.updateAll us = .ok t' := by
      refine ih (fun w hw => ?_) (hd.imp_of_mem fun {w x} hw hx hwx => ?_)
      · have hfit := h w (List.mem_cons_of_mem u hw)
        refine ⟨fun r hr hid => hfit.object r (back w hw r hr hid).1 hid,
          fun r hr hid => hfit.checks r (back w hw r hr hid).1 hid,fun r hr hid s hs hne => ?_⟩
        obtain ⟨hr,-⟩ := back w hw r hr hid
        rw [hrows] at hs
        obtain ⟨x,hx,rfl⟩ := List.mem_map.mp hs
        rw [rewrite_id] at hne
        by_cases hxu : x.versionId = u.1
        · intro hobj
          rw [hu.object x hx hxu, hfit.object r hr hid] at hobj
          exact absurd hobj (hud w hw x hx r hr hxu hid)
        · rw [rewrite_other u.2 hxu]
          exact hfit.clear r hr hid x hx hne
      · intro r hr s hs hrid hsid
        exact hwx r (back w hw r hr hrid).1 s (back x hx s hs hsid).1 hrid hsid
    exact ⟨t',by simpa [updateAll, h1, bind, Except.bind] using h'⟩

end Table

end Adg.VersionTable
