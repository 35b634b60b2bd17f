import Adg.Checkpoints
import Adg.Reconciliation

/-!
# What a reconciliation counts as drift

A completion reports for each scope how many objects it marked absent and how
many had come back. The second number is taken from the tombstones that the
closure confirmed, which are those of the objects that are still gone.
-/

set_option autoImplicit false

namespace Adg.PresenceDrift
open Adg.Observation Adg.ObjectVersions Adg.KeyedTables Adg.VersionTable Adg.CurrentState
open Adg.ScopeClosure Adg.HistoryWriter Adg.HistorySteps Adg.ClosureSteps Adg.HistoryRuns
open Adg.Ingestion Adg.LiveEstate Adg.ScopeBoundary Adg.Reconciliation Adg.Checkpoints
open Adg.Fallible (bind_ok map_ok)

structure ReconciliationDrift where
  scopeKind : String
  scopeKey : String
  markedAbsent : ℕ := 0
  revived : ℕ := 0
  confirmed : ℕ := 0
  superseded : ℕ := 0
  deltaRunsSince : ℕ := 0
  deriving DecidableEq, Repr

namespace ReconciliationDrift

def drift (d : ReconciliationDrift) : ℕ := d.markedAbsent+d.revived

def isClean (d : ReconciliationDrift) : Bool := d.drift = 0

/-- The two halves of the sentence for a drift that is not clean. -/
def parts (d : ReconciliationDrift) : List String :=
  (if d.markedAbsent = 0 then [] else [s!"{d.markedAbsent} object(s) no longer present"]) ++
  (if d.revived = 0 then [] else
    [s!"{d.revived} object(s) present again after being marked absent"])

def summary (d : ReconciliationDrift) : String :=
  let scope := d.scopeKind ++ " " ++ d.scopeKey
  if d.isClean then
    "Reconciling " ++ scope ++ s!" found nothing the {d.deltaRunsSince} incremental run(s) since the last reconciliation had missed."
  else
    "Reconciling " ++ scope ++ " recorded " ++ " and ".intercalate d.parts ++ ". Incremental runs cannot observe an absence, so this is the cadence working as designed rather than a fault — but the estate was wrong by that much until this run."

end ReconciliationDrift

/-- A row of `scan_run_scopes` with its run. -/
structure RunScope where
  runId : RunId
  scopeKind : String
  scopeKey : String
  reconciled : Bool
  mode : CollectionMode
  completedAt : Option Instant
  deriving DecidableEq, Repr

/-- `_delta_runs_since`: the delta runs over the scope since another run reconciled it. -/
def deltaRunsSince (runs : List RunScope) (runId : RunId) (scopeKind scopeKey : String)
    (completedAt : Instant) : ℕ :=
  let sameScope := runs.filter fun r => r.scopeKind = scopeKind ∧ r.scopeKey = scopeKey
  let previous := ((sameScope.filter fun r => r.reconciled ∧ r.runId ≠ runId).filterMap
    (·.completedAt)).max?
  sameScope.countP fun r => r.mode = .delta ∧ r.completedAt.any fun t =>
    t ≤ completedAt ∧ previous.all (· < t)

/-- The sum of a count by kind. -/
def total (counts : List (ObservationKind × ℕ)) : ℕ := (counts.map (·.2)).sum

/-- `ClosureOutcome.total_closed`. -/
def totalClosed (o : ClosureOutcome) : ℕ := total o.closed

/-- What `_record_drift` makes of one closure. -/
def driftOf (runs : List RunScope) (runId : RunId) (completedAt : Instant) (o : ClosureOutcome) :
    ReconciliationDrift where
  scopeKind := o.scopeKind.value
  scopeKey := o.scopeKey
  markedAbsent := totalClosed o
  revived := total o.reaffirmed
  deltaRunsSince := deltaRunsSince runs runId o.scopeKind.value o.scopeKey completedAt

/-- `_record_drift`. -/
def recordDrift (runs : List RunScope) (runId : RunId) (closures : List ClosureOutcome)
    (completedAt : Instant) : List ReconciliationDrift :=
  closures.map (driftOf runs runId completedAt)

/-! ### What a closure counts -/

theorem total_append (a b : List (ObservationKind × ℕ)) : total (a ++ b) = total a+total b := by
  unfold total
  rw [List.map_append, List.sum_append]

/-- A count of zero is left out, which the sum does not see. -/
theorem total_noted (counts : List (ObservationKind × ℕ)) (kind : ObservationKind) (n : ℕ) :
    total (if n = 0 then counts else counts ++ [(kind,n)]) = total counts+n := by
  split
  · next h => rw [h, Nat.add_zero]
  · rw [total_append]
    rfl

/-- What two predicates that never agree count together. -/
theorem countP_apart {α : Type} {p q r : α → Bool} {l : List α}
    (h : ∀ a ∈ l, (p a = (q a || r a)) ∧ ¬ (q a = true ∧ r a = true)) :
    l.countP p = l.countP q+l.countP r := by
  induction l with
  | nil => rfl
  | cons a l ih =>
    obtain ⟨hp,hno⟩ := h a List.mem_cons_self
    rw [List.countP_cons, List.countP_cons, List.countP_cons,
      ih fun b hb => h b (List.mem_cons_of_mem a hb), hp]
    cases hq : q a with
    | true =>
      have hr : r a = false := Bool.eq_false_iff.mpr fun hr => hno ⟨hq,hr⟩
      rw [hr]
      simp only [Bool.or_false, if_true, Bool.false_eq_true, if_false]
      omega
    | false =>
      simp only [Bool.false_or, Bool.false_eq_true, if_false]
      omega

section Rules
variable {db : Database} {rules : List ClosureRule} {subtree : Option Selector} {runId : RunId}
  {scopeKey : String} {completedAt : Instant}

/-- One rule counts what it loses, present or not. -/
theorem closeRule_counts {kind : ObservationKind} {candidates : List String} {t' : Table}
    {counts : ℕ × ℕ} (h : closeRule db kind candidates runId completedAt = .ok (t',counts)) :
    counts.1 = db.versions.rows.countP (fun v =>
      decide (unobserved db kind candidates runId completedAt v) && v.isPresent) ∧
    counts.2 = db.versions.rows.countP (fun v =>
      decide (unobserved db kind candidates runId completedAt v) && !v.isPresent) := by
  rw [closeRule_split] at h
  obtain ⟨t1,-,h⟩ := bind_ok.mp h
  obtain ⟨t2,-,h⟩ := bind_ok.mp h
  obtain ⟨t3,-,h⟩ := bind_ok.mp h
  obtain rfl := (Prod.mk.inj (Except.ok.inj h)).2
  have hcount : ∀ q : ObjectVersion → Bool,
      ((unobservedOpenVersions db kind candidates runId completedAt).filter q).length =
        db.versions.rows.countP fun v =>
          decide (unobserved db kind candidates runId completedAt v) && q v := fun q => by
    unfold unobservedOpenVersions
    rw [← List.countP_eq_length_filter, (List.perm_insertionSort _ _).countP_eq, List.countP_filter]
    refine List.countP_congr fun v _ => ?_
    simp only [Bool.and_eq_true, decide_eq_true_eq, Bool.not_eq_true]
    exact ⟨fun h => ⟨h.2,h.1⟩,fun h => ⟨h.2,h.1⟩⟩
  refine ⟨hcount _,(hcount _).trans ?_⟩
  exact List.countP_congr fun v _ => by simp

/-- A rule leaves the count of the other kinds alone. -/
theorem closeRule_others_count {kind : ObservationKind} {candidates : List String} {t' : Table}
    {counts : ℕ × ℕ} (h : closeRule db kind candidates runId completedAt = .ok (t',counts))
    {p : ObjectVersion → Bool} (hp : ∀ v, v.kind = kind → p v = false) :
    t'.rows.countP p = db.versions.rows.countP p := by
  have hadded : (numberedFrom db.versions.nextId
      (tombstones db kind candidates runId completedAt)).countP p = 0 := by
    apply List.countP_eq_zero.mpr
    intro v hv
    obtain ⟨w,hw,m,-,rfl⟩ := mem_numberedFrom hv
    obtain ⟨x,hx,rfl⟩ := List.mem_map.mp hw
    rw [hp _ (show (numbered m (tombstone x completedAt runId)).kind = kind from
      (mem_lostPresent.mp hx).2.1.1)]
    exact Bool.false_ne_true
  rw [(closeRule_rows h).1, List.countP_append, hadded, Nat.add_zero, List.countP_map]
  refine List.countP_congr fun v _ => ?_
  show p (ruled db kind candidates runId completedAt v) = true ↔ p v = true
  by_cases hk : v.kind = kind
  · rw [hp v hk, hp _ ((kind_of_object (ruled_object _ _ _ _ _ v)).trans hk)]
  · rw [ruled_kind hk]

/-- The rules of a scope count what the scope loses. -/
theorem closeRules_counts {rest : List ClosureRule} {o o' : ClosureOutcome} {t t' : Table}
    (hn : (rest.map (·.kind)).Nodup)
    (h : closeRules db rules subtree runId scopeKey completedAt rest o t = .ok (t',o')) :
    total o'.closed = total o.closed+t.rows.countP (fun v =>
      lost db rules subtree runId scopeKey completedAt (rest.map (·.kind)) v && v.isPresent) ∧
    total o'.reaffirmed = total o.reaffirmed+t.rows.countP (fun v =>
      lost db rules subtree runId scopeKey completedAt (rest.map (·.kind)) v && !v.isPresent) := by
  induction rest generalizing t o with
  | nil =>
    obtain rfl : o = o' := (Prod.mk.inj (Except.ok.inj h)).2
    have hnone : ∀ v, lost db rules subtree runId scopeKey completedAt [] v = false := fun v => by
      rw [← Bool.not_eq_true, lost_iff]
      simp
    simp [hnone]
  | cons rule rest ih =>
    obtain ⟨hfresh,hn⟩ := List.nodup_cons.mp hn
    obtain ⟨⟨t1,c,r⟩,h1,h⟩ := bind_ok.mp h
    obtain ⟨hclosed,hreaffirmed⟩ := ih hn h
    obtain ⟨hc,hr⟩ := closeRule_counts h1
    -- what the later rules lose is of other kinds, so this rule does not change its number
    have hstep : ∀ q : ObjectVersion → Bool,
        t.rows.countP (fun v => lost db rules subtree runId scopeKey completedAt
          (rule.kind :: rest.map (·.kind)) v && q v) =
        t.rows.countP (fun v => decide (unobserved { db with versions := t } rule.kind
          (scopeCandidates db runId scopeKey rules subtree rules.length rule.kind) runId
          completedAt v) && q v) +
        t1.rows.countP (fun v =>
          lost db rules subtree runId scopeKey completedAt (rest.map (·.kind)) v && q v) := by
      intro q
      rw [closeRule_others_count h1 fun v hk => by rw [lost_fresh hk hfresh]; rfl]
      apply countP_apart
      intro v _
      by_cases hk : v.kind = rule.kind
      · have hhead : lost db rules subtree runId scopeKey completedAt
            (rule.kind :: rest.map (·.kind)) v = decide (unobserved { db with versions := t }
              rule.kind (scopeCandidates db runId scopeKey rules subtree rules.length rule.kind)
              runId completedAt v) := by
          rw [Bool.eq_iff_iff, decide_eq_true_eq]
          exact lost_head hk
        rw [lost_fresh hk hfresh, hhead]
        simp
      · have hno : ¬ unobserved { db with versions := t } rule.kind
            (scopeCandidates db runId scopeKey rules subtree rules.length rule.kind) runId
            completedAt v := fun hu => hk hu.1
        rw [lost_tail hk]
        simp [hno]
    rw [hclosed, hreaffirmed, total_noted, total_noted, List.map_cons, hstep, hstep]
    constructor
    · rw [show c = _ from hc]
      exact Nat.add_assoc ..
    · rw [show r = _ from hr]
      exact Nat.add_assoc ..

end Rules

section Scope
variable {casefold : String → String} {db : Database} {runId : RunId} {collector : CollectorKind}
  {scope : Scope} {completedAt : Instant}

/-- A closure counts the versions its scope loses: the present ones as closed, the
tombstones as reaffirmed. -/
theorem closeAbsent_counts {t' : Table} {o : ClosureOutcome}
    (h : closeAbsent casefold db runId collector scope.1 scope.2 completedAt = .ok (t',o)) :
    totalClosed o = db.versions.rows.countP (fun v =>
      lostToScope casefold db runId collector scope.1 scope.2 completedAt v && v.isPresent) ∧
    total o.reaffirmed = db.versions.rows.countP (fun v =>
      lostToScope casefold db runId collector scope.1 scope.2 completedAt v && !v.isPresent) := by
  have hnothing : (∀ v, lostToScope casefold db runId collector scope.1 scope.2 completedAt v =
      false) → ∀ q : ObjectVersion → Bool, db.versions.rows.countP (fun v =>
        lostToScope casefold db runId collector scope.1 scope.2 completedAt v && q v) = 0 :=
    fun hno q => by
      apply List.countP_eq_zero.mpr
      intro v _
      rw [hno v]
      exact Bool.false_ne_true
  obtain ⟨o',hclosed,hreaffirmed,hcases⟩ :=
    closeAbsent_cases casefold db runId collector scope.1 scope.2 completedAt
  rcases hcases with ⟨hb,ho⟩ | ⟨subtree,hb,⟨hr,ho⟩ | ho⟩
  · obtain rfl := (Prod.mk.inj (Except.ok.inj (ho.symm.trans h))).2
    have hno : ∀ v, lostToScope casefold db runId collector scope.1 scope.2 completedAt v =
        false := fun v => by simp [lostToScope, hb]
    rw [hnothing hno, hnothing hno, totalClosed, hclosed, hreaffirmed]
    exact ⟨rfl,rfl⟩
  · obtain rfl := (Prod.mk.inj (Except.ok.inj (ho.symm.trans h))).2
    have hno : ∀ v, lostToScope casefold db runId collector scope.1 scope.2 completedAt v =
        false := fun v => by
      simp only [lostToScope, hb, hr, List.map_nil]
      rw [← Bool.not_eq_true, lost_iff]
      simp
    rw [hnothing hno, hnothing hno, totalClosed, hclosed, hreaffirmed]
    exact ⟨rfl,rfl⟩
  · rw [ho] at h
    have hlost : ∀ v, lostToScope casefold db runId collector scope.1 scope.2 completedAt v =
        lost db (closureRulesFor collector scope.1) subtree runId scope.2 completedAt
          ((closureRulesFor collector scope.1).map (·.kind)) v := fun v => by
      simp [lostToScope, hb]
    obtain ⟨hc,hr⟩ := closeRules_counts (closureRules_kinds collector scope.1) h
    simp only [hlost]
    rw [totalClosed, hc, hr, hclosed, hreaffirmed]
    exact ⟨Nat.zero_add _,Nat.zero_add _⟩

end Scope

/-- An object has one open version, so open versions are counted by their objects. -/
theorem count_objects (t : Table) {p : ObjectVersion → Bool}
    (hopen : ∀ v ∈ t.rows, p v = true → v.isOpen = true) {s : Set Object}
    (hs : ∀ o, o ∈ s ↔ ∃ v, openVersion t o.1 o.2 = some v ∧ p v = true) :
    s.ncard = t.rows.countP p ∧ s.Finite := by
  have hnodup : ((t.rows.filter p).map ObjectVersion.object).Nodup := by
    apply List.pairwise_map.mpr
    refine ((List.Nodup.of_map _ t.ids_nodup).filter p).imp_of_mem fun {v w} hv hw hne hobj => ?_
    obtain ⟨hv,hpv⟩ := List.mem_filter.mp hv
    obtain ⟨hw,hpw⟩ := List.mem_filter.mp hw
    exact (t.compatible_of_ne hv hw hne hobj).2 ⟨hopen v hv hpv,hopen w hw hpw⟩
  have hset : s = (((t.rows.filter p).map ObjectVersion.object).toFinset : Set Object) := by
    ext o
    rw [hs, List.coe_toFinset, Set.mem_ofPred_eq, List.mem_map]
    constructor
    · rintro ⟨v,hv,hp⟩
      obtain ⟨hm,hobj,-⟩ := openVersion_some.mp hv
      exact ⟨v,List.mem_filter.mpr ⟨hm,hp⟩,hobj⟩
    · rintro ⟨v,hv,rfl⟩
      obtain ⟨hm,hp⟩ := List.mem_filter.mp hv
      exact ⟨v,openVersion_some.mpr ⟨hm,rfl,hopen v hm hp⟩,hp⟩
  constructor
  · rw [hset, Set.ncard_coe_finset, List.toFinset_card_of_nodup hnodup, List.length_map,
      List.countP_eq_length_filter]
  · rw [hset]
    exact Finset.finite_toSet _

/-! ### The objects that were meant -/

/-- A scope of a completion is closed, after the scopes before it. -/
structure ScopeClosing (casefold : String → String) (db : Database) (c : Completion)
    (earlier : List Scope) (scope : Scope) (mid : Database) (after : Table)
    (o : ClosureOutcome) : Prop where
  scopes : ∃ later, c.scopes = earlier ++ scope :: later
  reached : ∃ os, closeReconciled casefold c.runId c.collector c.completedAt earlier db =
    .ok (mid,os)
  closed : closeAbsent casefold mid c.runId c.collector scope.1 scope.2 c.completedAt =
    .ok (after,o)

section Objects
variable (casefold : String → String) (db : Database) (c : Completion) (scope : Scope)

/-- A scope covers the stored objects inside it, of the kinds its collector closes. -/
def Covers (o : Object) : Prop :=
  o.1 ∈ (closureRulesFor c.collector scope.1).map (·.kind) ∧ ∃ r, db.row o.1 o.2 = some r ∧
    Inside casefold (domainsObservedBy db c.runId) db scope o.1 (o.2,r)

/-- The objects a closure changes from present to tombstoned. -/
def removed (after : Table) : Set Object :=
  {o | Tombstoned db { db with versions := after } o.1 o.2}

/-- The objects that were tombstoned when the run started and that it observed. An
observation reports its object as present. -/
def returned (start : Database) : Set Object :=
  {o | Covers casefold db c scope o ∧ Hidden start.versions o.1 o.2 ∧
    db.observed c.runId o.1 o.2 = true}

/-- The tombstoned objects that the run looked for again and did not observe. -/
def stillRemoved : Set Object :=
  {o | Covers casefold db c scope o ∧ db.observed c.runId o.1 o.2 = false ∧
    ∃ v, openVersion db.versions o.1 o.2 = some v ∧ v.isPresent = false ∧
      v.lastSeenAt ≤ c.completedAt}

/-- A present object of the scope that nothing newer confirmed was observed. -/
def NothingLost : Prop :=
  ∀ o, Covers casefold db c scope o → db.observed c.runId o.1 o.2 = false →
    ∀ v, openVersion db.versions o.1 o.2 = some v → v.isPresent = true →
      ¬ v.lastSeenAt ≤ c.completedAt

end Objects

section Counts
variable {casefold : String → String} {db mid : Database} {c : Completion} {earlier : List Scope}
  {scope : Scope} {after : Table} {o : ClosureOutcome}

/-- A version is lost when its object is covered, unobserved and not newer. -/
theorem lost_covered {v : ObjectVersion} {object : Object}
    (hv : openVersion db.versions object.1 object.2 = some v) :
    lostToScope casefold db c.runId c.collector scope.1 scope.2 c.completedAt v = true ↔
      Covers casefold db c scope object ∧ db.observed c.runId object.1 object.2 = false ∧
        v.lastSeenAt ≤ c.completedAt := by
  obtain ⟨kind,key⟩ := object
  obtain ⟨-,hobj,hopen⟩ := openVersion_some.mp hv
  obtain ⟨rfl,rfl⟩ := Prod.mk.inj hobj
  rw [lostToScope_iff]
  constructor
  · rintro ⟨-,hle,hk,ho,hin⟩
    exact ⟨⟨hk,hin⟩,ho,hle⟩
  · rintro ⟨⟨hk,hin⟩,ho,hle⟩
    exact ⟨hopen,hle,hk,ho,hin⟩

theorem mem_removed
    (h : closeAbsent casefold db c.runId c.collector scope.1 scope.2 c.completedAt =
      .ok (after,o)) {object : Object} : object ∈ removed db after ↔
      ∃ v, openVersion db.versions object.1 object.2 = some v ∧
        (lostToScope casefold db c.runId c.collector scope.1 scope.2 c.completedAt v &&
          v.isPresent) = true := by
  show (_ ∧ Hidden after object.1 object.2) ↔ _
  rw [closeAbsent_hidden h]
  constructor
  · rintro ⟨⟨v,hv,hp⟩,w,hw,hlost⟩
    obtain rfl : v = w := Option.some.inj (hv.symm.trans hw)
    exact ⟨v,hv,Bool.and_eq_true_iff.mpr ⟨hlost.resolve_left (by simp [hp]),hp⟩⟩
  · rintro ⟨v,hv,hb⟩
    obtain ⟨hl,hp⟩ := Bool.and_eq_true_iff.mp hb
    exact ⟨⟨v,hv,hp⟩,v,hv,.inr hl⟩

theorem mem_stillRemoved {object : Object} : object ∈ stillRemoved casefold db c scope ↔
    ∃ v, openVersion db.versions object.1 object.2 = some v ∧
      (lostToScope casefold db c.runId c.collector scope.1 scope.2 c.completedAt v &&
        !v.isPresent) = true := by
  constructor
  · rintro ⟨hc,ho,v,hv,hp,hle⟩
    exact ⟨v,hv,Bool.and_eq_true_iff.mpr ⟨(lost_covered hv).mpr ⟨hc,ho,hle⟩,by rw [hp]; rfl⟩⟩
  · rintro ⟨v,hv,hb⟩
    obtain ⟨hl,hp⟩ := Bool.and_eq_true_iff.mp hb
    obtain ⟨hc,ho,hle⟩ := (lost_covered hv).mp hl
    exact ⟨hc,ho,v,hv,by simpa using hp,hle⟩

/-- What is marked absent was present and is tombstoned. What is called revived is
still removed. -/
theorem driftOf_counts (runs : List RunScope)
    (h : closeAbsent casefold db c.runId c.collector scope.1 scope.2 c.completedAt =
      .ok (after,o)) :
    (driftOf runs c.runId c.completedAt o).markedAbsent = (removed db after).ncard ∧
      (driftOf runs c.runId c.completedAt o).revived =
        (stillRemoved casefold db c scope).ncard := by
  obtain ⟨hclosed,hreaffirmed⟩ := closeAbsent_counts h
  have hopen : ∀ (q : ObjectVersion → Bool), ∀ v ∈ db.versions.rows,
      (lostToScope casefold db c.runId c.collector scope.1 scope.2 c.completedAt v && q v) =
        true → v.isOpen = true := fun q v _ hb =>
    (lostToScope_iff.mp (Bool.and_eq_true_iff.mp hb).1).1
  constructor
  · rw [(count_objects db.versions (hopen _) fun _ => mem_removed h).1]
    exact hclosed
  · rw [(count_objects db.versions (hopen _) fun _ => mem_stillRemoved).1]
    exact hreaffirmed

theorem stillRemoved_finite : (stillRemoved casefold db c scope).Finite := by
  refine (count_objects db.versions (fun v _ hb => ?_) fun _ => mem_stillRemoved).2
  exact (lostToScope_iff.mp (Bool.and_eq_true_iff.mp hb).1).1

/-- Where nothing present is lost, a drift is clean when nothing is still removed. -/
theorem clean_iff (runs : List RunScope)
    (h : closeAbsent casefold db c.runId c.collector scope.1 scope.2 c.completedAt =
      .ok (after,o)) (hkept : NothingLost casefold db c scope) :
    (driftOf runs c.runId c.completedAt o).isClean = true ↔
      stillRemoved casefold db c scope = ∅ := by
  obtain ⟨habsent,hrevived⟩ := driftOf_counts runs h
  have hnone : removed db after = ∅ := by
    ext object
    refine iff_of_false (fun hm => ?_) (Set.notMem_empty object)
    obtain ⟨v,hv,hb⟩ := (mem_removed h).mp hm
    obtain ⟨hl,hp⟩ := Bool.and_eq_true_iff.mp hb
    obtain ⟨hc,ho,hle⟩ := (lost_covered hv).mp hl
    exact hkept object hc ho v hv hp hle
  rw [← Set.ncard_eq_zero stillRemoved_finite]
  unfold ReconciliationDrift.isClean ReconciliationDrift.drift
  rw [habsent, hrevived, hnone, Set.ncard_empty, Nat.zero_add, decide_eq_true_eq]

/-- The scopes before and after a scope, and what it reports itself. -/
theorem closeReconciled_at {db' : Database} {os : List ClosureOutcome}
    (h : closeReconciled casefold c.runId c.collector c.completedAt c.scopes db = .ok (db',os))
    (hs : ScopeClosing casefold db c earlier scope mid after o) : os[earlier.length]? = some o := by
  obtain ⟨⟨later,hscopes⟩,⟨before,hreached⟩,hclosed⟩ := hs
  rw [hscopes] at h
  clear hscopes
  induction earlier generalizing db os before with
  | nil =>
    obtain rfl : db = mid := (Prod.mk.inj (Except.ok.inj hreached)).1
    obtain ⟨⟨t1,o1⟩,h1,h⟩ := bind_ok.mp h
    obtain ⟨⟨db2,os2⟩,-,h⟩ := bind_ok.mp h
    obtain rfl := (Prod.mk.inj (Except.ok.inj h)).2
    obtain rfl : o1 = o := (Prod.mk.inj (Except.ok.inj (h1.symm.trans hclosed))).2
    rfl
  | cons first earlier ih =>
    obtain ⟨⟨t1,o1⟩,h1,h⟩ := bind_ok.mp h
    obtain ⟨⟨db2,os2⟩,h2,h⟩ := bind_ok.mp h
    obtain ⟨rfl,rfl⟩ := Prod.mk.inj (Except.ok.inj h)
    obtain ⟨⟨t1',o1'⟩,h1',hreached⟩ := bind_ok.mp hreached
    obtain ⟨⟨db3,os3⟩,h3,hreached⟩ := bind_ok.mp hreached
    obtain rfl : db3 = mid := (Prod.mk.inj (Except.ok.inj hreached)).1
    obtain ⟨rfl,-⟩ := Prod.mk.inj (Except.ok.inj (h1.symm.trans h1'))
    exact ih h2 os3 h3

/-- The drift of a completion has one entry a scope, in their order. -/
theorem drift_reported (runs : List RunScope) {db' : Database} {os : List ClosureOutcome}
    (h : closeReconciled casefold c.runId c.collector c.completedAt c.scopes db = .ok (db',os))
    (hs : ScopeClosing casefold db c earlier scope mid after o) :
    (recordDrift runs c.runId os c.completedAt)[earlier.length]? =
      some (driftOf runs c.runId c.completedAt o) := by
  unfold recordDrift
  rw [List.getElem?_map, closeReconciled_at h hs]
  rfl

end Counts

/-! ### Every completion of a history -/

def sentBy : Transaction → RunId
  | .batch b => b.runId
  | .completion c => c.runId

section Histories
variable (hash : State → String) (casefold : String → String)

/-- The scope was reconciled before, by a run that observed the same of its objects,
and nothing present in it has been lost to view since. -/
structure Repeats (xs : List Transaction) (db : Database) (c : Completion) (scope : Scope) :
    Prop where
  previous : ∃ before c' between, xs = before ++ .completion c' :: between ∧
    (∃ db', (Transaction.completion c').write hash casefold
      (commitAll hash casefold Database.blank before) = .ok db') ∧
    scope ∈ c'.scopes ∧ c'.collector = c.collector ∧
    (∀ c'', .completion c'' ∈ between → scope ∉ c''.scopes) ∧
    ∀ o, Covers casefold db c scope o → db.observed c'.runId o.1 o.2 = db.observed c.runId o.1 o.2
  kept : NothingLost casefold db c scope

/-- A completion reports a drift for a scope it closes. -/
structure Reported (runs : List RunScope) (db : Database) (c : Completion) (scope : Scope)
    (mid : Database) (after : Table) (d : ReconciliationDrift) : Prop where
  reported : ∃ earlier o db' os, ScopeClosing casefold db c earlier scope mid after o ∧
    closeReconciled casefold c.runId c.collector c.completedAt c.scopes db = .ok (db',os) ∧
    (recordDrift runs c.runId os c.completedAt)[earlier.length]? = some d

/-- A completion of a history, where the run had sent nothing when it started. -/
structure Completed (xs start during : List Transaction) (c : Completion) : Prop where
  history : ∃ rest, xs = start ++ during ++ .completion c :: rest
  unsent : ∀ x ∈ start, sentBy x ≠ c.runId

/-- Every drift of the history counts the presence corrections, and a repetition
reports none. -/
def DriftCounted (runs : List RunScope) (xs : List Transaction) : Prop :=
  ∀ start during c, Completed xs start during c → ∀ scope mid after d,
    Reported casefold runs (commitAll hash casefold Database.blank (start ++ during)) c scope mid after d →
      d.markedAbsent = (removed mid after).ncard ∧
      d.revived = (returned casefold mid c scope (commitAll hash casefold Database.blank start)).ncard ∧
      (Repeats hash casefold (start ++ during) mid c scope → d.isClean = true)

/-- In every scope that is reconciled as many objects came back as are still removed,
and none is where the scope is reconciled again. -/
def RemovalsMatched (runs : List RunScope) (xs : List Transaction) : Prop :=
  ∀ start during c, Completed xs start during c → ∀ scope mid after d,
    Reported casefold runs (commitAll hash casefold Database.blank (start ++ during)) c scope mid after d →
      (stillRemoved casefold mid c scope).ncard =
        (returned casefold mid c scope (commitAll hash casefold Database.blank start)).ncard ∧
      (Repeats hash casefold (start ++ during) mid c scope →
        stillRemoved casefold mid c scope = ∅)

end Histories

/-- In every history the drifts are right exactly when the removals match. -/
theorem drift_counted_iff (hash : State → String) (casefold : String → String)
    (runs : List RunScope) (xs : List Transaction) :
    DriftCounted hash casefold runs xs ↔ RemovalsMatched hash casefold runs xs := by
  apply forall₄_congr
  intro start during c _
  apply forall₅_congr
  rintro scope mid after d ⟨earlier,o,db',os,hs,h,hd⟩
  obtain rfl := Option.some.inj ((drift_reported runs h hs).symm.trans hd)
  obtain ⟨habsent,hrevived⟩ := driftOf_counts runs hs.closed
  rw [habsent, hrevived]
  constructor
  · rintro ⟨-,hcount,hclean⟩
    exact ⟨hcount,fun hr => (clean_iff runs hs.closed hr.kept).mp (hclean hr)⟩
  · rintro ⟨hcount,hnone⟩
    exact ⟨rfl,hcount,fun hr => (clean_iff runs hs.closed hr.kept).mpr (hnone hr)⟩

/-- A folder is seen once and then no more. The scope is reconciled twice. -/
def goneTwice : List Transaction :=
  [.batch ⟨"r1","b1",[Reconciliation.Sample.folder "r1" 1],[]⟩, .completion (Reconciliation.Sample.treeScan "r2" 5),
    .completion (Reconciliation.Sample.treeScan "r3" 6)]

/-- The second reconciliation of a removed folder reports it as revived. -/
theorem still_removed_revived : ¬ DriftCounted Reconciliation.Sample.digest id [] goneTwice := by
  intro hcounted
  set db := commitAll Reconciliation.Sample.digest id Database.blank (goneTwice.take 2) with hdb
  have hcount : (closeReconciled id "r3" .ntfs 6 [(.directoryTree,Reconciliation.Sample.treeKey)] db).map
      (fun r => (recordDrift [] "r3" r.2 6).map (·.revived)) = .ok [1] := by
    rw [hdb]
    decide +kernel
  obtain ⟨⟨db',os⟩,h,hrevived⟩ := map_ok.mp hcount
  obtain ⟨⟨t,o⟩,hclosed,hrest⟩ := bind_ok.mp h
  obtain rfl : [o] = os := (Prod.mk.inj (Except.ok.inj hrest)).2
  have hone := (hcounted (goneTwice.take 2) [] (Reconciliation.Sample.treeScan "r3" 6)
    ⟨⟨[],rfl⟩,by decide⟩ (.directoryTree,Reconciliation.Sample.treeKey) db t
    (driftOf [] "r3" 6 o) ⟨[],o,db',[o],⟨⟨[],rfl⟩,⟨[],rfl⟩,hclosed⟩,h,rfl⟩).2.1
  have hnone : returned id db (Reconciliation.Sample.treeScan "r3" 6) (.directoryTree,Reconciliation.Sample.treeKey) db = ∅ := by
    ext object
    refine iff_of_false (fun hm => ?_) (Set.notMem_empty object)
    have hunseen : db.observations.entries.all (fun e => e.1.1 ≠ "r3") = true := by
      rw [hdb]
      decide +kernel
    obtain ⟨e,he,hrun⟩ := List.any_eq_true.mp hm.2.2
    have hne := List.all_eq_true.mp hunseen e he
    exact of_decide_eq_true hne (of_decide_eq_true hrun).1
  rw [show commitAll Reconciliation.Sample.digest id Database.blank (goneTwice.take 2) = db from rfl, hnone,
    Set.ncard_empty] at hone
  have hrev : (driftOf [] "r3" 6 o).revived = 1 := (List.cons.inj hrevived).1
  rw [hrev] at hone
  cases hone

end Adg.PresenceDrift
