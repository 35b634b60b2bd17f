import Adg.ChangeFeed
import Adg.HistoryRetention

/-!
# The version before a version

A page of changes asks for the predecessors of its versions together, the history
of one object reads them off its timeline, and an impact report looks one up in
that timeline. The three agree on the newest version that started earlier while
timelines are in order and no longer than what is read of them, and a page holds
one version at most of an object that nothing ended for.
-/

set_option autoImplicit false

namespace Adg.VersionPredecessors
open Adg.Intervals Adg.ObjectVersions Adg.VersionTable Adg.SortedLists Adg.Timelines Adg.ChangeClassification
open Adg.ChangeReads Adg.ChangeFeed Adg.HistoryRetention

/-- `MAX_TIMELINE_VERSIONS`. -/
def maxTimelineVersions : ℕ := 500

/-- `VersionReader.timeline`, and whether it was cut. -/
def timeline (t : Table) (object : Object) (limit : ℕ) :
    Except TemporalInvariantError (ObjectTimeline × Bool) := do
  let rows := (timelineOf t object).take (limit+1)
  let read ← ObjectTimeline.build object (rows.take limit)
  return (read,decide (limit < rows.length))

/-- `ObjectTimeline.changes`. -/
def changes (versions : List ObjectVersion) :
    List (ObjectVersion × ObjectVersion × ChangeWindow) :=
  (versions.zip versions.tail).map fun p => (p.1,p.2,⟨p.1.lastSeenAt,p.2.validFrom⟩)

/-- `object_changes`, and whether the timeline was cut. -/
def objectChanges (sha256 : String → String) (t : Table) (object : Object) (limit : Option ℕ) :
    Except TemporalInvariantError (List ObjectChange × Bool) := do
  let (read,truncated) ← timeline t object (limit.getD maxTimelineVersions)
  let pairs := (changes read.versions).map fun p => (some p.1,p.2.1)
  return ((classifyTwice sha256 t pairs fun _ => {}).reverse,truncated)

/-- `_predecessor`, behind the version that was passed last. -/
def predecessorIn : Option ObjectVersion → List ObjectVersion → ObjectVersion →
    Option ObjectVersion
  | _, [], _ => none
  | previous, v :: vs, target =>
    if v.validFrom = target.validFrom then previous else predecessorIn (some v) vs target

/-- The version an impact report compares with. -/
def impactBefore (t : Table) (after : ObjectVersion) :
    Except TemporalInvariantError (Option ObjectVersion) := do
  let (read,_) ← timeline t after.object maxTimelineVersions
  return predecessorIn none read.versions after

/-- The version an object's history names before one of its versions. -/
def historyBefore (sha256 : String → String) (t : Table) (after : ObjectVersion) :
    Except TemporalInvariantError (Option ObjectVersion) := do
  let (found,_) ← objectChanges sha256 t after.object none
  return (found.find? fun c => c.after = after).bind (·.before)

/-- The version of an object that starts last before an instant. -/
def newestBelow (t : Table) (object : Object) (moment : Instant) : Option ObjectVersion :=
  (sortedBy (·.validFrom)
    (t.rows.filter fun w => w.object = object && w.validFrom < moment)).getLast?

/-- Some version of the object ended where this one begins. -/
def Met (t : Table) (v : ObjectVersion) : Prop :=
  ∃ p ∈ t.rows, p.object = v.object ∧ p.validTo = some v.validFrom

/-! ### The newest version below -/

section Newest
variable {t : Table} {object : Object} {moment : Instant} {p v : ObjectVersion}

/-- The last of a sorted list is an element that none comes after. -/
theorem last_sorted {l : List ObjectVersion}
    (hkeys : ∀ a ∈ l, ∀ b ∈ l, a.validFrom = b.validFrom → a = b) :
    (sortedBy (·.validFrom) l).getLast? = some p ↔
      p ∈ l ∧ ∀ u ∈ l, u.validFrom ≤ p.validFrom := by
  have hlast : ∀ q, (sortedBy (·.validFrom) l).getLast? = some q →
      q ∈ l ∧ ∀ u ∈ l, u.validFrom ≤ q.validFrom := by
    intro q hq
    obtain ⟨front,hfront⟩ := List.getLast?_eq_some_iff.mp hq
    have hsorted := sortedBy_ordered (·.validFrom) l
    rw [hfront] at hsorted
    refine ⟨(mem_sortedBy (·.validFrom)).mp (List.mem_of_getLast? hq),?_⟩
    intro u hu
    have hin := (mem_sortedBy (·.validFrom)).mpr hu
    rw [hfront] at hin
    rcases List.mem_append.mp hin with hin | hin
    · exact (List.pairwise_append.mp hsorted).2.2 u hin q (List.mem_singleton_self q)
    · rw [List.mem_singleton.mp hin]
  constructor
  · exact hlast p
  · rintro ⟨hp,hbelow⟩
    cases hq : (sortedBy (·.validFrom) l).getLast? with
    | none =>
      have hnil := List.getLast?_eq_none_iff.mp hq
      have hin := (mem_sortedBy (·.validFrom)).mpr hp
      rw [hnil] at hin
      cases hin
    | some q =>
      obtain ⟨hin,habove⟩ := hlast q hq
      rw [hkeys q hin p hp (le_antisymm (hbelow q hin) (habove p hp))]

/-- Rows of one object start at different instants. -/
theorem same_start {v w : ObjectVersion} (hv : v ∈ t.rows) (hw : w ∈ t.rows)
    (hobj : v.object = w.object) (hstart : v.validFrom = w.validFrom) : v = w := by
  by_contra hne
  exact (t.compatible_of_ne hv hw hne hobj).1 hstart

theorem newestBelow_iff : newestBelow t object moment = some p ↔
    p ∈ t.rows ∧ p.object = object ∧ p.validFrom < moment ∧
      ∀ u ∈ t.rows, u.object = object → u.validFrom < moment → u.validFrom ≤ p.validFrom := by
  unfold newestBelow
  rw [last_sorted]
  · simp only [List.mem_filter, Bool.and_eq_true, decide_eq_true_eq]
    constructor
    · rintro ⟨⟨hp,hobj,hlt⟩,hbelow⟩
      exact ⟨hp,hobj,hlt,fun u hu huo hul => hbelow u ⟨hu,huo,hul⟩⟩
    · rintro ⟨hp,hobj,hlt,hbelow⟩
      exact ⟨⟨hp,hobj,hlt⟩,fun u hu => hbelow u hu.1 hu.2.1 hu.2.2⟩
  · intro a ha b hb hstart
    simp only [List.mem_filter, Bool.and_eq_true, decide_eq_true_eq] at ha hb
    exact same_start ha.1 hb.1 (ha.2.1.trans hb.2.1.symm) hstart

theorem newestBelow_none : newestBelow t object moment = none ↔
    ∀ u ∈ t.rows, u.object = object → ¬ u.validFrom < moment := by
  unfold newestBelow
  rw [List.getLast?_eq_none_iff, ← List.length_eq_zero_iff, sortedBy_length,
    List.length_eq_zero_iff, List.filter_eq_nil_iff]
  simp only [Bool.and_eq_true, decide_eq_true_eq, not_and]

/-- The order of the rows does not matter. -/
theorem newestBelow_perm {t' : Table} (hp : t'.rows.Perm t.rows) :
    newestBelow t' object moment = newestBelow t object moment := by
  cases h : newestBelow t object moment with
  | none =>
    apply newestBelow_none.mpr
    intro u hu
    exact newestBelow_none.mp h u (hp.mem_iff.mp hu)
  | some p =>
    obtain ⟨hin,hobj,hlt,hbelow⟩ := newestBelow_iff.mp h
    apply newestBelow_iff.mpr
    exact ⟨hp.mem_iff.mpr hin,hobj,hlt,fun u hu => hbelow u (hp.mem_iff.mp hu)⟩

/-- The newest version below a version is the one it follows. -/
theorem newestBelow_follows (hv : v ∈ t.rows) :
    newestBelow t v.object v.validFrom = some p ↔ Follows t p v := by
  rw [newestBelow_iff]
  constructor
  · rintro ⟨hp,hobj,hlt,hbelow⟩
    obtain ⟨w,hw,hle⟩ := follows_of_later hp hv hobj.symm hlt
    obtain ⟨-,hwrow,hwobj⟩ := hw.mem
    rcases lt_or_eq_of_le hle with hearlier | hsame
    · have := hbelow w hwrow (hwobj.trans hobj) hearlier
      exact absurd hw.next.1 (not_lt.mpr this)
    · rwa [same_start hwrow hv (hwobj.trans hobj) hsame] at hw
  · intro hf
    obtain ⟨hp,-,hobj⟩ := hf.mem
    obtain ⟨hlt,hnext⟩ := hf.next
    refine ⟨hp,hobj.symm,hlt,?_⟩
    intro u hu huo hul
    by_contra habove
    rcases hnext u hu (huo.trans hobj) (not_le.mp habove) with rfl | hafter
    · exact lt_irrefl _ hul
    · exact lt_asymm hul hafter

end Newest

/-! ### What a page pairs -/

section Pages
variable {t : Table} {v : ObjectVersion}

theorem adjacent_row {p : ObjectVersion} (h : adjacent t v = some p) :
    p ∈ t.rows ∧ p.object = v.object ∧ p.validTo = some v.validFrom := by
  obtain ⟨hrow,hp⟩ := List.mem_filter.mp (List.mem_of_getLast? h)
  exact ⟨hrow,of_decide_eq_true hp⟩

theorem adjacent_none : adjacent t v = none ↔ ¬ Met t v := by
  unfold adjacent Met
  rw [List.getLast?_eq_none_iff, List.filter_eq_nil_iff]
  simp only [decide_eq_true_eq]
  constructor
  · rintro h ⟨p,hp,hends⟩
    exact h p hp hends
  · intro h p hp hends
    exact h ⟨p,hp,hends⟩

/-- Among the versions that are asked about together the shared bound is a version's own
exactly when it starts last, or nothing starts before it. -/
theorem latestBefore_iff {outstanding : List ObjectVersion} (hv : v ∈ t.rows)
    (hin : v ∈ outstanding) :
    latestBefore t outstanding v = newestBelow t v.object v.validFrom ↔
      ∀ w ∈ outstanding, w.object = v.object → v.validFrom < w.validFrom →
        ∀ u ∈ t.rows, u.object = v.object → ¬ u.validFrom < v.validFrom := by
  have hkeys : ∀ a ∈ t.rows.filter (fun w => w.object = v.object &&
      outstanding.any fun u => u.object = w.object && w.validFrom < u.validFrom),
      ∀ b ∈ t.rows.filter (fun w => w.object = v.object &&
        outstanding.any fun u => u.object = w.object && w.validFrom < u.validFrom),
      a.validFrom = b.validFrom → a = b := by
    intro a ha b hb hstart
    obtain ⟨ha,hao⟩ := List.mem_filter.mp ha
    obtain ⟨hb,hbo⟩ := List.mem_filter.mp hb
    simp only [Bool.and_eq_true, decide_eq_true_eq] at hao hbo
    exact same_start ha hb (hao.1.trans hbo.1.symm) hstart
  have holder : ∀ p, latestBefore t outstanding v = some p ↔
      (p ∈ t.rows ∧ p.object = v.object ∧
        ∃ u ∈ outstanding, u.object = p.object ∧ p.validFrom < u.validFrom) ∧
      (∀ q ∈ t.rows, q.object = v.object →
        (∃ u ∈ outstanding, u.object = q.object ∧ q.validFrom < u.validFrom) →
        q.validFrom ≤ p.validFrom) ∧ p.validFrom < v.validFrom := by
    intro p
    unfold latestBefore
    rw [Option.filter_eq_some_iff, last_sorted hkeys]
    simp only [List.mem_filter, Bool.and_eq_true, decide_eq_true_eq, List.any_eq_true, and_imp,
      and_assoc]
  constructor
  · intro heq w hw hobj hlater u hu huo hearlier
    cases hnew : newestBelow t v.object v.validFrom with
    | none => exact newestBelow_none.mp hnew u hu huo hearlier
    | some p =>
      obtain ⟨-,hnewest,hlt⟩ := (holder p).mp (heq.trans hnew)
      exact absurd hlt (not_lt.mpr (hnewest v hv rfl ⟨w,hw,hobj,hlater⟩))
  · intro halone
    cases hnew : newestBelow t v.object v.validFrom with
    | none =>
      cases hlate : latestBefore t outstanding v with
      | none => rfl
      | some p =>
        obtain ⟨⟨hp,hobj,-⟩,-,hlt⟩ := (holder p).mp hlate
        exact absurd hlt (newestBelow_none.mp hnew p hp hobj)
    | some p =>
      obtain ⟨hp,hobj,hlt,hbelow⟩ := newestBelow_iff.mp hnew
      apply (holder p).mpr
      refine ⟨⟨hp,hobj,v,hin,hobj.symm,hlt⟩,?_,hlt⟩
      rintro q hq hqo ⟨w,hw,hwo,hqw⟩
      apply hbelow q hq hqo
      by_contra hlate
      have hlater : v.validFrom < w.validFrom := lt_of_le_of_lt (not_lt.mp hlate) hqw
      exact halone w hw (hwo.trans hqo) hlater p hp hobj hlt

/-- The rows in another order. -/
theorem exists_arranged {rows : List ObjectVersion} (h : rows.Perm t.rows) :
    ∃ t' : Table, t'.rows = rows := by
  have hsymm : ∀ {a b : ObjectVersion}, Compatible a b → Compatible b a := fun hc => hc.symm
  exact ⟨{
    rows := rows
    nextId := t.nextId
    ids_fresh := fun v hv => t.ids_fresh v (h.mem_iff.mp hv)
    ids_nodup := (h.map _).nodup_iff.mpr t.ids_nodup
    checked := fun v hv => t.checked v (h.mem_iff.mp hv)
    compatible := h.symm.pairwise t.compatible hsymm },rfl⟩

theorem met_perm {t' : Table} (hp : t'.rows.Perm t.rows) : Met t' v ↔ Met t v := by
  simp only [Met, hp.mem_iff]

theorem mem_outstanding {page : List ObjectVersion} :
    v ∈ page.filter (fun u => (adjacent t u).isNone) ↔ v ∈ page ∧ ¬ Met t v := by
  rw [List.mem_filter, Option.isNone_iff_eq_none, adjacent_none]

/-- A row that ends where a version begins is found first when it comes last. -/
theorem exists_adjacent {p : ObjectVersion} (hp : p ∈ t.rows) (hobj : p.object = v.object)
    (hends : p.validTo = some v.validFrom) :
    ∃ t' : Table, t'.rows.Perm t.rows ∧ adjacent t' v = some p := by
  obtain ⟨front,rest,hrows⟩ := List.append_of_mem hp
  have hperm : ((front ++ rest) ++ [p]).Perm t.rows := by
    rw [hrows, List.append_assoc]
    exact (List.perm_append_singleton p rest).append_left front
  obtain ⟨t',ht'⟩ := exists_arranged hperm
  refine ⟨t',by rw [ht']; exact hperm,?_⟩
  unfold adjacent
  have hkept : [p].filter (fun w => w.object = v.object ∧ w.validTo = some v.validFrom) = [p] :=
    List.filter_cons_of_pos (decide_eq_true ⟨hobj,hends⟩)
  rw [ht', List.filter_append, hkept]
  exact List.getLast?_concat

/-- Nothing of the object starts between a version and one that comes later. -/
def Neighbours (t : Table) (p v : ObjectVersion) : Prop :=
  p.validFrom < v.validFrom ∧ ∀ u ∈ t.rows, u.object = v.object →
    ¬ (p.validFrom < u.validFrom ∧ u.validFrom < v.validFrom)

theorem newestBelow_neighbours {p : ObjectVersion} (hp : p ∈ t.rows)
    (hobj : p.object = v.object) :
    newestBelow t v.object v.validFrom = some p ↔ Neighbours t p v := by
  rw [newestBelow_iff]
  constructor
  · rintro ⟨-,-,hlt,hbelow⟩
    exact ⟨hlt,fun u hu huo hbetween => not_lt.mpr (hbelow u hu huo hbetween.2) hbetween.1⟩
  · rintro ⟨hlt,hnone⟩
    refine ⟨hp,hobj,hlt,?_⟩
    intro u hu huo hul
    by_contra habove
    exact hnone u hu huo ⟨not_le.mp habove,hul⟩

/-- A page pairs its versions rightly, whatever order the rows are read in, exactly when a
version that ends where one of them begins is its neighbour, and of the ones nothing ends
for only the last of an object has anything before it. -/
theorem paired_iff {page : List ObjectVersion} (hpage : ∀ v ∈ page, v ∈ t.rows) :
    (∀ t' : Table, t'.rows.Perm t.rows → ∀ v ∈ page,
      predecessor t' page v = newestBelow t v.object v.validFrom) ↔
    (∀ v ∈ page, ∀ p ∈ t.rows, p.object = v.object → p.validTo = some v.validFrom →
      Neighbours t p v) ∧
    ∀ v ∈ page, ∀ w ∈ page, w.object = v.object → v.validFrom < w.validFrom →
      ¬ Met t v → ¬ Met t w → ∀ u ∈ t.rows, u.object = v.object → ¬ u.validFrom < v.validFrom := by
  constructor
  · intro hpaired
    constructor
    · intro v hv p hp hobj hends
      obtain ⟨t',hperm,hadj⟩ := exists_adjacent hp hobj hends
      apply (newestBelow_neighbours hp hobj).mp
      rw [← hpaired t' hperm v hv, predecessor, hadj]
      rfl
    · intro v hv w hw hobj hlater hvm hwm
      have hone := hpaired t (List.Perm.refl _) v hv
      rw [predecessor, adjacent_none.mpr hvm, Option.none_or] at hone
      exact (latestBefore_iff (hpage v hv) (mem_outstanding.mpr ⟨hv,hvm⟩)).mp hone w
        (mem_outstanding.mpr ⟨hw,hwm⟩) hobj hlater
  · rintro ⟨hends,halone⟩ t' hperm v hv
    rw [predecessor]
    cases hadj : adjacent t' v with
    | some p =>
      obtain ⟨hp,hobj,hto⟩ := adjacent_row hadj
      have hrow := hperm.mem_iff.mp hp
      rw [Option.some_or]
      exact ((newestBelow_neighbours hrow hobj).mpr (hends v hv p hrow hobj hto)).symm
    | none =>
      have hvm := adjacent_none.mp hadj
      rw [Option.none_or, ← newestBelow_perm hperm]
      apply (latestBefore_iff (hperm.mem_iff.mpr (hpage v hv))
        (mem_outstanding.mpr ⟨hv,hvm⟩)).mpr
      intro w hw hobj hlater u hu
      obtain ⟨hw,hwm⟩ := mem_outstanding.mp hw
      rw [met_perm hperm] at hvm hwm
      exact halone v hv w hw hobj hlater hvm hwm u (hperm.mem_iff.mp hu)

end Pages

/-! ### What the readers of a timeline pair -/

section Readers
variable {sha256 : String → String} {t : Table} {v : ObjectVersion}

theorem build_ok {object : Object} {versions : List ObjectVersion}
    (h : checkTimeline object none versions = .ok ()) :
    ∃ read, ObjectTimeline.build object versions = .ok read ∧ read.versions = versions := by
  unfold ObjectTimeline.build
  split
  next hok => exact ⟨_,rfl,rfl⟩
  next e he =>
    rw [h] at he
    cases he

theorem build_error {object : Object} {versions : List ObjectVersion}
    {e : TemporalInvariantError} (h : checkTimeline object none versions = .error e) :
    ObjectTimeline.build object versions = .error e := by
  unfold ObjectTimeline.build
  split
  next hok =>
    rw [h] at hok
    cases hok
  next e' he =>
    rw [h] at he
    rw [Except.error.inj he]

theorem timeline_ok {object : Object} {n : ℕ}
    (h : checkTimeline object none ((timelineOf t object).take n) = .ok ()) :
    ∃ read cut, timeline t object n = .ok (read,cut) ∧
      read.versions = (timelineOf t object).take n := by
  obtain ⟨read,hread,hversions⟩ := build_ok h
  refine ⟨read,decide (n < ((timelineOf t object).take (n+1)).length),?_,hversions⟩
  unfold timeline
  simp only [List.take_take, Nat.min_eq_left (Nat.le_succ n), hread]
  rfl

theorem timeline_error {object : Object} {n : ℕ} {e : TemporalInvariantError}
    (h : checkTimeline object none ((timelineOf t object).take n) = .error e) :
    timeline t object n = .error e := by
  unfold timeline
  simp only [List.take_take, Nat.min_eq_left (Nat.le_succ n), build_error h]
  rfl

/-- The transitions of a timeline are its neighbours. -/
theorem mem_changes {l : List ObjectVersion} {p : ObjectVersion} :
    (∃ w, (p,v,w) ∈ changes l) ↔ ∃ front rest, l = front ++ p :: v :: rest := by
  induction l with
  | nil => simp [changes]
  | cons a l ih =>
    cases l with
    | nil =>
      constructor
      · rintro ⟨w,hw⟩
        cases hw
      · rintro ⟨front,rest,hl⟩
        have hlength := congrArg List.length hl
        simp only [List.length_cons, List.length_nil, List.length_append] at hlength
        omega
    | cons b l =>
      have hstep : changes (a :: b :: l) = (a,b,⟨a.lastSeenAt,b.validFrom⟩) :: changes (b :: l) :=
        rfl
      rw [hstep]
      constructor
      · rintro ⟨w,hw⟩
        rcases List.mem_cons.mp hw with heq | hin
        · obtain ⟨rfl,rfl,-⟩ : p = a ∧ v = b ∧ _ := by simpa using heq
          exact ⟨[],l,rfl⟩
        · obtain ⟨front,rest,hl⟩ := ih.mp ⟨w,hin⟩
          exact ⟨a :: front,rest,by rw [hl]; rfl⟩
      · rintro ⟨front,rest,hl⟩
        cases front with
        | nil =>
          obtain ⟨rfl,rfl,-⟩ : a = p ∧ b = v ∧ _ := by simpa using hl
          exact ⟨_,List.mem_cons_self⟩
        | cons c front =>
          obtain ⟨w,hw⟩ := ih.mpr ⟨front,rest,(List.cons.inj hl).2⟩
          exact ⟨w,List.mem_cons_of_mem _ hw⟩

/-- The two passes keep the pairs. -/
theorem classifyTwice_parts {pairs : List (Option ObjectVersion × ObjectVersion)}
    {surroundings : Option ObjectVersion × ObjectVersion → Surroundings} :
    (classifyTwice sha256 t pairs surroundings).map (fun c => (c.before,c.after)) = pairs := by
  simp only [classifyTwice]
  split_ifs
  · rw [List.map_map]
    exact List.map_id pairs
  · rw [List.map_map]
    exact List.map_id pairs

/-- The transitions of a timeline, as a history pairs them. -/
def told (sha256 : String → String) (t : Table) (versions : List ObjectVersion) :
    List ObjectChange :=
  (classifyTwice sha256 t ((changes versions).map fun p => (some p.1,p.2.1)) fun _ => {}).reverse

/-- A history names a version's neighbour, when it reaches to the version. -/
theorem named_before {l : List ObjectVersion} {answer : Option ObjectVersion}
    (h : ∀ p, (∃ front rest, l = front ++ p :: v :: rest) ↔ answer = some p) :
    (((told sha256 t l).find? fun c => c.after = v).bind (·.before)) = answer := by
  unfold told
  set found := classifyTwice sha256 t ((changes l).map fun p => (some p.1,p.2.1)) fun _ => {}
    with hfound
  have hparts : found.map (fun c => (c.before,c.after)) =
      (changes l).map fun p => (some p.1,p.2.1) := classifyTwice_parts
  cases hfind : found.reverse.find? fun c => c.after = v with
  | some c =>
    have hafter : c.after = v := by simpa using List.find?_some hfind
    have hin : (c.before,c.after) ∈ found.map fun c => (c.before,c.after) :=
      List.mem_map_of_mem (List.mem_reverse.mp (List.mem_of_find?_eq_some hfind))
    rw [hparts, hafter] at hin
    obtain ⟨⟨p,u,w⟩,hp,hpair⟩ := List.mem_map.mp hin
    obtain ⟨hbefore,rfl⟩ := Prod.mk.inj hpair
    show c.before = answer
    rw [← hbefore]
    exact ((h p).mp (mem_changes.mp ⟨w,hp⟩)).symm
  | none =>
    cases answer with
    | none => rfl
    | some p =>
      obtain ⟨w,hw⟩ := mem_changes.mpr ((h p).mpr rfl)
      have hin : (some p,v) ∈ found.map fun c => (c.before,c.after) := by
        rw [hparts]
        exact List.mem_map_of_mem (f := fun p : _ × _ × _ => (some p.1,p.2.1)) hw
      obtain ⟨c,hc,hpair⟩ := List.mem_map.mp hin
      have hnone := List.find?_eq_none.mp hfind c (List.mem_reverse.mpr hc)
      exact absurd (decide_eq_true (Prod.mk.inj hpair).2) hnone

/-- The search stops at the version and answers with the one it passed last. -/
theorem predecessorIn_split {front rest : List ObjectVersion} {previous : Option ObjectVersion}
    (h : ∀ u ∈ front, u.validFrom ≠ v.validFrom) :
    predecessorIn previous (front ++ v :: rest) v = front.getLast?.or previous := by
  induction front generalizing previous with
  | nil => simp [predecessorIn]
  | cons a front ih =>
    rw [List.cons_append, predecessorIn, if_neg (h a List.mem_cons_self),
      ih fun u hu => h u (List.mem_cons_of_mem a hu)]
    cases hlast : front.getLast? with
    | none =>
      rw [List.getLast?_eq_none_iff.mp hlast]
      rfl
    | some b => simp [List.getLast?_cons, hlast]

theorem newestBelow_split {front rest : List ObjectVersion} (hv : v ∈ t.rows)
    (hl : timelineOf t v.object = front ++ v :: rest) :
    newestBelow t v.object v.validFrom = front.getLast? := by
  rcases List.eq_nil_or_concat front with rfl | ⟨init,p,rfl⟩
  · apply newestBelow_none.mpr
    intro u hu huo hlt
    have hin : u ∈ timelineOf t v.object := mem_timelineOf.mpr ⟨hu,huo⟩
    have hstrict := timeline_strict t v.object
    rw [hl, List.nil_append] at hin hstrict
    rcases List.mem_cons.mp hin with rfl | hin
    · exact lt_irrefl _ hlt
    · exact lt_asymm hlt ((List.pairwise_cons.mp hstrict).1 u hin)
  · have hp : p ∈ timelineOf t v.object := by
      rw [hl]
      simp
    rw [List.concat_eq_append, List.getLast?_concat]
    apply (newestBelow_follows hv).mpr
    refine ⟨init,rest,?_⟩
    rw [(mem_timelineOf.mp hp).2, hl]
    simp

theorem historyBefore_ok {read : ObjectTimeline} {cut : Bool} {versions : List ObjectVersion}
    (h : timeline t v.object maxTimelineVersions = .ok (read,cut))
    (hversions : read.versions = versions) : historyBefore sha256 t v =
      .ok (((told sha256 t versions).find? fun c => c.after = v).bind (·.before)) := by
  subst hversions
  simp only [historyBefore, objectChanges, Option.getD_none, h]
  rfl

theorem impactBefore_ok {read : ObjectTimeline} {cut : Bool} {versions : List ObjectVersion}
    (h : timeline t v.object maxTimelineVersions = .ok (read,cut))
    (hversions : read.versions = versions) :
    impactBefore t v = .ok (predecessorIn none versions v) := by
  subst hversions
  simp only [impactBefore, h]
  rfl

/-- A short timeline in order is read whole by both readers. -/
theorem readers_agree (sha256 : String → String) (hv : v ∈ t.rows)
    (hshort : (timelineOf t v.object).length ≤ maxTimelineVersions)
    (horder : checkTimeline v.object none (timelineOf t v.object) = .ok ()) :
    historyBefore sha256 t v = .ok (newestBelow t v.object v.validFrom) ∧
      impactBefore t v = .ok (newestBelow t v.object v.validFrom) := by
  have hall : (timelineOf t v.object).take maxTimelineVersions = timelineOf t v.object :=
    List.take_of_length_le hshort
  obtain ⟨read,cut,hread,hversions⟩ := timeline_ok (by rw [hall]; exact horder)
  rw [hall] at hversions
  constructor
  · rw [historyBefore_ok hread hversions]
    apply congrArg Except.ok
    apply named_before
    intro p
    rw [newestBelow_follows hv]
    constructor
    · rintro ⟨front,rest,hl⟩
      have hp : p ∈ timelineOf t v.object := by
        rw [hl]
        simp
      exact ⟨front,rest,by rw [(mem_timelineOf.mp hp).2, hl]⟩
    · intro hf
      obtain ⟨-,-,hobj⟩ := hf.mem
      obtain ⟨front,rest,hl⟩ := hf
      exact ⟨front,rest,by rw [hobj, hl]⟩
  · obtain ⟨front,rest,hl⟩ := List.append_of_mem (mem_timelineOf.mpr ⟨hv,rfl⟩)
    rw [impactBefore_ok hread hversions, newestBelow_split hv hl, hl, predecessorIn_split,
      Option.or_none]
    intro u hu
    have hstrict := timeline_strict t v.object
    rw [hl] at hstrict
    exact ((List.pairwise_append.mp hstrict).2.2 u hu v List.mem_cons_self).ne

/-- What the history names for every version of an object shows that its timeline is short
and in order. -/
theorem history_reaches {object : Object}
    (h : ∀ v ∈ t.rows, v.object = object →
      historyBefore sha256 t v = .ok (newestBelow t v.object v.validFrom)) :
    (timelineOf t object).length ≤ maxTimelineVersions ∧
      checkTimeline object none (timelineOf t object) = .ok () := by
  have hread : ∀ v ∈ timelineOf t object,
      checkTimeline object none ((timelineOf t object).take maxTimelineVersions) = .ok () := by
    intro v hv
    obtain ⟨hrow,rfl⟩ := mem_timelineOf.mp hv
    cases hcheck : checkTimeline v.object none
        ((timelineOf t v.object).take maxTimelineVersions) with
    | ok => rfl
    | error e =>
      have hone := h v hrow rfl
      simp only [historyBefore, objectChanges, Option.getD_none, timeline_error hcheck] at hone
      cases hone
  have hshort : (timelineOf t object).length ≤ maxTimelineVersions := by
    by_contra hlong
    have hlt := not_le.mp hlong
    -- the first version that is not read any more
    set v := (timelineOf t object)[maxTimelineVersions] with hvdef
    have hin : v ∈ timelineOf t object := List.getElem_mem hlt
    obtain ⟨hrow,hobj⟩ := mem_timelineOf.mp hin
    have hsplit : timelineOf t object = (timelineOf t object).take maxTimelineVersions ++
        v :: (timelineOf t object).drop (maxTimelineVersions+1) := by
      rw [hvdef, ← List.drop_eq_getElem_cons hlt, List.take_append_drop]
    have hunread : v ∉ (timelineOf t object).take maxTimelineVersions := by
      have hnodup := timelineOf_nodup t object
      rw [hsplit] at hnodup
      intro hread
      exact (List.nodup_append.mp hnodup).2.2 v hread v List.mem_cons_self rfl
    obtain ⟨read,cut,hok,hversions⟩ := timeline_ok (hread v hin)
    have hnone : historyBefore sha256 t v = .ok none := by
      rw [← hobj] at hok hversions
      rw [historyBefore_ok hok hversions, hobj]
      apply congrArg Except.ok
      apply named_before
      intro p
      constructor
      · rintro ⟨front,rest,hl⟩
        exact absurd (by rw [hl]; simp) hunread
      · intro hp
        cases hp
    have hanswer := h v hrow hobj
    rw [hnone, newestBelow_split hrow (by rw [hobj]; exact hsplit)] at hanswer
    have hempty := List.getLast?_eq_none_iff.mp (Except.ok.inj hanswer).symm
    have hlength := congrArg List.length hempty
    rw [List.length_take, Nat.min_eq_left hlt.le] at hlength
    cases hlength
  refine ⟨hshort,?_⟩
  cases hempty : timelineOf t object with
  | nil => rfl
  | cons v vs =>
    have hok := hread v (by rw [hempty]; exact List.mem_cons_self)
    rwa [List.take_of_length_le hshort, hempty] at hok

/-- The page, the history and the impact report name the newest version below, whatever
order the rows are read in. -/
structure Agree (sha256 : String → String) (t : Table) (page : List ObjectVersion) : Prop where
  paged : ∀ t' : Table, t'.rows.Perm t.rows → ∀ v ∈ page,
    predecessor t' page v = newestBelow t v.object v.validFrom
  history : ∀ v ∈ t.rows, historyBefore sha256 t v = .ok (newestBelow t v.object v.validFrom)
  impact : ∀ v ∈ t.rows, impactBefore t v = .ok (newestBelow t v.object v.validFrom)

/-- Timelines that are short and in order, and a page without a version that ended as it
began and with one version at most of an object that nothing ended for, unless nothing is
older than the ones before the last. -/
structure Clear (t : Table) (page : List ObjectVersion) : Prop where
  short : ∀ object, (timelineOf t object).length ≤ maxTimelineVersions
  inOrder : ∀ object, checkTimeline object none (timelineOf t object) = .ok ()
  lasting : ∀ v ∈ page, v.validTo ≠ some v.validFrom
  alone : ∀ v ∈ page, ∀ w ∈ page, w.object = v.object → v.validFrom < w.validFrom →
    ¬ Met t v → ¬ Met t w → ∀ u ∈ t.rows, u.object = v.object → ¬ u.validFrom < v.validFrom

/-- In an ordered timeline what starts earlier has ended by then. -/
theorem earlier_ends {object : Object} {a b : ObjectVersion} (ha : a ∈ t.rows) (hb : b ∈ t.rows)
    (hao : a.object = object) (hbo : b.object = object)
    (horder : checkTimeline object none (timelineOf t object) = .ok ())
    (hlt : a.validFrom < b.validFrom) : a.span.Before b.span := by
  obtain ⟨-,hchain⟩ := checkTimeline_none.mp horder
  have hforward : ∀ x ∈ timelineOf t object, x.span.Forward := by
    intro x hx e he
    have hc := t.checked x (mem_timelineOf.mp hx).1
    have hstop : x.validTo = some e := he
    simp only [checks, hstop, Option.all_some, decide_eq_true_eq] at hc
    exact hc.1.trans hc.2.1
  have horderly := (inOrder_of_chain hforward hchain).and (timeline_strict t object)
  obtain ⟨front,rest,hl⟩ := List.append_of_mem (mem_timelineOf.mpr ⟨ha,hao⟩)
  have hin : b ∈ timelineOf t object := mem_timelineOf.mpr ⟨hb,hbo⟩
  rw [hl] at horderly hin
  obtain ⟨-,hrest,hfront⟩ := List.pairwise_append.mp horderly
  rcases List.mem_append.mp hin with hin | hin
  · exact absurd (hfront b hin a List.mem_cons_self).2 (lt_asymm hlt)
  · rcases List.mem_cons.mp hin with rfl | hin
    · exact absurd hlt (lt_irrefl _)
    · exact ((List.pairwise_cons.mp hrest).1 b hin).1

/-- There a version that ends where another one begins is its neighbour. -/
theorem neighbours_of_order {p : ObjectVersion} (hv : v ∈ t.rows) (hp : p ∈ t.rows)
    (hobj : p.object = v.object)
    (horder : checkTimeline v.object none (timelineOf t v.object) = .ok ())
    (hends : p.validTo = some v.validFrom) (hne : p ≠ v) : Neighbours t p v := by
  constructor
  · by_contra hlate
    have hlater : v.validFrom < p.validFrom :=
      lt_of_le_of_ne (not_lt.mp hlate) fun hsame => hne (same_start hv hp hobj.symm hsame).symm
    have hc := t.checked p hp
    simp only [checks, hends, Option.all_some, decide_eq_true_eq] at hc
    exact absurd hlater (not_lt.mpr (hc.1.trans hc.2.1))
  · rintro u hu huo ⟨hafter,hearlier⟩
    obtain ⟨e,he,hle⟩ := earlier_ends hp hu hobj huo horder hafter
    have hstop : p.validTo = some e := he
    rw [hends] at hstop
    rw [← Option.some.inj hstop] at hle
    exact absurd hearlier (not_lt.mpr hle)

/-- A version has one predecessor, however it is asked for, exactly when the timelines and
the page are clear. -/
theorem one_predecessor_iff (sha256 : String → String) {page : List ObjectVersion}
    (hpage : ∀ v ∈ page, v ∈ t.rows) : Agree sha256 t page ↔ Clear t page := by
  constructor
  · intro h
    obtain ⟨hends,halone⟩ := (paired_iff hpage).mp h.paged
    refine ⟨?_,?_,?_,halone⟩
    · intro object
      exact (history_reaches fun v hv _ => h.history v hv).1
    · intro object
      exact (history_reaches fun v hv _ => h.history v hv).2
    · intro v hv hflat
      exact lt_irrefl _ (hends v hv v (hpage v hv) rfl hflat).1
  · intro h
    refine ⟨?_,?_,?_⟩
    · apply (paired_iff hpage).mpr
      refine ⟨?_,h.alone⟩
      intro v hv p hp hobj hends
      apply neighbours_of_order (hpage v hv) hp hobj (h.inOrder v.object) hends
      rintro rfl
      exact h.lasting p hv hends
    · intro v hv
      exact (readers_agree sha256 hv (h.short v.object) (h.inOrder v.object)).1
    · intro v hv
      exact (readers_agree sha256 hv (h.short v.object) (h.inOrder v.object)).2

end Readers

namespace Sample

/-- A server under a share count, over an interval that another one need not continue. -/
def version (id : ℕ) (shares : ℤ) (start : Instant) : ObjectVersion where
  versionId := id
  kind := .server
  key := "fs01"
  isPresent := true
  state := some [("share_count",.whole shares)]
  stateHash := some "d1"
  validFrom := start
  lastSeenAt := start
  openedByRunId := "r1"
  lastSeenRunId := "r1"

def closed (v : ObjectVersion) : ObjectVersion :=
  { v with
    validTo := some (v.validFrom+1)
    closeReason := some .superseded
    closedByRunId := some "r1" }

def first : ObjectVersion := closed (version 0 3 1)

def second : ObjectVersion := closed (version 1 4 4)

def third : ObjectVersion := version 2 5 7

theorem rows_fresh : ∀ v ∈ [first,second,third], v.versionId < 3 := by decide

theorem rows_nodup : ([first,second,third].map (·.versionId)).Nodup := by decide

theorem rows_checked : ∀ v ∈ [first,second,third], checks v = true := by decide

theorem rows_compatible : [first,second,third].Pairwise Compatible := by decide

def gapped : Table where
  rows := [first,second,third]
  nextId := 3
  ids_fresh := rows_fresh
  ids_nodup := rows_nodup
  checked := rows_checked
  compatible := rows_compatible

theorem gapped_object {v : ObjectVersion} (h : v ∈ gapped.rows) : v.object = (.server,"fs01") := by
  simp only [gapped, List.mem_cons, List.not_mem_nil, or_false] at h
  rcases h with rfl | rfl | rfl <;> rfl

theorem gapped_other {object : Object} (h : object ≠ (.server,"fs01")) :
    timelineOf gapped object = [] := by
  apply List.eq_nil_iff_forall_not_mem.mpr
  intro v hv
  obtain ⟨hrow,hobj⟩ := mem_timelineOf.mp hv
  exact h (hobj.symm.trans (gapped_object hrow))

theorem gapped_clear : Clear gapped [third] where
  short := by
    intro object
    by_cases h : object = (.server,"fs01")
    · subst h
      decide +kernel
    · rw [gapped_other h]
      exact Nat.zero_le _
  inOrder := by
    intro object
    by_cases h : object = (.server,"fs01")
    · subst h
      decide +kernel
    · rw [gapped_other h]
      rfl
  lasting := by
    intro v hv
    rw [List.mem_singleton.mp hv]
    decide
  alone := by
    intro v hv w hw _ hlt
    rw [List.mem_singleton.mp hv, List.mem_singleton.mp hw] at hlt
    exact absurd hlt (lt_irrefl _)

end Sample

/-- The last version of a timeline with gaps, asked about alone. -/
theorem one_predecessor_alone : Agree (fun _ => "") Sample.gapped [Sample.third] :=
  (one_predecessor_iff (fun _ => "") (by decide)).mpr Sample.gapped_clear

/-- Asked about beside the version after it, a version between two gaps is paired with nothing:
the shared bound of the two lets the version itself through, and it is not older than itself. -/
theorem shared_bound_unpaired : ¬ Agree (fun _ => "") Sample.gapped [Sample.second,Sample.third] ∧
    predecessor Sample.gapped [Sample.second,Sample.third] Sample.second = none ∧
    newestBelow Sample.gapped Sample.second.object Sample.second.validFrom = some Sample.first := by
  have hpaired : predecessor Sample.gapped [Sample.second,Sample.third] Sample.second = none := by
    decide +kernel
  have hbelow : newestBelow Sample.gapped Sample.second.object Sample.second.validFrom =
      some Sample.first := by
    decide +kernel
  refine ⟨?_,hpaired,hbelow⟩
  intro h
  have hone := h.paged Sample.gapped (List.Perm.refl _) Sample.second List.mem_cons_self
  rw [hpaired, hbelow] at hone
  cases hone

end Adg.VersionPredecessors
