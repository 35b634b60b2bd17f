import Adg.ChangeReads
import Adg.Loop

/-!
# The change feed

Versions that opened inside a window are read newest first, in batches, and
every batch is classified with what its own versions know of each other. The
feed takes the changes a filter admits until the page is full, the window is
read or the budget is spent.
-/

set_option autoImplicit false

namespace Adg.ChangeFeed
open Adg.Observation Adg.ObjectVersions Adg.VersionTable Adg.SortedLists Adg.ChangeFields
open Adg.ChangeRules Adg.ChangeClassification Adg.ChangeScopes Adg.ChangeReads

/-- `MAX_PAGE`. -/
def maxPage : ℕ := 500

/-- `SCAN_BUDGET`. -/
def scanBudget : ℕ := 4000

/-- `MAX_UNSCOPED_WINDOW`, 400 days. -/
def maxUnscopedWindow : Instant := 400*86400*1000000

structure VersionCursor where
  validFrom : Instant
  versionId : ℕ
  deriving DecidableEq, Repr

def VersionCursor.position (c : VersionCursor) : Instant ×ₗ ℕ := toLex (c.validFrom,c.versionId)

/-- The order of the feed, read from its end. -/
def position (v : ObjectVersion) : Instant ×ₗ ℕ := toLex (v.validFrom,v.versionId)

structure WindowedVersions where
  versions : List ObjectVersion
  hasMore : Bool
  nextCursor : Option VersionCursor

section Pages
variable (t : Table) (windowFrom windowTo : Instant)
  (inside : ObjectVersion → Bool)

/-- `_window`, behind the cursor. -/
def opening (cursor : Option VersionCursor) : List ObjectVersion :=
  (sortedBy position (t.rows.filter fun v => windowFrom ≤ v.validFrom && v.validFrom < windowTo &&
    inside v && cursor.all fun c => position v < c.position)).reverse

/-- `opened_between`. -/
def openedBetween (cursor : Option VersionCursor) (limit : ℕ) : WindowedVersions :=
  let bounded := max 1 (min limit maxPage)
  let rows := opening t windowFrom windowTo inside cursor
  let kept := rows.take bounded
  let hasMore : Bool := bounded < rows.length
  { versions := kept
    hasMore := hasMore
    nextCursor := if hasMore then kept.getLast?.map fun v => ⟨v.validFrom,v.versionId⟩ else none }

end Pages

section Predecessors
variable (t : Table)

/-- `_adjacent`, for one version. -/
def adjacent (v : ObjectVersion) : Option ObjectVersion :=
  (t.rows.filter fun w => w.object = v.object ∧ w.validTo = some v.validFrom).getLast?

/-- `_latest_before`, for one version among those it is asked about together.
The bounds of one object are shared, and so is their newest row. -/
def latestBefore (outstanding : List ObjectVersion) (v : ObjectVersion) : Option ObjectVersion :=
  let older := t.rows.filter fun w => w.object = v.object &&
    outstanding.any fun u => u.object = w.object && w.validFrom < u.validFrom
  (sortedBy (·.validFrom) older).getLast?.filter (·.validFrom < v.validFrom)

/-- `predecessors`, for one version of a page. -/
def predecessor (page : List ObjectVersion) (v : ObjectVersion) : Option ObjectVersion :=
  (adjacent t v).or (latestBefore t (page.filter fun u => (adjacent t u).isNone) v)

/-- The versions of a page nothing came before. -/
def firstVersions (page : List ObjectVersion) : List ObjectVersion :=
  page.filter fun v => (predecessor t page v).isNone

/-- `_sibling_ace_changes`, over the page. -/
def siblingAceChanges (v : ObjectVersion) (page : List ObjectVersion) : Option ℕ :=
  if v.kind = .ntfsResource then
    some (page.countP fun w => w.kind = .ntfsAce && w.containerKey = some v.key)
  else none

/-- What the coverage and the confirmations of a page say about one version. -/
def surroundingsIn (page : List ObjectVersion) (v : ObjectVersion) : Surroundings where
  containerObservedBefore :=
    if (firstVersions t page).any fun u => containerOf u = containerOf v then
      containerObserved t v else none
  containerConfirmedAt :=
    if (firstVersions t page).any fun u => u.kind = v.kind && u.containerKey = v.containerKey &&
        u.validFrom = v.validFrom then
      containerConfirmed t v else none
  siblingAceChanges := siblingAceChanges v page

end Predecessors

/-- `_classify_all`. -/
def classifyAll (sha256 : String → String) (t : Table) (page : List ObjectVersion) :
    List ObjectChange :=
  classifyTwice sha256 t (page.map fun v => (predecessor t page v,v))
    fun p => surroundingsIn t page p.2

structure ChangeFilter where
  windowFrom : Instant
  windowTo : Instant
  scope : Option ChangeScope := none
  kinds : Option (List ObservationKind) := none
  actions : List ChangeAction := [.added,.modified,.removed]
  significance : List ChangeSignificance := [.security,.undetermined]
  minSeverity : ChangeSeverity := .info
  limit : ℕ := 100

/-- `__post_init__`. An instant is always aware of its zone. -/
def ChangeFilter.build (isoformat : Instant → String) (f : ChangeFilter) :
    Except DomainError ChangeFilter :=
  if f.windowTo ≤ f.windowFrom then
    let since := isoformat f.windowFrom
    let upTo := isoformat f.windowTo
    .error { message := s!"A change window must end after it begins; received {since} to {upTo}. An empty window returns no changes, which is indistinguishable from a quiet week.", field := "window_to" }
  else if f.scope.isNone ∧ maxUnscopedWindow < f.windowTo-f.windowFrom then
    .error { message := "An estate-wide change window is limited to 400 days; narrow the window, or name a server, share, directory, identity or group and ask for any interval.", field := "window_from" }
  else if f.actions = [] then
    .error { message := "A change query that excludes every action returns nothing, which reads as a quiet window rather than as an empty filter.", field := "actions" }
  else if f.significance = [] then
    .error { message := "A change query that excludes every significance returns nothing, which reads as a quiet window rather than as an empty filter.", field := "significance" }
  else .ok f

def ChangeFilter.admits (f : ChangeFilter) (c : ObjectChange) : Bool :=
  c.action ∈ f.actions && c.significance ∈ f.significance && atLeast c.severity f.minSeverity

/-- `_Scan`. It runs until something breaks off the loop. -/
structure Scan where
  collected : List ObjectChange := []
  examined : ℕ := 0
  cursor : Option VersionCursor := none
  hasMore : Bool := false
  exhausted : Bool := false
  running : Bool := true

/-- `_absorb`: whether the page filled, and the cursor at the change that filled it. -/
def absorb (f : ChangeFilter) : Scan → List ObjectChange → Scan × Bool
  | s, [] => (s,false)
  | s, c :: cs =>
    if f.admits c then
      let s' := { s with
        collected := s.collected ++ [c]
        cursor := some ⟨c.after.validFrom,c.after.versionId⟩ }
      if f.limit ≤ s'.collected.length then (s',true) else absorb f s' cs
    else absorb f s cs

structure Feed where
  changes : List ObjectChange
  hasMore : Bool
  nextCursor : Option VersionCursor
  scanned : ℕ
  scanExhausted : Bool

section Feeding
variable (sha256 : String → String) (t : Table) (f : ChangeFilter) (inside : ObjectVersion → Bool)

/-- The batch a turn reads. -/
def batch (s : Scan) : WindowedVersions :=
  openedBetween t f.windowFrom f.windowTo inside s.cursor (max f.limit 50)

/-- A turn takes what it can of its batch. -/
def taken (s : Scan) : Scan × Bool :=
  let page := batch t f inside s
  absorb f { s with examined := s.examined+page.versions.length }
    (classifyAll sha256 t page.versions)

/-- One turn of the loop of `feed`. -/
def scanStep (s : Scan) : Option Scan :=
  if s.running = false ∨ f.limit ≤ s.collected.length then none
  else
    let page := batch t f inside s
    if page.versions = [] then some { s with
      hasMore := false
      running := false }
    else
      let (s',filled) := taken sha256 t f inside s
      if filled then some { s' with
        hasMore := true
        running := false }
      else if ¬ page.hasMore then some { s' with
        cursor := page.nextCursor
        hasMore := page.hasMore
        running := false }
      else if scanBudget ≤ s'.examined then some { s' with
        cursor := page.nextCursor
        hasMore := true
        exhausted := true
        running := false }
      else some { s' with
        cursor := page.nextCursor
        hasMore := page.hasMore }

/-- The loop of `feed`. Every turn examines a version, so the budget bounds the turns. -/
def scan (cursor : Option VersionCursor) : Scan :=
  Loop.iterate (scanStep sha256 t f inside) (scanBudget+1) { cursor := cursor }

end Feeding

/-- The scope is read by the first page that is asked for. -/
def scopePredicates (casefold : String → String) (f : ChangeFilter) :
    Except DomainError (Option (ObservationKind → Option Predicate)) :=
  if f.limit = 0 then .ok none else f.scope.mapM (predicatesFor casefold)

/-- `feed`. -/
def feed (casefold sha256 : String → String) (t : Table) (f : ChangeFilter)
    (cursor : Option VersionCursor) : Except DomainError Feed := do
  let predicates ← scopePredicates casefold f
  let s := scan sha256 t f (restrict f.kinds predicates) cursor
  return { changes := s.collected
           hasMore := s.hasMore
           nextCursor := s.cursor
           scanned := s.examined
           scanExhausted := s.exhausted }

/-! ### What a feed holds -/

section Holding
variable {sha256 : String → String} {t : Table} {f : ChangeFilter} {inside : ObjectVersion → Bool}

theorem mem_opening {from' to' : Instant} {cursor : Option VersionCursor} {v : ObjectVersion}
    (h : v ∈ opening t from' to' inside cursor) :
    v ∈ t.rows ∧ from' ≤ v.validFrom ∧ v.validFrom < to' ∧ inside v = true := by
  have hmem := (sortedBy_perm position _).mem_iff.mp (List.mem_reverse.mp h)
  obtain ⟨hrow,hp⟩ := List.mem_filter.mp hmem
  simp only [Bool.and_eq_true, decide_eq_true_eq] at hp
  exact ⟨hrow,hp.1.1.1,hp.1.1.2,hp.1.2⟩

theorem mem_openedBetween {from' to' : Instant} {cursor : Option VersionCursor} {limit : ℕ}
    {v : ObjectVersion} (h : v ∈ (openedBetween t from' to' inside cursor limit).versions) :
    v ∈ t.rows ∧ from' ≤ v.validFrom ∧ v.validFrom < to' ∧ inside v = true :=
  mem_opening (List.mem_of_mem_take h)

/-- A predecessor is a row of the same object. -/
theorem predecessor_row {page : List ObjectVersion} {v w : ObjectVersion}
    (h : predecessor t page v = some w) : w ∈ t.rows ∧ w.object = v.object := by
  rcases Option.or_eq_some_iff.mp h with hadj | ⟨-,hlate⟩
  · obtain ⟨hrow,hp⟩ := List.mem_filter.mp (List.mem_of_getLast? hadj)
    exact ⟨hrow,(of_decide_eq_true hp).1⟩
  · obtain ⟨hlast,-⟩ := Option.filter_eq_some_iff.mp hlate
    have hmem := (sortedBy_perm _ _).mem_iff.mp (List.mem_of_getLast? hlast)
    obtain ⟨hrow,hp⟩ := List.mem_filter.mp hmem
    simp only [Bool.and_eq_true, decide_eq_true_eq] at hp
    exact ⟨hrow,hp.1⟩

/-- The two passes classify the pairs they are given. -/
theorem mem_classifyTwice {pairs : List (Option ObjectVersion × ObjectVersion)}
    {surroundings : Option ObjectVersion × ObjectVersion → Surroundings} {c : ObjectChange}
    (h : c ∈ classifyTwice sha256 t pairs surroundings) :
    ∃ p ∈ pairs, ∃ s, c = classify p.1 p.2 s := by
  simp only [classifyTwice] at h
  split_ifs at h
  · obtain ⟨p,hp,rfl⟩ := List.mem_map.mp h
    exact ⟨p,hp,_,rfl⟩
  · obtain ⟨p,hp,rfl⟩ := List.mem_map.mp h
    exact ⟨p,hp,_,rfl⟩

/-- A change a page can hold: a version of the window beside the version that
a page finds before it. -/
def Opens (t : Table) (f : ChangeFilter) (inside : ObjectVersion → Bool) (c : ObjectChange) : Prop :=
  ∃ page s, c = classify (predecessor t page c.after) c.after s ∧ c.after ∈ t.rows ∧
    f.windowFrom ≤ c.after.validFrom ∧ c.after.validFrom < f.windowTo ∧ inside c.after = true

theorem classifyAll_opens {cursor : Option VersionCursor} {limit : ℕ} {c : ObjectChange}
    (h : c ∈ classifyAll sha256 t
      (openedBetween t f.windowFrom f.windowTo inside cursor limit).versions) :
    Opens t f inside c := by
  obtain ⟨p,hp,s,rfl⟩ := mem_classifyTwice h
  obtain ⟨v,hv,rfl⟩ := List.mem_map.mp hp
  exact ⟨_,s,rfl,mem_openedBetween hv⟩

theorem absorb_collected (f : ChangeFilter) (P : ObjectChange → Prop) {cs : List ObjectChange}
    {s : Scan} (hs : ∀ c ∈ s.collected, P c) (hcs : ∀ c ∈ cs, P c) :
    ∀ c ∈ (absorb f s cs).1.collected, P c := by
  induction cs generalizing s with
  | nil => exact hs
  | cons c cs ih =>
    have hrest : ∀ d ∈ cs, P d := fun d hd => hcs d (List.mem_cons_of_mem c hd)
    have hmore : ∀ d ∈ s.collected ++ [c], P d := by
      intro d hd
      rcases List.mem_append.mp hd with hd | hd
      · exact hs d hd
      · rw [List.mem_singleton.mp hd]
        exact hcs c List.mem_cons_self
    simp only [absorb]
    split_ifs
    · exact hmore
    · exact ih hmore hrest
    · exact ih hs hrest

theorem scanStep_opens {s s' : Scan} (hs : ∀ c ∈ s.collected, Opens t f inside c)
    (h : scanStep sha256 t f inside s = some s') : ∀ c ∈ s'.collected, Opens t f inside c := by
  have hnext : ∀ c ∈ (taken sha256 t f inside s).1.collected, Opens t f inside c := by
    apply absorb_collected f (Opens t f inside)
    · exact hs
    · exact fun c hc => classifyAll_opens hc
  simp only [scanStep] at h
  split_ifs at h <;> cases h
  · exact hs
  all_goals exact hnext

theorem scan_opens (cursor : Option VersionCursor) :
    ∀ c ∈ (scan sha256 t f inside cursor).collected, Opens t f inside c := by
  apply Loop.iterate_invariant (I := fun s : Scan => ∀ c ∈ s.collected, Opens t f inside c)
  · exact fun s s' hs h => scanStep_opens hs h
  · intro c hc
    cases hc

/-- What is left of the budget, while the loop runs. -/
def remaining (s : Scan) : ℕ := if s.running then scanBudget+1-s.examined else 0

theorem absorb_keeps (f : ChangeFilter) (cs : List ObjectChange) (s : Scan) :
    (absorb f s cs).1.examined = s.examined ∧ (absorb f s cs).1.running = s.running := by
  induction cs generalizing s with
  | nil => exact ⟨rfl,rfl⟩
  | cons c cs ih =>
    simp only [absorb]
    split_ifs
    · exact ⟨rfl,rfl⟩
    · exact ih _
    · exact ih s

theorem taken_keeps (sha256 : String → String) (t : Table) (f : ChangeFilter)
    (inside : ObjectVersion → Bool) (s : Scan) : (taken sha256 t f inside s).1.examined =
      s.examined+(batch t f inside s).versions.length ∧
    (taken sha256 t f inside s).1.running = s.running :=
  absorb_keeps f _ _

theorem scanStep_spends {s s' : Scan} (hs : s.running = true → s.examined < scanBudget)
    (h : scanStep sha256 t f inside s = some s') :
    (s'.running = true → s'.examined < scanBudget) ∧ remaining s' < remaining s := by
  obtain ⟨hexamined,hkept⟩ := taken_keeps sha256 t f inside s
  simp only [scanStep] at h
  split_ifs at h with hstop hempty hfull hlast hspent <;> cases h
  all_goals
    have hrun : s.running = true := by
      cases hr : s.running with
      | true => rfl
      | false => exact absurd (Or.inl hr) hstop
    have hleft := hs hrun
  case neg =>
    have hpos := List.length_pos_iff.mpr hempty
    unfold remaining
    dsimp only
    rw [hkept, if_pos hrun, if_pos hrun, hexamined]
    rw [hexamined] at hspent
    exact ⟨fun _ => by omega,by omega⟩
  all_goals
    refine ⟨fun hr => absurd hr Bool.false_ne_true,?_⟩
    unfold remaining
    rw [if_pos hrun, if_neg Bool.false_ne_true]
    omega

/-- The bound on the turns is never what ends the loop. -/
theorem scan_ends (cursor : Option VersionCursor) :
    Loop.Finished (scanStep sha256 t f inside) (scan sha256 t f inside cursor) := by
  apply Loop.iterate_ends (I := fun s : Scan => s.running = true → s.examined < scanBudget)
    remaining
  · exact fun s s' hs h => (scanStep_spends hs h).1
  · exact fun s s' hs h => (scanStep_spends hs h).2
  · exact fun _ => Nat.succ_pos _
  · exact le_rfl

end Holding

/-- A feed holds transitions of its window, of the kinds that are asked for. -/
theorem feed_opens {casefold sha256 : String → String} {t : Table} {f : ChangeFilter}
    {cursor : Option VersionCursor} {page : Feed}
    (h : feed casefold sha256 t f cursor = .ok page) :
    ∃ predicates, ∀ c ∈ page.changes, Opens t f (restrict f.kinds predicates) c := by
  unfold feed at h
  cases hread : scopePredicates casefold f with
  | error e =>
    rw [hread] at h
    cases h
  | ok predicates =>
    rw [hread] at h
    cases h
    exact ⟨predicates,scan_opens cursor⟩

end Adg.ChangeFeed
