import Adg.Fallible
import Adg.KeysetPages
import Adg.SimulatedAcls

/-!
# Paging a simulated subject

A page of a subject compares one keyset page of what the collected token names
with one of what the simulated token names, and the next request starts from
the cursor of the latter.
-/

set_option autoImplicit false

namespace Adg.SubjectPaging
open Adg.Observation
open Adg.SecurityIdentifier Adg.ResourcePath Adg.SortedLists Adg.KeysetPages Adg.Fallible
open Adg.SimulationOverlays Adg.SimulatedAcls

/-! ### Candidates -/

/-- `_page_size`. -/
def pageSize (limit : ℤ) : ℕ := (max 1 (min limit 500)).toNat

/-- What the candidate query reads: the reference index of directories, the entries
that are there, and the directories without an access list, which name nobody. -/
structure ResourceIndex where
  references : List (String × String)
  entries : List (String × String)
  unrestricted : List String

/-- The keys that the query unites: those of references that an entry still stands
for, and those of unrestricted directories. -/
def ResourceIndex.candidateKeys (index : ResourceIndex) (principalKeys : List String) :
    List String :=
  (index.references.filter fun r => r.1 ∈ principalKeys && r ∈ index.entries).map (·.2) ++
    index.unrestricted

/-- `_candidate_page`: one key more than the page holds is read. -/
def candidatePage (source : List String) (size : ℕ) (after : Option String) : Page String :=
  let keys := ((inOrder source).filter fun k => after.all (· < k)).take (size+1)
  let hasMore := decide (size < keys.length)
  let visible := keys.take size
  { items := visible
    hasMore := hasMore
    nextKey := if hasMore then visible.getLast? else none }

/-- `ResourceRepository.resources_named_by`. -/
def resourcesNamedBy (index : ResourceIndex) (principalKeys : List String) (limit : ℤ)
    (after : Option String) : Page String :=
  if principalKeys.isEmpty then ⟨[],false,none⟩
  else candidatePage (index.candidateKeys principalKeys) (pageSize limit) after

/-- `_merged_page`. -/
def mergedPage (page : Page String) (extra : List String) (limit : ℤ) (after : Option String) :
    Page String :=
  let candidates := extra.dedup.filter fun k => after.all (· < k)
  if candidates.isEmpty then page
  else
    let merged := inOrder (page.items ++ candidates)
    let hasMore := page.hasMore || decide (pageSize limit < merged.length)
    let visible := merged.take (pageSize limit)
    { items := visible
      hasMore := hasMore
      nextKey := if hasMore then visible.getLast? else none }

section Simulated
variable (casefold : String → String)

/-- `NtfsAceChange.trustee_key`. -/
def trusteeKey (n : NtfsAceChange) : Except DomainError (Option String) :=
  match n.trusteeSid with
  | none => .ok none
  | some text => do
    let sid ← Sid.parse text
    let path ← parseUncPath n.resourceKey
    return some (referencedPrincipalKey casefold sid (String.ofList path.server))

/-- The directory of one addition that names one of the principals. -/
def namedAddition (principalKeys : List String) (n : NtfsAceChange) :
    Except DomainError (List String) :=
  if n.kind ≠ .addNtfsAce then .ok []
  else do
    let key ← trusteeKey casefold n
    return if key.any (· ∈ principalKeys) then [n.resourceKey] else []

/-- The directories that simulated entries newly name. -/
def extraKeys (overlay : SimulationOverlay) (principalKeys : List String) :
    Except DomainError (List String) :=
  List.flatten <$> overlay.ntfsAces.mapM (namedAddition casefold principalKeys)

/-- `OverlayResourceRepository.resources_named_by`. -/
def simulatedNamedBy (overlay : SimulationOverlay) (index : ResourceIndex)
    (principalKeys : List String) (limit : ℤ) (after : Option String) :
    Except DomainError (Page String) := do
  let page := resourcesNamedBy index principalKeys limit after
  let extra ← extraKeys casefold overlay principalKeys
  return mergedPage page extra limit after

end Simulated

/-! ### One request -/

/-- The truncations that a page of a subject can report. -/
inductive Truncation where
  | resourceBudget
  | timeBudget
  | pairBudget
  deriving DecidableEq, Repr

/-- One comparison, of what a subject may do at a directory before and after. -/
structure AccessDelta (α : Type) where
  resourceKey : String
  before : α
  after : α
  deriving DecidableEq, Repr

/-- One page of a subject. -/
structure SubjectPage (α : Type) where
  deltas : List (AccessDelta α)
  truncation : List Truncation
  nextKey : Option String

/-- An access service: what it answers for a page, and what for one directory. -/
structure Answers (α : Type) where
  evaluated : String → α
  resolved : String → α

section Requests
variable {α : Type}

/-- The answer of a page when the directory is on it, else the answer for the directory. -/
def Answers.answer (a : Answers α) (page : Page String) (key : String) : α :=
  if key ∈ page.items then a.evaluated key else a.resolved key

/-- The loop over the keys of a page, with what stopped it. The clock is read, and
the pairs are counted, before every key. -/
def deltaLoop (outOfTime : ℕ → Bool) (maxPairs : ℕ) (deltaOf : String → AccessDelta α) :
    ℕ → List String → List (AccessDelta α) × List Truncation
  | _, [] => ([],[])
  | done, key :: keys =>
    if outOfTime done then ([],[.timeBudget])
    else if maxPairs ≤ done then ([],[.pairBudget])
    else
      let rest := deltaLoop outOfTime maxPairs deltaOf (done+1) keys
      (deltaOf key :: rest.1,rest.2)

/-- What a simulation of a subject reads. -/
structure SubjectRun (α : Type) where
  casefold : String → String
  index : ResourceIndex
  overlay : SimulationOverlay
  collectedKeys : List String
  simulatedKeys : List String
  collected : Answers α
  simulated : Answers α
  severity : AccessDelta α → ℕ
  limit : ℤ
  maxPairs : ℕ

/-- `_subject_scope`. -/
def SubjectRun.subjectScope (run : SubjectRun α) (outOfTime : ℕ → Bool) (after : Option String) :
    Except DomainError (SubjectPage α) := do
  let beforePage := resourcesNamedBy run.index run.collectedKeys run.limit after
  let afterPage ← simulatedNamedBy run.casefold run.overlay run.index run.simulatedKeys run.limit
    after
  -- a key beyond the cursor is left to the next request
  let keys := (inOrder (beforePage.items ++ afterPage.items)).filter fun k =>
    afterPage.nextKey.all (k ≤ ·)
  let noted := if afterPage.hasMore || beforePage.hasMore then [Truncation.resourceBudget] else []
  let deltaOf := fun key => ({
    resourceKey := key
    before := run.collected.answer beforePage key
    after := run.simulated.answer afterPage key } : AccessDelta α)
  let compared := deltaLoop outOfTime run.maxPairs deltaOf 0 keys
  return {
    deltas := sortedBy (fun d => toLex (run.severity d,d.resourceKey)) compared.1
    truncation := noted ++ compared.2
    nextKey := afterPage.nextKey }

/-- The pages of a subject, each asked for behind the cursor of the one before it,
until a page has no cursor. -/
inductive Followed (run : SubjectRun α) : Option String → List (SubjectPage α) → Prop where
  | last {after : Option String} {outOfTime : ℕ → Bool} {page : SubjectPage α}
      (h : run.subjectScope outOfTime after = .ok page) (hnext : page.nextKey = none) :
      Followed run after [page]
  | more {after : Option String} {outOfTime : ℕ → Bool} {page : SubjectPage α} {cursor : String}
      {pages : List (SubjectPage α)} (h : run.subjectScope outOfTime after = .ok page)
      (hnext : page.nextKey = some cursor) (rest : Followed run (some cursor) pages) :
      Followed run after (page :: pages)

/-- What the collected token makes a candidate. -/
def SubjectRun.before (run : SubjectRun α) : List String :=
  if run.collectedKeys.isEmpty then [] else run.index.candidateKeys run.collectedKeys

/-- What the simulated token makes a candidate. -/
def SubjectRun.after (run : SubjectRun α) : List String :=
  (if run.simulatedKeys.isEmpty then [] else run.index.candidateKeys run.simulatedKeys) ++
    ((extraKeys run.casefold run.overlay run.simulatedKeys).toOption.getD [])

end Requests

/-! ### The pages are keyset pages -/

theorem pageSize_pos (limit : ℤ) : 0 < pageSize limit := by
  unfold pageSize
  omega

theorem candidatePage_eq (source : List String) (size : ℕ) (after : Option String) :
    candidatePage source size after = pageOf size after source := by
  have hmore : size < (((inOrder source).filter fun k => after.all (· < k)).take (size+1)).length ↔
      size < (behind after source).length := by
    rw [List.length_take, behind]
    omega
  have hvisible : (((inOrder source).filter fun k => after.all (· < k)).take (size+1)).take size =
      (behind after source).take size := by
    rw [List.take_take, behind, Nat.min_eq_left (Nat.le_succ size)]
  simp only [candidatePage, pageOf, hmore, hvisible]

theorem pageOf_nil (n : ℕ) (after : Option String) : pageOf n after [] = ⟨[],false,none⟩ := by
  have hnil : behind after ([] : List String) = [] := by
    apply List.eq_nil_iff_forall_not_mem.mpr
    intro k hk
    cases (mem_behind.mp hk).1
  simp [pageOf, hnil]

theorem resourcesNamedBy_eq (index : ResourceIndex) (principalKeys : List String) (limit : ℤ)
    (after : Option String) : resourcesNamedBy index principalKeys limit after =
      pageOf (pageSize limit) after
        (if principalKeys.isEmpty then [] else index.candidateKeys principalKeys) := by
  unfold resourcesNamedBy
  split_ifs
  · exact (pageOf_nil _ _).symm
  · exact candidatePage_eq _ _ _

theorem mergedPage_eq (keys extra : List String) (limit : ℤ) (after : Option String) :
    mergedPage (pageOf (pageSize limit) after keys) extra limit after =
      pageOf (pageSize limit) after (keys ++ extra) := by
  simp only [mergedPage]
  by_cases hnone : (extra.dedup.filter fun k => after.all (· < k)).isEmpty = true
  · rw [if_pos hnone]
    have hbehind : behind after keys = behind after (keys ++ extra) := by
      apply strict_ext (behind_strict _ _) (behind_strict _ _)
      intro k
      rw [mem_behind, mem_behind, List.mem_append]
      constructor
      · rintro ⟨hk,hafter⟩
        exact ⟨Or.inl hk,hafter⟩
      · rintro ⟨hk | hk,hafter⟩
        · exact ⟨hk,hafter⟩
        · have hcandidate : k ∈ extra.dedup.filter fun k => after.all (· < k) := by
            rw [List.mem_filter, List.mem_dedup]
            refine ⟨hk,?_⟩
            cases after with
            | none => rfl
            | some a => simpa using hafter a rfl
          rw [List.isEmpty_iff.mp hnone] at hcandidate
          cases hcandidate
    simp only [pageOf, hbehind]
  · rw [if_neg hnone]
    have hitems := @merged_items String _ (pageSize limit) after keys extra
    have hmore := @merged_more String _ (pageSize limit) after keys extra
    rw [merged] at hitems hmore
    rw [hitems, hmore]
    rfl

section Runs
variable {α : Type} {run : SubjectRun α}

theorem simulatedNamedBy_eq (after : Option String) :
    simulatedNamedBy run.casefold run.overlay run.index run.simulatedKeys run.limit after =
      (fun _ => pageOf (pageSize run.limit) after run.after) <$>
        extraKeys run.casefold run.overlay run.simulatedKeys := by
  simp only [simulatedNamedBy, resourcesNamedBy_eq, SubjectRun.after]
  cases extraKeys run.casefold run.overlay run.simulatedKeys with
  | error e => rfl
  | ok extra => exact congrArg Except.ok (mergedPage_eq _ extra run.limit after)

/-- When neither clock nor pairs run out, every key is compared. -/
theorem deltaLoop_all {outOfTime : ℕ → Bool} {maxPairs : ℕ} {deltaOf : String → AccessDelta α}
    {done : ℕ} {keys : List String}
    (htime : .timeBudget ∉ (deltaLoop outOfTime maxPairs deltaOf done keys).2)
    (hpairs : .pairBudget ∉ (deltaLoop outOfTime maxPairs deltaOf done keys).2) :
    (deltaLoop outOfTime maxPairs deltaOf done keys).1 = keys.map deltaOf := by
  induction keys generalizing done with
  | nil => rfl
  | cons key keys ih =>
    unfold deltaLoop at htime hpairs ⊢
    split_ifs at htime hpairs ⊢ with hout hmax
    · exact absurd List.mem_cons_self htime
    · exact absurd List.mem_cons_self hpairs
    · rw [List.map_cons, ← ih htime hpairs]

/-- No budget stopped the comparisons of a page. -/
def Unhurried (page : SubjectPage α) : Prop :=
  .timeBudget ∉ page.truncation ∧ .pairBudget ∉ page.truncation

/-- One request reports the keys of its window, and its cursor is that of the simulated page. -/
theorem subjectScope_window {outOfTime : ℕ → Bool} {after : Option String} {page : SubjectPage α}
    (h : run.subjectScope outOfTime after = .ok page) :
    page.nextKey = (pageOf (pageSize run.limit) after run.after).nextKey ∧
      (Unhurried page → (page.deltas.map (·.resourceKey)).Perm
        (window (pageSize run.limit) run.after run.before after)) := by
  simp only [SubjectRun.subjectScope, simulatedNamedBy_eq, resourcesNamedBy_eq] at h
  obtain ⟨afterPage,hafter,h⟩ := bind_ok.mp h
  obtain ⟨extra,-,rfl⟩ := map_ok.mp hafter
  cases h
  refine ⟨rfl,?_⟩
  rintro ⟨htime,hpairs⟩
  simp only [List.mem_append, not_or] at htime hpairs
  refine ((sortedBy_perm _ _).map _).trans ?_
  rw [deltaLoop_all htime.2 hpairs.2, List.map_map]
  exact List.Perm.of_eq (List.map_id _)

theorem subjectScope_answers {extra : List String}
    (hextra : extraKeys run.casefold run.overlay run.simulatedKeys = .ok extra)
    (outOfTime : ℕ → Bool) (after : Option String) :
    ∃ page, run.subjectScope outOfTime after = .ok page := by
  simp only [SubjectRun.subjectScope, simulatedNamedBy_eq, hextra]
  exact ⟨_,rfl⟩

/-- Whatever the clocks, following the cursors comes to an end. -/
theorem pages_exist {extra : List String}
    (hextra : extraKeys run.casefold run.overlay run.simulatedKeys = .ok extra)
    (outOfTime : ℕ → Bool) (after : Option String) : ∃ pages, Followed run after pages := by
  obtain ⟨cursors,hwalk⟩ := walk_exists (pageSize run.limit) run.after after
  induction hwalk with
  | @last after hnext =>
    obtain ⟨page,hpage⟩ := subjectScope_answers hextra outOfTime after
    exact ⟨[page],.last hpage ((subjectScope_window hpage).1.trans hnext)⟩
  | @more after c cursors hnext _ ih =>
    obtain ⟨page,hpage⟩ := subjectScope_answers hextra outOfTime after
    obtain ⟨pages,hpages⟩ := ih
    exact ⟨page :: pages,.more hpage ((subjectScope_window hpage).1.trans hnext) hpages⟩

/-- The keys of the pages that were followed, in the order of the cursors they were asked behind. -/
theorem followed_windows {after : Option String} {pages : List (SubjectPage α)}
    (h : Followed run after pages) (hbudget : ∀ page ∈ pages, Unhurried page) :
    ∃ cursors, Walk (pageSize run.limit) run.after after cursors ∧
      (pages.flatMap fun page => page.deltas.map (·.resourceKey)).Perm
        (cursors.flatMap (window (pageSize run.limit) run.after run.before)) := by
  induction h with
  | @last after outOfTime page h hnext =>
    obtain ⟨hcursor,hkeys⟩ := subjectScope_window h
    refine ⟨[after],.last (hcursor.symm.trans hnext),?_⟩
    simpa using hkeys (hbudget page List.mem_cons_self)
  | @more after outOfTime page c pages h hnext _ ih =>
    obtain ⟨hcursor,hkeys⟩ := subjectScope_window h
    obtain ⟨cursors,hwalk,hperm⟩ := ih fun p hp => hbudget p (List.mem_cons_of_mem _ hp)
    refine ⟨after :: cursors,.more (hcursor.symm.trans hnext) hwalk,?_⟩
    rw [List.flatMap_cons, List.flatMap_cons]
    exact (hkeys (hbudget page List.mem_cons_self)).append hperm

/-- How many deltas the pages have for a directory. -/
def reports (pages : List (SubjectPage α)) (key : String) : ℕ :=
  (pages.flatMap fun page => page.deltas.map (·.resourceKey)).count key

theorem reports_eq {pages : List (SubjectPage α)} (h : Followed run none pages)
    (hbudget : ∀ page ∈ pages, Unhurried page) (key : String) : reports pages key =
      if Reached (pageSize run.limit) run.after run.before key then 1 else 0 := by
  obtain ⟨cursors,hwalk,hperm⟩ := followed_windows h hbudget
  have hcursor : Cursor (pageSize run.limit) run.after none := by
    intro c hc
    cases hc
  obtain ⟨hmem,hstrict⟩ :=
    walk_reports (pageSize_pos run.limit) run.before hwalk hcursor
  rw [reports, hperm.count_eq]
  split_ifs with hreached
  · exact List.count_eq_one_of_mem (hstrict.imp ne_of_lt)
      ((hmem key).mpr ⟨by simp,hreached⟩)
  · apply List.count_eq_zero_of_not_mem
    intro hkey
    exact hreached ((hmem key).mp hkey).2

/-- Following the cursors ends; and with no budget exhausted it reports every candidate of either
token exactly once just when every candidate of the collected token alone lies within one page of
the last boundary of the simulated candidates before it. -/
theorem paging_complete_iff (run : SubjectRun α) :
    (∀ extra, extraKeys run.casefold run.overlay run.simulatedKeys = .ok extra →
      ∃ pages, Followed run none pages) ∧
    ∀ pages, Followed run none pages → (∀ page ∈ pages, Unhurried page) →
      ((∀ key, key ∈ run.before ∨ key ∈ run.after → reports pages key = 1) ↔
        ∀ key ∈ run.before, key ∉ run.after →
          lead (pageSize run.limit) run.after run.before key < pageSize run.limit) := by
  refine ⟨fun extra hextra => pages_exist hextra (fun _ => false) none,?_⟩
  intro pages h hbudget
  have hreports := reports_eq h hbudget
  constructor
  · intro hall key hkey hnot
    have hone := hall key (Or.inl hkey)
    rw [hreports key] at hone
    split_ifs at hone with hreached
    exact (hreached.resolve_left hnot).2
  · intro hlead key hkey
    rw [hreports key, if_pos]
    by_cases hafter : key ∈ run.after
    · exact Or.inl hafter
    · have hbefore := hkey.resolve_right hafter
      exact Or.inr ⟨hbefore,hlead key hbefore hafter⟩

end Runs

/-! ### A subject that leaves a group -/

def leaving : MembershipChange where
  kind := .removeMember
  groupKey := "S-1-5-21-1-2-3-1101"
  memberKey := "S-1-5-21-1-2-3-1001"

theorem leaving_bounded : [leaving].length+([] : List NtfsAceChange).length+
    ([] : List ShareAceChange).length+([] : List InheritanceChange).length ≤ maxChanges := by decide

theorem leaving_distinct : (([leaving].map SimulationChange.membership ++
    ([] : List NtfsAceChange).map SimulationChange.ntfs ++
    ([] : List ShareAceChange).map SimulationChange.share ++
    ([] : List InheritanceChange).map SimulationChange.inheritance).map (·.target)).Nodup := by
  decide

/-- The group is named on two folders, and the subject by itself on none. -/
def leavingRun (limit : ℤ) : SubjectRun Bool where
  casefold := String.toLower
  index := {
    references := [("S-1-5-21-1-2-3-1101","\\\\fs\\s\\a"), ("S-1-5-21-1-2-3-1101","\\\\fs\\s\\b")]
    entries := [("S-1-5-21-1-2-3-1101","\\\\fs\\s\\a"), ("S-1-5-21-1-2-3-1101","\\\\fs\\s\\b")]
    unrestricted := [] }
  overlay := ⟨[leaving],[],[],[],leaving_bounded,leaving_distinct⟩
  collectedKeys := ["S-1-5-21-1-2-3-1001", "S-1-5-21-1-2-3-1101"]
  simulatedKeys := ["S-1-5-21-1-2-3-1001"]
  collected := ⟨fun _ => true,fun _ => true⟩
  simulated := ⟨fun _ => false,fun _ => false⟩
  severity _ := 2
  limit := limit
  maxPairs := 5000

/-- The keys of a page, what stopped it, and its cursor. -/
def outline (page : SubjectPage Bool) : List String × List Truncation × Option String :=
  (page.deltas.map (·.resourceKey),page.truncation,page.nextKey)

theorem unhurried_of_outline {page : SubjectPage Bool} {keys : List String}
    {truncation : List Truncation} {cursor : Option String}
    (h : outline page = (keys,truncation,cursor)) (htime : .timeBudget ∉ truncation)
    (hpairs : .pairBudget ∉ truncation) : Unhurried page ∧ page.nextKey = cursor := by
  simp only [outline, Prod.mk.injEq] at h
  obtain ⟨-,rfl,rfl⟩ := h
  exact ⟨⟨htime,hpairs⟩,rfl⟩

/-- A page with room for two folders reports both. -/
theorem both_folders_reported : ∃ pages, Followed (leavingRun 2) none pages ∧
    ∀ key, key ∈ (leavingRun 2).before ∨ key ∈ (leavingRun 2).after → reports pages key = 1 := by
  have hpage : ((leavingRun 2).subjectScope (fun _ => false) none).map outline =
      .ok (["\\\\fs\\s\\a", "\\\\fs\\s\\b"],[],none) := by decide +kernel
  obtain ⟨page,hpage,houtline⟩ := map_ok.mp hpage
  obtain ⟨hunhurried,hnext⟩ := unhurried_of_outline houtline (by decide) (by decide)
  refine ⟨[page],.last hpage hnext,?_⟩
  apply ((paging_complete_iff (leavingRun 2)).2 [page] (.last hpage hnext) ?_).mpr
  · decide +kernel
  · intro p hp
    rw [List.mem_singleton.mp hp]
    exact hunhurried

/-- A page of one folder has no cursor, since the simulated token names nothing: the second folder
is never reported. -/
theorem second_folder_lost : ¬ ∀ (run : SubjectRun Bool) (pages : List (SubjectPage Bool)),
    Followed run none pages → (∀ page ∈ pages, Unhurried page) →
      ∀ key, key ∈ run.before ∨ key ∈ run.after → reports pages key = 1 := by
  intro hclaim
  have hpage : ((leavingRun 1).subjectScope (fun _ => false) none).map outline =
      .ok (["\\\\fs\\s\\a"],[.resourceBudget],none) := by decide +kernel
  obtain ⟨page,hpage,houtline⟩ := map_ok.mp hpage
  obtain ⟨hunhurried,hnext⟩ := unhurried_of_outline houtline (by decide) (by decide)
  have hlost := hclaim (leavingRun 1) [page] (.last hpage hnext) (by simpa using hunhurried)
    "\\\\fs\\s\\b" (by decide +kernel)
  have hkeys : page.deltas.map (·.resourceKey) = ["\\\\fs\\s\\a"] := congrArg Prod.fst houtline
  rw [reports, List.flatMap_cons, List.flatMap_nil, List.append_nil, hkeys] at hlost
  exact absurd hlost (by decide)

end Adg.SubjectPaging
