import Adg.ClosureSteps

/-!
# What lies inside a scope

A scope is a server, a share, a directory with what is beneath it, the groups of
a host or a domain. A row is inside by its own columns, and the entries of a
share, a resource or a group are inside with it. The candidates of a scope are
the stored rows inside it, where the domains of a domain scope are taken to be
those of the principals that the run reported.
-/

set_option autoImplicit false

namespace Adg.ScopeBoundary
open Adg.Observation Adg.ObjectVersions Adg.KeyedTables Adg.VersionTable Adg.CurrentState
open Adg.ResourcePath Adg.ScopeClosure Adg.HistoryWriter Adg.HistorySteps Adg.ClosureSteps

abbrev Scope := ScopeKind × String

/-- At a directory or beneath it. A whole share is the directory of its root. -/
def InTree (casefold : String → String) (tree : UncPath) (entry : String × StoredRow) : Prop :=
  Database.column .ntfsResource entry "share_key" = some (tree.shareKey casefold) ∧
    (tree.isShareRoot = true ∨ entry.1 = tree.comparisonKey casefold ∨
      beneath (tree.comparisonKey casefold) entry.1 = true)

section Geometry
variable (casefold : String → String) (domains : List String)

/-- Inside by the row's own columns. -/
def OwnInside (scope : Scope) (kind : ObservationKind) (entry : String × StoredRow) : Prop :=
  match scope.1, kind with
  | .domain, .principal => Database.column kind entry "host_key" = none ∧
      ∃ d ∈ domains, Database.column kind entry "domain_sid" = some d
  | .localGroupsHost, .principal | .localGroupsHost, .membershipEdge =>
    Database.column kind entry "host_key" = some scope.2
  | .server, .server | .server, .smbShare | .server, .ntfsResource =>
    Database.column kind entry "server_key" = some scope.2
  | .share, .smbShare | .share, .ntfsResource =>
    Database.column kind entry "share_key" = some scope.2
  | .directoryTree, .ntfsResource => ∃ tree, parseUncPath scope.2 = .ok tree ∧
      InTree casefold tree entry
  | _, _ => False

/-- Inside with the stored row that a column names. -/
def Under (db : Database) (scope : Scope) (kind parent : ObservationKind) (column : String)
    (entry : String × StoredRow) : Prop :=
  ∃ e ∈ (db.current parent).entries, Database.column kind entry column = some e.1 ∧
    OwnInside casefold domains scope parent e

/-- Inside a scope, where `domains` are the ones a domain scope is about. -/
def Inside (db : Database) (scope : Scope) (kind : ObservationKind)
    (entry : String × StoredRow) : Prop :=
  match kind with
  | .smbAce => Under casefold domains db scope kind .smbShare "share_key" entry
  | .ntfsAce => Under casefold domains db scope kind .ntfsResource "resource_key" entry
  | .membershipEdge => OwnInside casefold domains scope kind entry ∨
      scope.1 = .domain ∧ Database.column kind entry "host_key" = none ∧
        Under casefold domains db scope kind .principal "group_key" entry
  | _ => OwnInside casefold domains scope kind entry

end Geometry

section Candidates
variable {casefold : String → String} {db : Database} {runId : RunId} {scopeKey : String}
  {rules : List ClosureRule} {subtree : Option Selector} {kind : ObservationKind} {key : String}

theorem mem_domainsObservedBy {d : String} : d ∈ domainsObservedBy db runId ↔
    ∃ e ∈ (db.current .principal).entries, db.observed runId .principal e.1 = true ∧
      textColumn e.2.columns "domain_sid" = some d := by
  unfold domainsObservedBy
  rw [List.mem_dedup, List.mem_filterMap]
  constructor
  · rintro ⟨e,he,hd⟩
    obtain ⟨hm,ho⟩ := List.mem_filter.mp he
    exact ⟨e,hm,ho,hd⟩
  · rintro ⟨e,hm,ho,hd⟩
    exact ⟨e,List.mem_filter.mpr ⟨hm,ho⟩,hd⟩

/-- The kind that a selector selects through. -/
def parentOf : Selector → Option ObservationKind
  | .viaParent _ parent _ => some parent
  | _ => none

/-- The candidates of a kind with a rule of its own. -/
theorem mem_candidates {rule : ClosureRule} {selector : Selector} {n : ℕ}
    (hfind : rules.find? (·.kind = kind) = some rule)
    (hsel : resolved rule.selector subtree = selector)
    (hown : parentOf selector = none) :
    key ∈ scopeCandidates db runId scopeKey rules subtree (n+1) kind ↔
      ∃ r, (key,r) ∈ (db.current kind).entries ∧
        selects db runId scopeKey kind selector [] (key,r) = true := by
  have hparents : ∀ column parent scoping, selector ≠ .viaParent column parent scoping := by
    rintro column parent scoping rfl
    cases hown
  simp only [scopeCandidates, hfind, hsel]
  rw [List.mem_map]
  constructor
  · rintro ⟨e,he,rfl⟩
    exact ⟨e.2,List.mem_filter.mp he⟩
  · rintro ⟨r,hr,hs⟩
    exact ⟨(key,r),List.mem_filter.mpr ⟨hr,hs⟩,rfl⟩

/-- The candidates of a kind that is selected through another. -/
theorem mem_candidates_via {rule : ClosureRule} {column : String} {parent : ObservationKind}
    {scoping : LocalScoping} {n : ℕ} (hfind : rules.find? (·.kind = kind) = some rule)
    (hsel : resolved rule.selector subtree = .viaParent column parent scoping) :
    key ∈ scopeCandidates db runId scopeKey rules subtree (n+1) kind ↔
      ∃ r, (key,r) ∈ (db.current kind).entries ∧
        (∃ k ∈ scopeCandidates db runId scopeKey rules subtree n parent,
          Database.column kind (key,r) column = some k) ∧
        inLocalScope kind (key,r) scoping = true := by
  simp only [scopeCandidates, hfind, hsel]
  rw [List.mem_map]
  have hselects : ∀ e : String × StoredRow, selects db runId scopeKey kind
      (.viaParent column parent scoping)
      (scopeCandidates db runId scopeKey rules subtree n parent) e = true ↔
      (∃ k ∈ scopeCandidates db runId scopeKey rules subtree n parent,
        Database.column kind e column = some k) ∧ inLocalScope kind e scoping = true := fun e => by
    unfold selects
    rw [Bool.and_eq_true, Option.any_eq_true]
    refine and_congr_left fun _ => ?_
    exact exists_congr fun k => by rw [decide_eq_true_eq, and_comm]
  constructor
  · rintro ⟨e,he,rfl⟩
    obtain ⟨hm,hs⟩ := List.mem_filter.mp he
    exact ⟨e.2,hm,(hselects e).mp hs⟩
  · rintro ⟨r,hr,hs⟩
    exact ⟨(key,r),List.mem_filter.mpr ⟨hr,(hselects (key,r)).mpr hs⟩,rfl⟩

/-- The boundary of a scope that was found. -/
theorem boundary_tree {subtree : Option Selector}
    (h : boundary casefold .directoryTree scopeKey = some subtree) :
    ∃ tree, parseUncPath scopeKey = .ok tree ∧ subtree = some
      (.directorySubtree (tree.comparisonKey casefold) (tree.shareKey casefold) tree.isShareRoot) := by
  unfold boundary directorySubtreeOf at h
  rw [if_pos rfl] at h
  cases hp : parseUncPath scopeKey with
  | error e => rw [hp] at h; cases h
  | ok tree =>
    rw [hp] at h
    exact ⟨tree,rfl,(Option.some.inj h).symm⟩

theorem selects_column {column : String} {entry : String × StoredRow} {parents : List String} :
    selects db runId scopeKey kind (.columnEquals column .any) parents entry = true ↔
      Database.column kind entry column = some scopeKey := by
  simp [selects, inLocalScope, scopingOf]

theorem selects_host {entry : String × StoredRow} {parents : List String} :
    selects db runId scopeKey kind (.columnEquals "host_key" .hostOnly) parents entry = true ↔
      Database.column kind entry "host_key" = some scopeKey := by
  simp only [selects, inLocalScope, scopingOf, Bool.and_eq_true, decide_eq_true_eq]
  exact ⟨fun h => h.1,fun h => ⟨h,by rw [h]; rfl⟩⟩

theorem selects_domain {entry : String × StoredRow} {parents : List String} :
    selects db runId scopeKey .principal (.runDomains "domain_sid" .domainOnly) parents entry = true ↔
      OwnInside casefold (domainsObservedBy db runId) (.domain,scopeKey) .principal entry := by
  simp only [selects, inLocalScope, scopingOf, Bool.and_eq_true, Option.any_eq_true,
    decide_eq_true_eq, Option.isNone_iff_eq_none]
  exact ⟨fun ⟨⟨d,hd,hin⟩,hhost⟩ => ⟨hhost,d,hin,hd⟩,fun ⟨hhost,d,hin,hd⟩ => ⟨⟨d,hd,hin⟩,hhost⟩⟩

theorem selects_tree {tree : UncPath} {entry : String × StoredRow} {parents : List String} :
    selects db runId scopeKey .ntfsResource (.directorySubtree (tree.comparisonKey casefold)
      (tree.shareKey casefold) tree.isShareRoot) parents entry = true ↔
      InTree casefold tree entry := by
  simp [selects, inLocalScope, scopingOf, InTree, or_assoc]

end Candidates

/-- Whether a kind is inside a scope by its own columns. -/
def ownColumns (scopeKind : ScopeKind) : ObservationKind → Bool
  | .smbAce | .ntfsAce => false
  | .membershipEdge => scopeKind ≠ .domain
  | _ => true

section Members
variable {casefold : String → String} {db : Database} {runId : RunId} {scope : Scope}
  {collector : CollectorKind} {subtree : Option Selector} {kind : ObservationKind} {key : String}

/-- The candidates that are selected by their own columns. -/
theorem mem_candidates_own (hb : boundary casefold scope.1 scope.2 = some subtree)
    (hk : kind ∈ (closureRulesFor collector scope.1).map (·.kind))
    (hown : ownColumns scope.1 kind = true) {n : ℕ} : key ∈ scopeCandidates db runId scope.2 (closureRulesFor collector scope.1) subtree
        (n+1) kind ↔ ∃ r, (key,r) ∈ (db.current kind).entries ∧
      OwnInside casefold (domainsObservedBy db runId) scope kind (key,r) := by
  obtain ⟨scopeKind,scopeKey⟩ := scope
  cases collector <;> cases scopeKind <;> try exact absurd hk List.not_mem_nil
  case activeDirectory.domain =>
    rcases List.mem_pair.mp hk with rfl | rfl
    · rw [mem_candidates rfl rfl rfl]
      exact exists_congr fun r => and_congr_right fun _ => selects_domain
    · cases hown
  case localGroups.localGroupsHost =>
    rcases List.mem_pair.mp hk with rfl | rfl <;> rw [mem_candidates rfl rfl rfl] <;>
      exact exists_congr fun r => and_congr_right fun _ => selects_host
  case smb.server =>
    rcases List.mem_cons.mp hk with rfl | hk
    · rw [mem_candidates rfl rfl rfl]
      exact exists_congr fun r => and_congr_right fun _ => selects_column
    · rcases List.mem_pair.mp hk with rfl | rfl
      · rw [mem_candidates rfl rfl rfl]
        exact exists_congr fun r => and_congr_right fun _ => selects_column
      · cases hown
  case smb.share =>
    rcases List.mem_pair.mp hk with rfl | rfl
    · rw [mem_candidates rfl rfl rfl]
      exact exists_congr fun r => and_congr_right fun _ => selects_column
    · cases hown
  case ntfs.server | ntfs.share =>
    rcases List.mem_pair.mp hk with rfl | rfl
    · rw [mem_candidates rfl rfl rfl]
      exact exists_congr fun r => and_congr_right fun _ => selects_column
    · cases hown
  case ntfs.directoryTree =>
    rcases List.mem_pair.mp hk with rfl | rfl
    · obtain ⟨tree,ht,rfl⟩ := boundary_tree hb
      rw [mem_candidates rfl rfl rfl]
      refine exists_congr fun r => and_congr_right fun _ => selects_tree.trans ?_
      constructor
      · exact fun hin => ⟨tree,ht,hin⟩
      · rintro ⟨other,ho,hin⟩
        obtain rfl : tree = other := Except.ok.inj (ht.symm.trans ho)
        exact hin
    · cases hown

/-- The candidates that are selected through a parent. -/
theorem mem_candidates_under (hb : boundary casefold scope.1 scope.2 = some subtree)
    {rule : ClosureRule} {column : String} {parent : ObservationKind} {scoping : LocalScoping}
    (hfind : (closureRulesFor collector scope.1).find? (·.kind = kind) = some rule)
    (hsel : resolved rule.selector subtree = .viaParent column parent scoping)
    (hk : parent ∈ (closureRulesFor collector scope.1).map (·.kind))
    (hown : ownColumns scope.1 parent = true) {n : ℕ} : key ∈ scopeCandidates db runId scope.2 (closureRulesFor collector scope.1) subtree
        (n+2) kind ↔ ∃ r, (key,r) ∈ (db.current kind).entries ∧
      Under casefold (domainsObservedBy db runId) db scope kind parent column (key,r) ∧
        inLocalScope kind (key,r) scoping = true := by
  rw [mem_candidates_via hfind hsel]
  refine exists_congr fun r => and_congr_right fun _ => and_congr_left fun _ => ?_
  constructor
  · rintro ⟨k,hmem,hcol⟩
    obtain ⟨p,hp,hin⟩ := (mem_candidates_own hb hk hown).mp hmem
    exact ⟨(k,p),hp,hcol,hin⟩
  · rintro ⟨e,he,hcol,hin⟩
    exact ⟨e.1,(mem_candidates_own hb hk hown).mpr ⟨e.2,he,hin⟩,hcol⟩

/-- The candidates of a reconcilable kind are the stored rows inside the scope. -/
theorem mem_scopeCandidates (hb : boundary casefold scope.1 scope.2 = some subtree)
    (hk : kind ∈ (closureRulesFor collector scope.1).map (·.kind)) :
    key ∈ scopeCandidates db runId scope.2 (closureRulesFor collector scope.1) subtree
        (closureRulesFor collector scope.1).length kind ↔
      ∃ r, (key,r) ∈ (db.current kind).entries ∧
        Inside casefold (domainsObservedBy db runId) db scope kind (key,r) := by
  by_cases hown : ownColumns scope.1 kind = true
  · have hlength : 0 < (closureRulesFor collector scope.1).length := by
      obtain ⟨rule,hrule,-⟩ := List.mem_map.mp hk
      exact List.length_pos_of_mem hrule
    obtain ⟨n,hn⟩ := Nat.exists_eq_add_of_le' hlength
    rw [hn, mem_candidates_own hb hk hown]
    refine exists_congr fun r => and_congr_right fun _ => ?_
    cases kind with
    | smbAce | ntfsAce => cases hown
    | membershipEdge => exact ⟨.inl,fun h => h.resolve_right fun hd => of_decide_eq_true hown hd.1⟩
    | _ => exact Iff.rfl
  · obtain ⟨scopeKind,scopeKey⟩ := scope
    cases collector <;> cases scopeKind <;> try exact absurd hk List.not_mem_nil
    case activeDirectory.domain =>
      have hkind : kind = .principal ∨ kind = .membershipEdge := List.mem_pair.mp hk
      rcases hkind with rfl | rfl
      · exact absurd rfl hown
      · refine (mem_candidates_under hb rfl rfl List.mem_cons_self rfl).trans (exists_congr fun r => and_congr_right fun _ => ?_)
        constructor
        · exact fun ⟨hu,hh⟩ => .inr ⟨rfl,Option.isNone_iff_eq_none.mp hh,hu⟩
        · rintro (hin | ⟨-,hh,hu⟩)
          · exact hin.elim
          · exact ⟨hu,Option.isNone_iff_eq_none.mpr hh⟩
    case localGroups.localGroupsHost =>
      have hkind : kind = .principal ∨ kind = .membershipEdge := List.mem_pair.mp hk
      rcases hkind with rfl | rfl <;> exact absurd rfl hown
    case smb.server =>
      have hkind : kind = .server ∨ kind = .smbShare ∨ kind = .smbAce := by
        simpa [closureRulesFor, smbServer] using hk
      rcases hkind with rfl | rfl | rfl
      · exact absurd rfl hown
      · exact absurd rfl hown
      · exact (mem_candidates_under hb rfl rfl (List.mem_cons_of_mem _ List.mem_cons_self)
          rfl).trans
            (exists_congr fun r => and_congr_right fun _ => and_iff_left rfl)
    case smb.share =>
      have hkind : kind = .smbShare ∨ kind = .smbAce := List.mem_pair.mp hk
      rcases hkind with rfl | rfl
      · exact absurd rfl hown
      · exact (mem_candidates_under hb rfl rfl List.mem_cons_self rfl).trans
            (exists_congr fun r => and_congr_right fun _ => and_iff_left rfl)
    case ntfs.server | ntfs.share | ntfs.directoryTree =>
      have hkind : kind = .ntfsResource ∨ kind = .ntfsAce := List.mem_pair.mp hk
      rcases hkind with rfl | rfl
      · exact absurd rfl hown
      · exact (mem_candidates_under hb rfl rfl List.mem_cons_self rfl).trans
            (exists_congr fun r => and_congr_right fun _ => and_iff_left rfl)

/-- A scope without a boundary holds nothing. -/
theorem ownInside_bounded {domains : List String} {entry : String × StoredRow}
    (h : OwnInside casefold domains scope kind entry) :
    ∃ subtree, boundary casefold scope.1 scope.2 = some subtree := by
  obtain ⟨scopeKind,scopeKey⟩ := scope
  cases scopeKind with
  | directoryTree =>
    obtain ⟨tree,ht⟩ : ∃ tree, parseUncPath scopeKey = .ok tree := by
      cases kind with
      | ntfsResource =>
        obtain ⟨tree,ht,-⟩ := h
        exact ⟨tree,ht⟩
      | _ => exact False.elim h
    exact ⟨_,by
      unfold boundary directorySubtreeOf
      rw [if_pos rfl, ht]
      rfl⟩
  | domain | server | share | localGroupsHost => exact ⟨none,rfl⟩

theorem inside_bounded {domains : List String} {entry : String × StoredRow}
    (h : Inside casefold domains db scope kind entry) :
    ∃ subtree, boundary casefold scope.1 scope.2 = some subtree := by
  cases kind with
  | smbAce | ntfsAce =>
    obtain ⟨e,-,-,he⟩ := h
    exact ownInside_bounded he
  | membershipEdge =>
    rcases h with h | ⟨-,-,e,-,-,he⟩
    · exact ownInside_bounded h
    · exact ownInside_bounded he
  | principal | server | smbShare | ntfsResource => exact ownInside_bounded h

/-- A version is lost to a scope when its object is inside, its kind is one the
scope closes, the run did not observe it and nothing newer confirmed it. -/
theorem lostToScope_iff {completedAt : Instant} {v : ObjectVersion} :
    lostToScope casefold db runId collector scope.1 scope.2 completedAt v = true ↔
      v.isOpen = true ∧ v.lastSeenAt ≤ completedAt ∧
      v.kind ∈ (closureRulesFor collector scope.1).map (·.kind) ∧
      db.observed runId v.kind v.key = false ∧
      ∃ r, db.row v.kind v.key = some r ∧
        Inside casefold (domainsObservedBy db runId) db scope v.kind (v.key,r) := by
  have hrow : ∀ r, db.row v.kind v.key = some r ↔ (v.key,r) ∈ (db.current v.kind).entries :=
    fun r => KeyedTable.get?_eq_some
  unfold lostToScope
  cases hb : boundary casefold scope.1 scope.2 with
  | none =>
    refine iff_of_false Bool.false_ne_true ?_
    rintro ⟨-,-,-,-,r,-,hin⟩
    obtain ⟨subtree,hs⟩ := inside_bounded hin
    cases hb.symm.trans hs
  | some subtree =>
    show lost _ _ _ _ _ _ _ _ = true ↔ _
    rw [lost_iff]
    simp only [hrow]
    constructor
    · rintro ⟨hk,-,hopen,hle,hmem,ho⟩
      exact ⟨hopen,hle,hk,ho,(mem_scopeCandidates hb hk).mp hmem⟩
    · rintro ⟨hopen,hle,hk,ho,hin⟩
      exact ⟨hk,rfl,hopen,hle,(mem_scopeCandidates hb hk).mpr hin,ho⟩

end Members


end Adg.ScopeBoundary
