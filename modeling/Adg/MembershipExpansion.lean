import Adg.Observation
import Adg.SortedLists

/-!
# Expanding groups level by level

A level reads the members of all groups it has reached, in key order and no
more than are left of a ceiling. Where the ceiling cuts a level, one group is
marked; what stands after it in the level is not read at all. The rule about
empty groups asks whether a list is empty, not whether it was cut.
-/

set_option autoImplicit false

namespace Adg.MembershipExpansion
open Adg.Observation Adg.SortedLists

/-! ### The walk -/

def maxEdges : ℕ := 50000
def maxMembershipDepth : ℤ := 8

/-- A group and a member of it. -/
abbrev Edge := String × String

structure MembershipFacts where
  groupKey : String
  memberKeys : List String := []
  enumerated : Option Bool := none
  truncated : Bool := false
  deriving DecidableEq, Repr

/-- `is_empty`. -/
def MembershipFacts.isEmpty (m : MembershipFacts) : Bool := m.memberKeys = []

/-- Where the walk stands: the rows it has read, the groups it has marked, what it reads next. -/
structure Expansion where
  rows : List Edge
  truncatedGroups : List String
  edgesRead : ℕ
  frontier : Finset String
  visited : Finset String

section Walk
variable (edges : List Edge)

/-- The rows of some groups, in key order. -/
def rowsOf (groups : Finset String) : List Edge :=
  sortedBy (fun e : Edge => toLex e) (edges.filter (·.1 ∈ groups))

/-- One level, or nothing where the walk ends. -/
def level (s : Expansion) : Option Expansion :=
  let frontier := s.frontier \ s.visited
  if frontier = ∅ ∨ maxEdges ≤ s.edgesRead then none
  else
    let remaining := maxEdges-s.edgesRead
    let rows := (rowsOf edges frontier).take (remaining+1)
    let read := rows.take remaining
    some
      { rows := s.rows ++ read
        truncatedGroups := s.truncatedGroups ++ (rows.drop remaining).map (·.1)
        edgesRead := s.edgesRead+read.length
        frontier := (read.map (·.2)).toFinset
        visited := s.visited ∪ frontier }

/-- The levels of the walk, as many as are allowed. -/
def expand : ℕ → Expansion → Expansion
  | 0, s => s
  | n+1, s => match level edges s with
    | none => s
    | some s' => expand n s'

def start (trustees : List String) : Expansion where
  rows := []
  truncatedGroups := []
  edgesRead := 0
  frontier := trustees.toFinset
  visited := ∅

/-- How many levels a depth allows. -/
def levels (depth : ℤ) : ℕ := (max 0 (min depth maxMembershipDepth)).toNat

/-- The record of a group. -/
def recordOf (found : String → Bool) (s : Expansion) (key : String) : MembershipFacts where
  groupKey := key
  memberKeys := (s.rows.filter (·.1 = key)).map (·.2)
  enumerated := some (found key)
  truncated := key ∈ s.truncatedGroups

/-- `_memberships`. What the enumerating runs reported is `found`. -/
def memberships (found : String → Bool) (trustees : List String) (depth : ℤ) :
    List MembershipFacts × Bool :=
  let s := expand edges (levels depth) (start trustees)
  let keys := (s.visited ∪ trustees.toFinset).sort (· ≤ ·)
  (keys.map (recordOf found s), s.truncatedGroups ≠ [])

end Walk

/-! ### The rule about empty groups -/

structure AceFacts where
  aceKey : String
  trusteeKey : String
  aceType : AceType
  aceFlags : AceFlags := 0

def AceFacts.isAllow (a : AceFacts) : Bool := a.aceType = .allow

def AceFacts.appliesToThisObject (a : AceFacts) : Bool := a.aceFlags &&& AceFlag.inheritOnly = 0

structure ResourceFacts where
  resourceKey : String
  aces : List AceFacts

structure ShareFacts where
  shareKey : String
  aclObserved : Bool := true
  aces : List AceFacts

structure PrincipalFacts where
  key : String
  sid : String
  kind : PrincipalKind
  displayName : Option String := none
  samAccountName : Option String := none

def PrincipalFacts.isGroup (p : PrincipalFacts) : Bool := p.kind ∈ [.domainGroup,.localGroup]

def PrincipalFacts.label (p : PrincipalFacts) : String :=
  if p.displayName.any (· ≠ "") then p.displayName.getD ""
  else if p.samAccountName.any (· ≠ "") then p.samAccountName.getD ""
  else p.sid

structure RiskFacts where
  resources : List ResourceFacts
  shares : List ShareFacts
  principals : String → Option PrincipalFacts
  memberships : List MembershipFacts

def RiskFacts.membership (f : RiskFacts) (key : String) : Option MembershipFacts :=
  f.memberships.find? (·.groupKey = key)

/-- `_Acl`, by its layer and its key. -/
structure Acl where
  layer : String
  key : String
  aces : List AceFacts

/-- `_acls`: a share whose list nobody has read is left out. -/
def acls (f : RiskFacts) : List Acl :=
  (sortedBy (·.resourceKey) f.resources).map (fun r => ⟨"ntfs",r.resourceKey,r.aces⟩) ++
    ((sortedBy (·.shareKey) f.shares).filter (·.aclObserved)).map fun s =>
      ⟨"smb_share",s.shareKey,s.aces⟩

/-- The trustees that the entries of a list allow something on its object. -/
def Acl.allowed (a : Acl) : List String :=
  (a.aces.filter fun e => e.isAllow && e.appliesToThisObject).map (·.trusteeKey)

/-- `_trustee_index`: the lists that name a trustee, one for each layer and key. -/
def trusteeIndex (f : RiskFacts) : List (String × List Acl) :=
  let trustees := ((acls f).flatMap Acl.allowed).toFinset.sort (· ≤ ·)
  trustees.map fun t =>
    let naming := (acls f).filter (t ∈ ·.allowed)
    let places := (naming.map fun a => toLex (a.layer,a.key)).toFinset.sort (· ≤ ·)
    (t,places.filterMap fun place => naming.find? fun a => toLex (a.layer,a.key) = place)

structure EmptyGroupOutcome where
  principalKey : String
  groupLabel : String
  groupSid : String
  resources : List String

/-- What the rule says of one trustee and the lists that name it. -/
def emptyGroup (f : RiskFacts) (trustee : String) (lists : List Acl) : Option EmptyGroupOutcome :=
  match f.membership trustee, f.principals trustee with
  | some membership, some principal =>
    if membership.enumerated = some true && membership.isEmpty && principal.isGroup then some
      { principalKey := trustee
        groupLabel := principal.label
        groupSid := principal.sid
        resources := lists.map (·.key) }
    else none
  | _, _ => none

/-- `EmptyPermissionBearingGroup.evaluate`. -/
def emptyGroups (f : RiskFacts) : List EmptyGroupOutcome :=
  (trusteeIndex f).filterMap fun entry => emptyGroup f entry.1 entry.2

/-! ### Whole levels -/

section Levels
variable (edges : List Edge) (trustees : List String)

/-- The groups that a level reaches first, and those of the levels before. -/
def wave : ℕ → Finset String × Finset String
  | 0 => (trustees.toFinset,∅)
  | n+1 =>
    let reached := (wave n).2 ∪ (wave n).1
    (((rowsOf edges (wave n).1).map (·.2)).toFinset \ reached,reached)

def layer (n : ℕ) : Finset String := (wave edges trustees n).1
def seen (n : ℕ) : Finset String := (wave edges trustees n).2

/-- The rows of a level. -/
def levelRows (n : ℕ) : List Edge := rowsOf edges (layer edges trustees n)

/-- The rows of the levels before. -/
def rowsBefore : ℕ → List Edge
  | 0 => []
  | n+1 => rowsBefore n ++ levelRows edges trustees n

/-- How many rows the levels before have. -/
def spent (n : ℕ) : ℕ := (rowsBefore edges trustees n).length

/-- Where the ceiling cuts a level, it cuts within its last group: a group that has rows after
the cut has rows before it. -/
def CutWithin (n : ℕ) : Prop :=
  ∀ e ∈ (levelRows edges trustees n).drop (maxEdges-spent edges trustees n),
    ∃ e' ∈ (levelRows edges trustees n).take (maxEdges-spent edges trustees n), e'.1 = e.1

end Levels

section Facts
variable {edges : List Edge} {trustees : List String}

theorem mem_rowsOf {groups : Finset String} {e : Edge} :
    e ∈ rowsOf edges groups ↔ e ∈ edges ∧ e.1 ∈ groups := by
  unfold rowsOf
  rw [mem_sortedBy, List.mem_filter, decide_eq_true_eq]

theorem mem_levelRows {n : ℕ} {e : Edge} :
    e ∈ levelRows edges trustees n ↔ e ∈ edges ∧ e.1 ∈ layer edges trustees n := mem_rowsOf

theorem seen_succ (n : ℕ) :
    seen edges trustees (n+1) = seen edges trustees n ∪ layer edges trustees n := rfl

theorem layer_succ (n : ℕ) : layer edges trustees (n+1) =
    ((levelRows edges trustees n).map (·.2)).toFinset \ seen edges trustees (n+1) := rfl

theorem mem_rowsBefore {n : ℕ} {e : Edge} :
    e ∈ rowsBefore edges trustees n ↔ e ∈ edges ∧ e.1 ∈ seen edges trustees n := by
  induction n with
  | zero =>
    constructor
    · intro h
      cases h
    · intro h
      exact absurd h.2 (Finset.notMem_empty _)
  | succ n ih =>
    show e ∈ rowsBefore edges trustees n ++ levelRows edges trustees n ↔ _
    rw [List.mem_append, ih, mem_levelRows, seen_succ, Finset.mem_union]
    exact and_or_left.symm

theorem spent_succ (n : ℕ) : spent edges trustees (n+1) =
    spent edges trustees n+(levelRows edges trustees n).length := List.length_append

theorem spent_mono {m n : ℕ} (h : m ≤ n) : spent edges trustees m ≤ spent edges trustees n := by
  induction h with
  | refl => exact le_rfl
  | step _ ih =>
    rw [spent_succ]
    omega

theorem layer_empty {m n : ℕ} (h : m ≤ n) (hm : layer edges trustees m = ∅) :
    layer edges trustees n = ∅ := by
  induction h with
  | refl => exact hm
  | @step n _ ih =>
    have hrows : levelRows edges trustees n = [] := by
      apply List.eq_nil_iff_forall_not_mem.mpr
      intro e he
      have hlayer := (mem_levelRows.mp he).2
      rw [ih] at hlayer
      exact Finset.notMem_empty _ hlayer
    rw [layer_succ, hrows]
    exact Finset.empty_sdiff _

theorem trustees_seen {n : ℕ} (h : 0 < n) : trustees.toFinset ⊆ seen edges trustees n := by
  induction n with
  | zero => cases h
  | succ n ih =>
    rw [seen_succ]
    rcases Nat.eq_zero_or_pos n with rfl | hn
    · exact Finset.subset_union_right
    · exact (ih hn).trans Finset.subset_union_left

/-- The walk after a number of levels, none of which was cut. -/
structure Whole (edges : List Edge) (trustees : List String) (n : ℕ) (s : Expansion) : Prop where
  rows : s.rows = rowsBefore edges trustees n
  truncated : s.truncatedGroups = []
  edgesRead : s.edgesRead = spent edges trustees n
  visited : s.visited = seen edges trustees n
  frontier : s.frontier \ seen edges trustees n = layer edges trustees n

theorem whole_start : Whole edges trustees 0 (start trustees) :=
  ⟨rfl,rfl,rfl,rfl,Finset.sdiff_empty⟩

/-- The walk after a level that the ceiling cut. -/
structure Cut (edges : List Edge) (trustees : List String) (n : ℕ) (s : Expansion) : Prop where
  room : spent edges trustees n < maxEdges
  long : maxEdges-spent edges trustees n < (levelRows edges trustees n).length
  rows : s.rows = rowsBefore edges trustees n ++
    (levelRows edges trustees n).take (maxEdges-spent edges trustees n)
  truncated : s.truncatedGroups =
    (((levelRows edges trustees n).drop (maxEdges-spent edges trustees n)).take 1).map (·.1)
  visited : s.visited = seen edges trustees (n+1)

/-- A level ends the walk, or is read whole, or is cut. -/
theorem level_cases {n : ℕ} {s : Expansion} (h : Whole edges trustees n s) :
    (level edges s = none ∧
      (layer edges trustees n = ∅ ∨ maxEdges ≤ spent edges trustees n)) ∨
    (∃ s', level edges s = some s' ∧ Whole edges trustees (n+1) s' ∧
      spent edges trustees (n+1) ≤ maxEdges) ∨
    ∃ s', level edges s = some s' ∧ Cut edges trustees n s' ∧ maxEdges ≤ s'.edgesRead := by
  unfold level
  simp only [h.visited, h.frontier, h.edgesRead, h.rows, h.truncated]
  by_cases hend : layer edges trustees n = ∅ ∨ maxEdges ≤ spent edges trustees n
  · exact .inl ⟨if_pos hend,hend⟩
  · right
    rw [if_neg hend]
    have hroom : spent edges trustees n < maxEdges := not_le.mp fun hfull => hend (.inr hfull)
    have hrows : rowsOf edges (layer edges trustees n) = levelRows edges trustees n := rfl
    rw [hrows]
    have htake : ((levelRows edges trustees n).take (maxEdges-spent edges trustees n+1)).take
        (maxEdges-spent edges trustees n) =
        (levelRows edges trustees n).take (maxEdges-spent edges trustees n) := by
      rw [List.take_take, Nat.min_eq_left (Nat.le_succ _)]
    have hdrop : ((levelRows edges trustees n).take (maxEdges-spent edges trustees n+1)).drop
        (maxEdges-spent edges trustees n) =
        ((levelRows edges trustees n).drop (maxEdges-spent edges trustees n)).take 1 := by
      rw [List.drop_take, Nat.add_sub_cancel_left]
    rw [htake, hdrop]
    by_cases hlong : maxEdges-spent edges trustees n < (levelRows edges trustees n).length
    · right
      refine ⟨_,rfl,⟨hroom,hlong,rfl,List.nil_append _,rfl⟩,?_⟩
      show maxEdges ≤ spent edges trustees n+((levelRows edges trustees n).take _).length
      rw [List.length_take]
      omega
    · left
      have hall : (levelRows edges trustees n).take (maxEdges-spent edges trustees n) =
          levelRows edges trustees n := List.take_of_length_le (not_lt.mp hlong)
      have hnone : (levelRows edges trustees n).drop (maxEdges-spent edges trustees n) = [] :=
        List.drop_eq_nil_iff.mpr (not_lt.mp hlong)
      rw [hall, hnone]
      refine ⟨_,rfl,⟨rfl,rfl,(spent_succ n).symm,rfl,rfl⟩,?_⟩
      rw [spent_succ]
      omega

theorem expand_ended {n : ℕ} {s : Expansion} (h : level edges s = none) : expand edges n s = s := by
  cases n with
  | zero => rfl
  | succ n =>
    show (match level edges s with
      | none => s
      | some s' => expand edges n s') = s
    rw [h]

/-- The walk reads whole levels as far as it goes, and ends at the one that is cut. -/
theorem expand_cases {k n : ℕ} {s : Expansion} (h : Whole edges trustees n s) :
    (∃ m, n ≤ m ∧ m ≤ n+k ∧ Whole edges trustees m (expand edges k s) ∧
      (∀ i, n ≤ i → i < m → spent edges trustees (i+1) ≤ maxEdges) ∧
      (m = n+k ∨ layer edges trustees m = ∅ ∨ maxEdges ≤ spent edges trustees m)) ∨
    ∃ m, n ≤ m ∧ m < n+k ∧ Cut edges trustees m (expand edges k s) := by
  induction k generalizing n s with
  | zero => exact .inl ⟨n,le_rfl,le_rfl,h,fun i hi hm => absurd hm (not_lt.mpr hi),.inl rfl⟩
  | succ k ih =>
    rcases level_cases h with ⟨hnone,hend⟩ | ⟨s',hsome,hwhole,hfits⟩ | ⟨s',hsome,hcut,hfull⟩
    · left
      rw [expand_ended hnone]
      exact ⟨n,le_rfl,Nat.le_add_right _ _,h,fun i hi hm => absurd hm (not_lt.mpr hi),.inr hend⟩
    · have hstep : expand edges (k+1) s = expand edges k s' := by
        show (match level edges s with
          | none => s
          | some s' => expand edges k s') = _
        rw [hsome]
      rw [hstep]
      rcases ih hwhole with ⟨m,hn,hm,hw,hfit,hend⟩ | ⟨m,hn,hm,hc⟩
      · left
        refine ⟨m,by omega,by omega,hw,fun i hi him => ?_,hend.imp_left (by omega)⟩
        rcases Nat.eq_or_lt_of_le hi with rfl | hlt
        · exact hfits
        · exact hfit i hlt him
      · exact .inr ⟨m,by omega,by omega,hc⟩
    · right
      have hstop : level edges s' = none := by
        unfold level
        exact if_pos (.inr hfull)
      have hstep : expand edges (k+1) s = s' := by
        show (match level edges s with
          | none => s
          | some s' => expand edges k s') = _
        rw [hsome]
        exact expand_ended hstop
      rw [hstep]
      exact ⟨n,le_rfl,by omega,hcut⟩

end Facts

/-! ### Lists that are not marked -/

/-- What the records of an expansion say of the groups. -/
structure Complete (edges : List Edge) (trustees : List String) (depth : ℤ) : Prop where
  /-- A list that is not marked holds the direct members of its group. -/
  lists : ∀ found, ∀ r ∈ (memberships edges found trustees depth).1, r.truncated = false →
    ∀ m, m ∈ r.memberKeys ↔ (r.groupKey,m) ∈ edges
  /-- The rule about empty groups does not fire on a group that has a member. -/
  quiet : ∀ found (f : RiskFacts), f.memberships = (memberships edges found trustees depth).1 →
    ∀ o ∈ emptyGroups f, ∀ m, (o.principalKey,m) ∉ edges
  /-- Where a list is short, the second result says so. -/
  told : ∀ found, ∀ r ∈ (memberships edges found trustees depth).1,
    (∃ m, (r.groupKey,m) ∈ edges ∧ m ∉ r.memberKeys) →
    (memberships edges found trustees depth).2 = true

/-- Some level is read, or there is nothing to read; and no level is cut before its last group. -/
structure CleanlyCut (edges : List Edge) (trustees : List String) (depth : ℤ) : Prop where
  unread : levels depth = 0 → ∀ t ∈ trustees, ∀ m, (t,m) ∉ edges
  within : ∀ n < levels depth, spent edges trustees n < maxEdges → CutWithin edges trustees n

section Records
variable {edges : List Edge} {trustees : List String} {depth : ℤ} {found : String → Bool}

/-- Where the walk ends. -/
def ended (edges : List Edge) (trustees : List String) (depth : ℤ) : Expansion :=
  expand edges (levels depth) (start trustees)

theorem mem_memberships {r : MembershipFacts} :
    r ∈ (memberships edges found trustees depth).1 ↔
      (r.groupKey ∈ (ended edges trustees depth).visited ∨ r.groupKey ∈ trustees) ∧
        r = recordOf found (ended edges trustees depth) r.groupKey := by
  unfold memberships
  rw [List.mem_map]
  constructor
  · rintro ⟨key,hkey,rfl⟩
    rw [Finset.mem_sort, Finset.mem_union, List.mem_toFinset] at hkey
    exact ⟨hkey,rfl⟩
  · rintro ⟨hkey,hr⟩
    refine ⟨r.groupKey,?_,hr.symm⟩
    rw [Finset.mem_sort, Finset.mem_union, List.mem_toFinset]
    exact hkey

theorem mem_memberKeys {s : Expansion} {key m : String} :
    m ∈ (recordOf found s key).memberKeys ↔ (key,m) ∈ s.rows := by
  show m ∈ (s.rows.filter (·.1 = key)).map (·.2) ↔ _
  rw [List.mem_map]
  constructor
  · rintro ⟨e,he,rfl⟩
    obtain ⟨hrow,hkey⟩ := List.mem_filter.mp he
    rw [← of_decide_eq_true hkey]
    exact hrow
  · intro h
    exact ⟨(key,m),List.mem_filter.mpr ⟨h,decide_eq_true rfl⟩,rfl⟩

/-- What the rule fires on has an empty list. -/
theorem fired_empty {f : RiskFacts} (hf : f.memberships = (memberships edges found trustees depth).1)
    {o : EmptyGroupOutcome} (ho : o ∈ emptyGroups f) :
    (o.principalKey ∈ (ended edges trustees depth).visited ∨ o.principalKey ∈ trustees) ∧
      ∀ m, (o.principalKey,m) ∉ (ended edges trustees depth).rows := by
  obtain ⟨entry,-,hfired⟩ := List.mem_filterMap.mp ho
  unfold emptyGroup at hfired
  split at hfired
  · rename_i membership principal hmembership hprincipal
    split_ifs at hfired with hcheck
    rw [Bool.and_eq_true, Bool.and_eq_true] at hcheck
    have hkey : entry.1 = o.principalKey := by rw [← Option.some.inj hfired]
    unfold RiskFacts.membership at hmembership
    have hmem := List.mem_of_find?_eq_some hmembership
    have hgroup : membership.groupKey = entry.1 := by simpa using List.find?_some hmembership
    rw [hf] at hmem
    obtain ⟨hvisited,hrecord⟩ := mem_memberships.mp hmem
    rw [hgroup, hkey] at hvisited hrecord
    refine ⟨hvisited,fun m hm => ?_⟩
    have hlisted := (@mem_memberKeys found _ _ _).mpr hm
    rw [← hrecord] at hlisted
    have hempty : membership.memberKeys = [] := of_decide_eq_true hcheck.1.2
    rw [hempty] at hlisted
    cases hlisted
  · cases hfired

/-- The record of a group is found under its key. -/
theorem membership_found {f : RiskFacts}
    (hf : f.memberships = (memberships edges found trustees depth).1) {g : String}
    (hkey : g ∈ (ended edges trustees depth).visited ∨ g ∈ trustees) :
    f.membership g = some (recordOf found (ended edges trustees depth) g) := by
  have hmem : recordOf found (ended edges trustees depth) g ∈ f.memberships := by
    rw [hf]
    exact mem_memberships.mpr ⟨hkey,rfl⟩
  unfold RiskFacts.membership
  cases hfind : f.memberships.find? fun r => decide (r.groupKey = g) with
  | none =>
    have hnone := List.find?_eq_none.mp hfind _ hmem
    exact absurd (decide_eq_true rfl) hnone
  | some r =>
    have hgroup : r.groupKey = g := by simpa using List.find?_some hfind
    have hr := List.mem_of_find?_eq_some hfind
    rw [hf] at hr
    rw [(mem_memberships.mp hr).2, hgroup]

/-- A share whose one entry allows something to one group. -/
def sharing (g : String) (records : List MembershipFacts) : RiskFacts where
  resources := []
  shares := [⟨"share",true,[⟨"entry",g,.allow,0⟩]⟩]
  principals := fun key => some ⟨key,key,.domainGroup,none,none⟩
  memberships := records

/-- The rule fires on a group that is named on a list, and whose list of members is empty. -/
theorem fires_on {g : String} (hkey : g ∈ (ended edges trustees depth).visited ∨ g ∈ trustees)
    (hempty : ∀ m, (g,m) ∉ (ended edges trustees depth).rows) :
    ∃ f : RiskFacts, f.memberships = (memberships edges (fun _ => true) trustees depth).1 ∧
      ∃ o ∈ emptyGroups f, o.principalKey = g := by
  refine ⟨sharing g (memberships edges (fun _ => true) trustees depth).1,rfl,?_⟩
  have hacls : acls (sharing g (memberships edges (fun _ => true) trustees depth).1) =
      [⟨"smb_share","share",[⟨"entry",g,.allow,0⟩]⟩] := rfl
  have hnamed : g ∈ (acls (sharing g (memberships edges (fun _ => true) trustees depth).1)).flatMap
      Acl.allowed := by
    rw [hacls]
    simp [Acl.allowed, AceFacts.isAllow, AceFacts.appliesToThisObject]
  have hindex : ∃ lists, (g,lists) ∈
      trusteeIndex (sharing g (memberships edges (fun _ => true) trustees depth).1) := by
    refine ⟨_,List.mem_map.mpr ⟨g,?_,rfl⟩⟩
    rw [Finset.mem_sort, List.mem_toFinset]
    exact hnamed
  obtain ⟨lists,hlists⟩ := hindex
  have hrecord := @membership_found edges trustees depth (fun _ => true)
    (sharing g (memberships edges (fun _ => true) trustees depth).1) rfl g hkey
  have hlist : (recordOf (fun _ => true) (ended edges trustees depth) g).isEmpty = true := by
    apply decide_eq_true
    apply List.eq_nil_iff_forall_not_mem.mpr
    intro m hm
    exact hempty m (mem_memberKeys.mp hm)
  refine ⟨⟨g,g,g,lists.map (·.key)⟩,List.mem_filterMap.mpr ⟨(g,lists),hlists,?_⟩,rfl⟩
  have hprincipal : (sharing g (memberships edges (fun _ => true) trustees depth).1).principals g =
      some ⟨g,g,.domainGroup,none,none⟩ := rfl
  unfold emptyGroup
  simp only [hrecord, hprincipal]
  rw [if_pos]
  · rfl
  · rw [hlist]
    rfl

/-- A walk that was not cut: what its levels reached is listed whole. -/
theorem whole_listed {m : ℕ} (h : Whole edges trustees m (ended edges trustees depth))
    (hread : 0 < m ∨ trustees = []) {g : String}
    (hkey : g ∈ (ended edges trustees depth).visited ∨ g ∈ trustees) (x : String) :
    (g,x) ∈ (ended edges trustees depth).rows ↔ (g,x) ∈ edges := by
  have hseen : g ∈ seen edges trustees m := by
    rcases hkey with hkey | hkey
    · rw [← h.visited]
      exact hkey
    · rcases hread with hpos | hnone
      · exact trustees_seen hpos (List.mem_toFinset.mpr hkey)
      · rw [hnone] at hkey
        cases hkey
  rw [h.rows, mem_rowsBefore]
  exact ⟨fun hrow => hrow.1,fun hedge => ⟨hedge,hseen⟩⟩

/-- A walk that was cut: a group of the level that was cut has the rows before the cut. -/
theorem cut_listed {m : ℕ} (h : Cut edges trustees m (ended edges trustees depth)) {g : String}
    (hkey : g ∈ (ended edges trustees depth).visited ∨ g ∈ trustees) {x : String}
    (hedge : (g,x) ∈ edges) : (g,x) ∈ (ended edges trustees depth).rows ∨
      (g,x) ∈ (levelRows edges trustees m).drop (maxEdges-spent edges trustees m) := by
  have hseen : g ∈ seen edges trustees (m+1) := by
    rcases hkey with hkey | hkey
    · rw [← h.visited]
      exact hkey
    · exact trustees_seen (Nat.succ_pos m) (List.mem_toFinset.mpr hkey)
  rw [h.rows, List.mem_append, mem_rowsBefore]
  rw [seen_succ, Finset.mem_union] at hseen
  rcases hseen with hseen | hlayer
  · exact .inl (.inl ⟨hedge,hseen⟩)
  · have hrow : (g,x) ∈ levelRows edges trustees m := mem_levelRows.mpr ⟨hedge,hlayer⟩
    rw [← List.take_append_drop (maxEdges-spent edges trustees m) (levelRows edges trustees m),
      List.mem_append] at hrow
    exact hrow.imp_left .inr

/-- Where the cut falls within the last group, that group is marked. -/
theorem cut_marked {m : ℕ} (h : Cut edges trustees m (ended edges trustees depth))
    (hwithin : CutWithin edges trustees m) {g x : String}
    (hrow : (g,x) ∈ (levelRows edges trustees m).drop (maxEdges-spent edges trustees m)) :
    g ∈ (ended edges trustees depth).truncatedGroups ∧
      ∃ y, (g,y) ∈ (ended edges trustees depth).rows := by
  obtain ⟨e,he,hsame⟩ := hwithin _ hrow
  have hsorted : (levelRows edges trustees m).Pairwise fun a b : Edge => toLex a ≤ toLex b :=
    sortedBy_ordered _ _
  rw [← List.take_append_drop (maxEdges-spent edges trustees m) (levelRows edges trustees m)]
    at hsorted
  obtain ⟨-,hdrop,hacross⟩ := List.pairwise_append.mp hsorted
  refine ⟨?_,e.2,?_⟩
  · rw [h.truncated]
    cases hlist : (levelRows edges trustees m).drop (maxEdges-spent edges trustees m) with
    | nil =>
      rw [hlist] at hrow
      cases hrow
    | cons first rest =>
      rw [hlist] at hrow hdrop hacross
      have hlow : toLex e ≤ toLex first := hacross e he first List.mem_cons_self
      have hhigh : toLex first ≤ toLex (g,x) := by
        rcases List.mem_cons.mp hrow with heq | hrest
        · rw [heq]
        · exact (List.pairwise_cons.mp hdrop).1 _ hrest
      have hfirst : first.1 = g := by
        have hle : e.1 ≤ first.1 := by
          rcases Prod.Lex.toLex_le_toLex.mp hlow with hlt | heq
          · exact hlt.le
          · exact heq.1.le
        have hge : first.1 ≤ g := by
          rcases Prod.Lex.toLex_le_toLex.mp hhigh with hlt | heq
          · exact hlt.le
          · exact heq.1.le
        rw [hsame] at hle
        exact le_antisymm hge hle
      rw [← hfirst]
      exact List.mem_cons_self
  · rw [h.rows, List.mem_append]
    right
    have hpair : (g,e.2) = e := Prod.ext hsame.symm rfl
    rw [hpair]
    exact he

/-- The walk of an expansion, whole or cut. -/
theorem ended_cases (edges : List Edge) (trustees : List String) (depth : ℤ) :
    (∃ m, m ≤ levels depth ∧ Whole edges trustees m (ended edges trustees depth) ∧
      (∀ i, i < m → spent edges trustees (i+1) ≤ maxEdges) ∧
      (m = levels depth ∨ layer edges trustees m = ∅ ∨ maxEdges ≤ spent edges trustees m)) ∨
    ∃ m, m < levels depth ∧ Cut edges trustees m (ended edges trustees depth) := by
  rcases @expand_cases edges trustees (levels depth) 0 _ whole_start with
    ⟨m,-,hm,hw,hfits,hend⟩ | ⟨m,-,hm,hc⟩
  · rw [Nat.zero_add] at hm hend
    exact .inl ⟨m,hm,hw,fun i hi => hfits i (Nat.zero_le _) hi,hend⟩
  · rw [Nat.zero_add] at hm
    exact .inr ⟨m,hm,hc⟩

theorem layer_fresh {n : ℕ} {g : String} (h : g ∈ layer edges trustees n) :
    g ∉ seen edges trustees n := by
  cases n with
  | zero => exact Finset.notMem_empty _
  | succ n =>
    rw [layer_succ, Finset.mem_sdiff] at h
    exact h.2

theorem fits_uncut {n : ℕ} (h : spent edges trustees (n+1) ≤ maxEdges) :
    (levelRows edges trustees n).drop (maxEdges-spent edges trustees n) = [] := by
  rw [spent_succ] at h
  apply List.drop_eq_nil_iff.mpr
  omega

/-- In an expansion that is cleanly cut, a walk that was not cut lists everything. -/
theorem whole_complete (h : CleanlyCut edges trustees depth) {m : ℕ}
    (hm : Whole edges trustees m (ended edges trustees depth))
    (hend : m = levels depth ∨ layer edges trustees m = ∅ ∨ maxEdges ≤ spent edges trustees m)
    {g : String} (hkey : g ∈ (ended edges trustees depth).visited ∨ g ∈ trustees) (x : String) :
    (g,x) ∈ (ended edges trustees depth).rows ↔ (g,x) ∈ edges := by
  rcases Nat.eq_zero_or_pos m with rfl | hpos
  · rcases hend with hlevels | hempty | hfull
    · have htrustee : g ∈ trustees := by
        rcases hkey with hkey | hkey
        · rw [hm.visited] at hkey
          exact absurd hkey (Finset.notMem_empty _)
        · exact hkey
      rw [hm.rows]
      constructor
      · intro hrow
        cases hrow
      · exact fun hedge => absurd hedge (h.unread hlevels.symm g htrustee x)
    · exact whole_listed hm (.inr ((List.toFinset_eq_empty_iff _).mp hempty)) hkey x
    · have hnothing : spent edges trustees 0 = 0 := rfl
      rw [hnothing] at hfull
      exact absurd hfull (by decide)
  · exact whole_listed hm (.inl hpos) hkey x

/-- A group that has members and whose list is empty is one that the rule fires on. -/
theorem quiet_nonempty (h : Complete edges trustees depth) {g x : String}
    (hkey : g ∈ (ended edges trustees depth).visited ∨ g ∈ trustees) (hedge : (g,x) ∈ edges) :
    ∃ m, (g,m) ∈ (ended edges trustees depth).rows := by
  by_contra hnone
  obtain ⟨f,hf,o,ho,rfl⟩ := fires_on hkey fun m hm => hnone ⟨m,hm⟩
  exact h.quiet _ f hf o ho x hedge

/-- In a complete expansion no level is cut before its last group. -/
theorem complete_within (h : Complete edges trustees depth) {n : ℕ} (hn : n < levels depth)
    (hroom : spent edges trustees n < maxEdges) : CutWithin edges trustees n := by
  intro e he
  have hrow := mem_levelRows.mp (List.mem_of_mem_drop he)
  have hlong : ¬ spent edges trustees (n+1) ≤ maxEdges := by
    intro hfits
    rw [fits_uncut hfits] at he
    cases he
  rcases ended_cases edges trustees depth with ⟨m,-,-,hfits,hend⟩ | ⟨m,-,hcut⟩
  · exfalso
    rcases Nat.lt_or_ge n m with hlt | hge
    · exact hlong (hfits n hlt)
    · rcases hend with hlevels | hempty | hfull
      · omega
      · have hlayer := hrow.2
        rw [layer_empty hge hempty] at hlayer
        exact Finset.notMem_empty _ hlayer
      · have hmono := @spent_mono edges trustees m n hge
        omega
  · have hroom' := hcut.room
    have hlong' := hcut.long
    have hsucc := @spent_succ edges trustees m
    rcases Nat.lt_trichotomy n m with hlt | rfl | hgt
    · have hmono := @spent_mono edges trustees (n+1) m hlt
      exact absurd (hmono.trans hroom'.le) hlong
    · have hkey : e.1 ∈ (ended edges trustees depth).visited := by
        rw [hcut.visited, seen_succ]
        exact Finset.mem_union_right _ hrow.2
      obtain ⟨x,hx⟩ := quiet_nonempty h (.inl hkey) (x := e.2) hrow.1
      rw [hcut.rows, List.mem_append] at hx
      rcases hx with hx | hx
      · exact absurd (mem_rowsBefore.mp hx).2 (layer_fresh hrow.2)
      · exact ⟨_,hx,rfl⟩
    · have hmono := @spent_mono edges trustees (m+1) n hgt
      omega

end Records

/-- The lists that are not marked are complete, and the rule about empty groups is right, if no
level is cut before its last group and some level is read where there is something to read; and
only then. -/
theorem unmarked_complete (edges : List Edge) (trustees : List String) (depth : ℤ) :
    Complete edges trustees depth ↔ CleanlyCut edges trustees depth := by
  constructor
  · intro h
    refine ⟨fun hnone t ht m hedge => ?_,fun n hn hroom => complete_within h hn hroom⟩
    obtain ⟨x,hx⟩ := quiet_nonempty h (.inr ht) hedge
    have hrows : (ended edges trustees depth).rows = [] := by
      unfold ended
      rw [hnone]
      rfl
    rw [hrows] at hx
    cases hx
  · intro h
    rcases ended_cases edges trustees depth with ⟨m,-,hm,-,hend⟩ | ⟨m,hlevel,hcut⟩
    · constructor
      · intro found r hr _ x
        obtain ⟨hkey,hrecord⟩ := mem_memberships.mp hr
        rw [hrecord, mem_memberKeys]
        exact whole_complete h hm hend hkey x
      · intro found f hf o ho x hedge
        obtain ⟨hkey,hnone⟩ := fired_empty hf ho
        exact hnone x ((whole_complete h hm hend hkey x).mpr hedge)
      · rintro found r hr ⟨x,hedge,hmissing⟩
        obtain ⟨hkey,hrecord⟩ := mem_memberships.mp hr
        rw [hrecord, mem_memberKeys] at hmissing
        exact absurd ((whole_complete h hm hend hkey x).mpr hedge) hmissing
    · have hwithin := h.within m hlevel hcut.room
      constructor
      · intro found r hr hunmarked x
        obtain ⟨hkey,hrecord⟩ := mem_memberships.mp hr
        rw [hrecord] at hunmarked
        rw [hrecord, mem_memberKeys]
        constructor
        · intro hrow
          rw [hcut.rows, List.mem_append] at hrow
          rcases hrow with hrow | hrow
          · exact (mem_rowsBefore.mp hrow).1
          · exact (mem_levelRows.mp (List.mem_of_mem_take hrow)).1
        · intro hedge
          rcases cut_listed hcut hkey hedge with hrow | hdropped
          · exact hrow
          · have hmarked := (cut_marked hcut hwithin hdropped).1
            exact absurd (decide_eq_true hmarked) (Bool.eq_false_iff.mp hunmarked)
      · intro found f hf o ho x hedge
        obtain ⟨hkey,hnone⟩ := fired_empty hf ho
        rcases cut_listed hcut hkey hedge with hrow | hdropped
        · exact hnone x hrow
        · obtain ⟨y,hy⟩ := (cut_marked hcut hwithin hdropped).2
          exact hnone y hy
      · intro found r hr _
        show decide ((ended edges trustees depth).truncatedGroups ≠ []) = true
        apply decide_eq_true
        rw [hcut.truncated]
        have hlong := hcut.long
        intro hempty
        have hlength := congrArg List.length hempty
        rw [List.length_map, List.length_take, List.length_drop, List.length_nil] at hlength
        omega

namespace Sample

/-- One group with a member more than the ceiling, and a group behind it with one member. -/
def edges : List Edge :=
  (List.range (maxEdges+1)).map (fun i => ("a",toString i)) ++ [("b","x")]

theorem edges_group {e : Edge} (h : e ∈ edges) : e.1 = "a" ∨ e = ("b","x") := by
  rcases List.mem_append.mp h with h | h
  · obtain ⟨i,-,rfl⟩ := List.mem_map.mp h
    exact .inl rfl
  · exact .inr (List.mem_singleton.mp h)

theorem edges_length : edges.length = maxEdges+2 := by
  unfold edges
  rw [List.length_append, List.length_map, List.length_range]
  rfl

theorem edges_behind : edges.countP (fun e => e.1 = "b") = 1 := by
  unfold edges
  rw [List.countP_append]
  have hnone : ((List.range (maxEdges+1)).map fun i => (("a",toString i) : Edge)).countP
      (fun e => e.1 = "b") = 0 := by
    apply List.countP_eq_zero.mpr
    intro e he
    obtain ⟨i,-,rfl⟩ := List.mem_map.mp he
    simp
  rw [hnone]
  rfl

theorem levelRows_perm : (levelRows edges ["a","b"] 0).Perm edges := by
  have hall : edges.filter (·.1 ∈ layer edges ["a","b"] 0) = edges := by
    apply List.filter_eq_self.mpr
    intro e he
    apply decide_eq_true
    show e.1 ∈ ["a","b"].toFinset
    rw [List.mem_toFinset]
    rcases edges_group he with ha | hb
    · rw [ha]
      exact List.mem_cons_self
    · rw [hb]
      exact List.mem_cons_of_mem _ List.mem_cons_self
  unfold levelRows rowsOf
  rw [hall]
  exact sortedBy_perm _ _

/-- No row of the second group stands before the cut. -/
theorem behind_unread : ∀ e ∈ (levelRows edges ["a","b"] 0).take maxEdges, e.1 ≠ "b" := by
  intro e he hb
  have hsorted : (levelRows edges ["a","b"] 0).Pairwise fun a b : Edge => toLex a ≤ toLex b :=
    sortedBy_ordered _ _
  rw [← List.take_append_drop maxEdges (levelRows edges ["a","b"] 0)] at hsorted
  have hacross := (List.pairwise_append.mp hsorted).2.2 e he
  have hbehind : ∀ d ∈ (levelRows edges ["a","b"] 0).drop maxEdges, decide (d.1 = "b") = true := by
    intro d hd
    apply decide_eq_true
    rcases edges_group (levelRows_perm.mem_iff.mp (List.mem_of_mem_drop hd)) with ha | hbd
    · exfalso
      have hle : e.1 ≤ d.1 := by
        rcases Prod.Lex.toLex_le_toLex.mp (hacross d hd) with hlt | heq
        · exact hlt.le
        · exact heq.1.le
      rw [hb, ha] at hle
      exact absurd hle (by decide)
    · rw [hbd]
  have hcount := levelRows_perm.countP_eq fun e => decide (e.1 = "b")
  rw [edges_behind, ← List.take_append_drop maxEdges (levelRows edges ["a","b"] 0),
    List.countP_append, List.countP_eq_length.mpr hbehind, List.length_drop,
    levelRows_perm.length_eq, edges_length] at hcount
  have hsome : 0 < ((levelRows edges ["a","b"] 0).take maxEdges).countP fun e => e.1 = "b" :=
    List.countP_pos_iff.mpr ⟨e,he,decide_eq_true hb⟩
  omega

end Sample

open Sample in
/-- The group behind the cut has a member, an empty list and no mark. -/
theorem unread_group_unmarked : ¬ Complete edges ["a","b"] 8 := by
  intro h
  have hcut := complete_within h (n := 0) (by decide) (by decide)
  have hrow : (("b","x") : Edge) ∈ (levelRows edges ["a","b"] 0).drop maxEdges := by
    have hmem : (("b","x") : Edge) ∈ levelRows edges ["a","b"] 0 :=
      levelRows_perm.mem_iff.mpr (List.mem_append_right _ List.mem_cons_self)
    rw [← List.take_append_drop maxEdges (levelRows edges ["a","b"] 0), List.mem_append] at hmem
    exact hmem.resolve_left fun htake => behind_unread _ htake rfl
  obtain ⟨e,he,hsame⟩ := hcut _ hrow
  exact behind_unread e he hsame

end Adg.MembershipExpansion
