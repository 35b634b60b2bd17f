import Adg.RiskRecords

/-!
# Bundles of facts

The walks over memberships are bounded and never come back to a group they
passed. What they enumerate are the simple routes of at most as many steps as
the limit allows, and those that the limit ended are marked.
-/

set_option autoImplicit false

namespace Adg.FactBundles
open Adg.AlertModel Adg.FindingModel Adg.SecurityIdentifier Adg.RiskRecords

/-! ### The bundle -/

/-- One bounded route through the membership graph, with the records it used. -/
structure Chain where
  keys : List String
  edges : List MembershipFacts
  truncated : Bool := false

/-- The edges traversed. -/
def Chain.depth (c : Chain) : ℕ := c.keys.length-1

/-- `MAX_WALK_DEPTH`. -/
def maxWalkDepth : ℤ := 32

/-- Everything a rule may read. The two mappings are listed with their keys. -/
structure RiskFacts where
  resources : List ResourceFacts := []
  shares : List ShareFacts := []
  principals : List (String × PrincipalFacts) := []
  memberships : List (String × MembershipFacts) := []
  scope : RiskScope := { complete := true }

namespace RiskFacts

def principal (f : RiskFacts) (key : String) : Option PrincipalFacts := f.principals.lookup key

def membership (f : RiskFacts) (groupKey : String) : Option MembershipFacts :=
  f.memberships.lookup groupKey

def directMembers (f : RiskFacts) (groupKey : String) : List String :=
  (f.membership groupKey).elim [] (·.memberKeys)

/-- `_walk`, downward, with the levels that are left. -/
def walk (f : RiskFacts) : ℕ → String → List String → List MembershipFacts → Bool → List Chain
  | 0, node, visited, edges, _ =>
    if f.directMembers node ≠ [] then [⟨visited,edges,true⟩] else []
  | n+1, node, visited, edges, truncated =>
    match f.membership node with
    | none => []
    | some record =>
      record.memberKeys.flatMap fun other =>
        if other ∈ visited then []
        else
          ⟨visited ++ [other],edges ++ [record.restrictedTo other],truncated || record.truncated⟩ ::
            walk f n other (visited ++ [other]) (edges ++ [record.restrictedTo other])
              (truncated || record.truncated)

def walkLimit (maxDepth : ℤ) : ℕ := (min (max maxDepth 0) maxWalkDepth).toNat

/-- `chains_down`. -/
def chainsDown (f : RiskFacts) (groupKey : String) (maxDepth : ℤ) : List Chain :=
  f.walk (walkLimit maxDepth) groupKey [groupKey] [] false

/-- What the named principals contribute to a finding's confidence. -/
def qualifiersFor (f : RiskFacts) (keys : List String) : Finset FactQualifier :=
  (if keys.any (fun key => (f.principal key).isNone) then {.principalUndescribed} else ∅) ∪
  if keys.any (fun key => (f.membership key).any (·.truncated)) then {.membershipTruncated} else ∅

/-! ### What the walk enumerates -/

/-- Steps from group to member that stay off the keys passed so far. -/
def Descends (f : RiskFacts) : String → List String → List String → Prop
  | _, _, [] => True
  | node, visited, other :: rest =>
    other ∈ f.directMembers node ∧ other ∉ visited ∧ Descends f other (visited ++ [other]) rest

/-- The records behind the steps, each reduced to the member it was walked to. -/
def edgesAlong (f : RiskFacts) : String → List String → List MembershipFacts
  | _, [] => []
  | node, other :: rest =>
    (f.membership node).toList.map (·.restrictedTo other) ++ edgesAlong f other rest

/-- Whether a record behind the steps was cut short. -/
def shortAlong (f : RiskFacts) : String → List String → Bool
  | _, [] => false
  | node, other :: rest => (f.membership node).any (·.truncated) || shortAlong f other rest

/-- The last key of a walk. -/
def endOf : String → List String → String
  | node, [] => node
  | _, other :: rest => endOf other rest

theorem membership_of_member {f : RiskFacts} {node other : String}
    (h : other ∈ f.directMembers node) :
    ∃ record, f.membership node = some record ∧ other ∈ record.memberKeys := by
  unfold directMembers at h
  cases hrecord : f.membership node with
  | none =>
    rw [hrecord] at h
    cases h
  | some record =>
    rw [hrecord] at h
    exact ⟨record,rfl,h⟩

theorem directMembers_of {f : RiskFacts} {node : String} {record : MembershipFacts}
    (h : f.membership node = some record) : f.directMembers node = record.memberKeys := by
  unfold directMembers
  rw [h]
  rfl

/-- The walk enumerates the simple routes of at most as many steps as are left, and marks those
that the limit ends. -/
theorem mem_walk {f : RiskFacts} {n : ℕ} {node : String} {visited : List String}
    {edges : List MembershipFacts} {truncated : Bool} {c : Chain} :
    c ∈ f.walk n node visited edges truncated ↔ ∃ steps, f.Descends node visited steps ∧
      c.keys = visited ++ steps ∧ c.edges = edges ++ f.edgesAlong node steps ∧
      ((steps ≠ [] ∧ steps.length ≤ n ∧ c.truncated = (truncated || f.shortAlong node steps)) ∨
        (steps.length = n ∧ f.directMembers (endOf node steps) ≠ [] ∧ c.truncated = true)) := by
  induction n generalizing node visited edges truncated with
  | zero =>
    constructor
    · intro h
      rw [walk] at h
      split_ifs at h with hmore
      · rw [List.mem_singleton.mp h]
        exact ⟨[],trivial,by simp,by simp [edgesAlong],.inr ⟨rfl,hmore,rfl⟩⟩
      · cases h
    · rintro ⟨steps,-,hkeys,hedges,⟨hne,hlength,-⟩ | ⟨hlength,hmore,htruncated⟩⟩
      · exact absurd (List.length_eq_zero_iff.mp (Nat.le_zero.mp hlength)) hne
      · rw [List.length_eq_zero_iff.mp hlength] at hkeys hedges hmore
        have hfrom : f.directMembers node ≠ [] := hmore
        rw [walk, if_pos hfrom, List.mem_singleton]
        obtain ⟨keys,edges',marked⟩ := c
        simp only [List.append_nil, edgesAlong] at hkeys hedges htruncated
        rw [hkeys, hedges, htruncated]
  | succ n ih =>
    cases hrecord : f.membership node with
    | none =>
      have hnone : ∀ other, other ∉ f.directMembers node := by
        intro other hother
        obtain ⟨record,hsome,-⟩ := membership_of_member hother
        rw [hrecord] at hsome
        cases hsome
      rw [walk, hrecord]
      simp only [List.not_mem_nil, false_iff]
      rintro ⟨steps,hdescends,-,-,⟨hne,-,-⟩ | ⟨hlength,-,-⟩⟩
      · obtain ⟨other,rest,rfl⟩ := List.exists_cons_of_ne_nil hne
        exact hnone other hdescends.1
      · obtain ⟨other,rest,rfl⟩ := List.exists_cons_of_length_eq_add_one hlength
        exact hnone other hdescends.1
    | some record =>
      have hmembers := directMembers_of hrecord
      have hedgesAlong : ∀ other rest, f.edgesAlong node (other :: rest) =
          record.restrictedTo other :: f.edgesAlong other rest := by
        intro other rest
        rw [edgesAlong, hrecord]
        rfl
      have hshort : ∀ other rest, f.shortAlong node (other :: rest) =
          (record.truncated || f.shortAlong other rest) := by
        intro other rest
        rw [shortAlong, hrecord]
        rfl
      have hend : ∀ other rest, endOf node (other :: rest) = endOf other rest := fun _ _ => rfl
      rw [walk, hrecord]
      simp only [List.mem_flatMap]
      constructor
      · rintro ⟨other,hother,h⟩
        split_ifs at h with hvisited
        · cases h
        rcases List.mem_cons.mp h with rfl | h
        · refine ⟨[other],⟨hmembers ▸ hother,hvisited,trivial⟩,rfl,?_,.inl ⟨by simp,by simp,?_⟩⟩
          · rw [hedgesAlong]
            rfl
          · rw [hshort]
            simp [shortAlong]
        · obtain ⟨steps,hdescends,hkeys,hedges,hcases⟩ := ih.mp h
          refine ⟨other :: steps,⟨hmembers ▸ hother,hvisited,hdescends⟩,by rw [hkeys]; simp,?_,?_⟩
          · rw [hedges, hedgesAlong]
            simp
          · rcases hcases with ⟨hne,hlength,htruncated⟩ | ⟨hlength,hmore,htruncated⟩
            · refine .inl ⟨by simp,by simpa using hlength,?_⟩
              rw [htruncated, hshort, Bool.or_assoc]
            · exact .inr ⟨by simpa using hlength,by rwa [hend],htruncated⟩
      · rintro ⟨steps,hdescends,hkeys,hedges,hcases⟩
        have hne : steps ≠ [] := by
          rcases hcases with ⟨hne,-,-⟩ | ⟨hlength,-,-⟩
          · exact hne
          · rintro rfl
            simp at hlength
        obtain ⟨other,rest,rfl⟩ := List.exists_cons_of_ne_nil hne
        refine ⟨other,hmembers ▸ hdescends.1,?_⟩
        rw [if_neg hdescends.2.1, List.mem_cons]
        rw [hedgesAlong] at hedges
        rw [hshort, hend] at hcases
        by_cases hrest : rest = []
        · rcases hcases with ⟨-,-,htruncated⟩ | ⟨hlength,hmore,htruncated⟩
          · left
            obtain ⟨keys,edges',marked⟩ := c
            simp only [hrest, edgesAlong, shortAlong, Bool.or_false] at hkeys hedges htruncated
            rw [hkeys, hedges, htruncated]
          · right
            refine ih.mpr ⟨rest,hdescends.2.2,by rw [hkeys]; simp,by rw [hedges]; simp,.inr ?_⟩
            exact ⟨by simpa using hlength,hmore,htruncated⟩
        · right
          refine ih.mpr ⟨rest,hdescends.2.2,by rw [hkeys]; simp,by rw [hedges]; simp,?_⟩
          rcases hcases with ⟨-,hlength,htruncated⟩ | ⟨hlength,hmore,htruncated⟩
          · exact .inl ⟨hrest,by simpa using hlength,by rw [htruncated, Bool.or_assoc]⟩
          · exact .inr ⟨by simpa using hlength,hmore,htruncated⟩

end RiskFacts

end Adg.FactBundles
