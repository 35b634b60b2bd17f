import Adg.AclNormalForm

/-!
# What a child inherits

An entry of a parent becomes nothing, one entry or two on a child, by four of
its flags, by the generic bits of its mask and by its trustee. The projection
numbers what is left, so it can be projected again. What comes down one level
comes down unchanged from there.
-/

set_option autoImplicit false

namespace Adg.InheritanceProjection
open Adg.Observation Adg.RightsAlgebra Adg.SecurityIdentifier Adg.SortedLists Adg.AclNormalForm

/-- `SUBSTITUTED_TRUSTEES`: the creator's owner and group. -/
def substitutedTrustees : List String := ["S-1-3-0", "S-1-3-1"]

/-- `_PROPAGATING`. -/
def propagating : AceFlags := AceFlag.objectInherit ||| AceFlag.containerInherit

/-- Whether a flag byte has a bit. -/
def has (flags bit : AceFlags) : Bool := flags &&& bit ≠ 0

/-- `map_generic_rights`. -/
def mapGenericRights (mask : AccessMask) : AccessMask :=
  let stands (right meaning : AccessMask) : AccessMask := if mask &&& right ≠ 0 then meaning else 0
  (mask &&& ~~~genericRightBits) ||| stands NtfsRight.genericRead fileGenericRead |||
    stands NtfsRight.genericWrite fileGenericWrite |||
    stands NtfsRight.genericExecute fileGenericExecute |||
    stands NtfsRight.genericAll fileAllAccess

/-- `project_inherited_ace_flags`, for an entry that does not split. -/
def projectInheritedAceFlags (flags : AceFlags) (forContainer : Bool) : Option AceFlags :=
  if forContainer = false then
    if has flags AceFlag.objectInherit then some AceFlag.inherited else none
  else if has flags AceFlag.containerInherit then
    if has flags AceFlag.noPropagateInherit then some AceFlag.inherited
    else some (AceFlag.inherited ||| (flags &&& propagating))
  else if has flags AceFlag.objectInherit then
    if has flags AceFlag.noPropagateInherit then none
    else some (AceFlag.inherited ||| AceFlag.objectInherit ||| AceFlag.inheritOnly)
  else none

/-- `generic`. -/
def isGeneric (mask : AccessMask) : Bool := mask &&& genericRightBits ≠ 0

/-- `copy`. -/
def copyOf (entry : AclAceFacts) (flags : AceFlags) (mask : AccessMask) : AclAceFacts :=
  ⟨entry.trusteeSid,entry.aceType,mask,flags,none⟩

/-- Whether Windows replaces the trustee. -/
def isSubstituted (entry : AclAceFacts) : Bool := entry.trusteeSid.value ∈ substitutedTrustees

/-- The effective copy, where the entry applies to a child container and names its trustee. -/
def effectiveCopy (entry : AclAceFacts) : List AclAceFacts :=
  if has entry.aceFlags AceFlag.containerInherit && !isSubstituted entry then
    [copyOf entry AceFlag.inherited (mapGenericRights entry.accessMask)] else []

/-- The flags of the copy for what lies below. -/
def carriedFlags (flags : AceFlags) : AceFlags :=
  AceFlag.inherited ||| AceFlag.inheritOnly ||| (flags &&& propagating)

/-- The propagating copy, with the mask as it was. -/
def propagatingCopy (entry : AclAceFacts) : List AclAceFacts :=
  if (has entry.aceFlags AceFlag.containerInherit || has entry.aceFlags AceFlag.objectInherit) &&
      !has entry.aceFlags AceFlag.noPropagateInherit then
    [copyOf entry (carriedFlags entry.aceFlags) entry.accessMask] else []

/-- `project_inherited_ace`: the effective copy, then the propagating one. -/
def projectInheritedAce (entry : AclAceFacts) (forContainer : Bool) : List AclAceFacts :=
  if forContainer = false then
    if isSubstituted entry || !has entry.aceFlags AceFlag.objectInherit then []
    else [copyOf entry AceFlag.inherited (mapGenericRights entry.accessMask)]
  else if !(isGeneric entry.accessMask || isSubstituted entry) then
    ((projectInheritedAceFlags entry.aceFlags true).map fun flags =>
      copyOf entry flags entry.accessMask).toList
  else effectiveCopy entry ++ propagatingCopy entry

/-- What `project_inherited_acl` sorts by: positioned entries first. -/
def projectionKey (entry : AclAceFacts) : Bool ×ₗ ℕ ×ₗ String :=
  toLex (entry.orderIndex.isNone,toLex (entry.orderIndex.getD 0,entry.contentLine))

/-- Positions from zero, over the entries that came down. -/
def renumber (entries : List AclAceFacts) : List AclAceFacts :=
  entries.mapIdx fun position entry => { entry with orderIndex := some position }

/-- `project_inherited_acl`. -/
def projectInheritedAcl (aces : List AclAceFacts) (forContainer : Bool) : List AclAceFacts :=
  renumber ((sortedBy projectionKey aces).flatMap (projectInheritedAce · forContainer))

section Digests
variable (sha256 : String → String)

/-- `projected_child_acl`. -/
def projectedChildAcl (daclPresent : Bool) (aces : List AclAceFacts) (forContainer : Bool) :
    Except DomainError (Option NormalizedAcl) :=
  if daclPresent = false then .ok none
  else some <$> normalizeAcl sha256 true false (projectInheritedAcl aces forContainer)

/-- `inherited_child_acl_hash`. -/
def inheritedChildAclHash (daclPresent : Bool) (aces : List AclAceFacts) (forContainer : Bool) :
    Except DomainError (Option String) :=
  (projectedChildAcl sha256 daclPresent aces forContainer).map (·.map (·.digest))

end Digests

/-! ### Bits of a projected entry -/

/-- The copy for what lies below reaches as far as the entry, and is not stopped. -/
theorem has_carried (flags : AceFlags) :
    has (carriedFlags flags) AceFlag.containerInherit = has flags AceFlag.containerInherit ∧
      has (carriedFlags flags) AceFlag.objectInherit = has flags AceFlag.objectInherit ∧
      has (carriedFlags flags) AceFlag.noPropagateInherit = false ∧
      carriedFlags (carriedFlags flags) = carriedFlags flags := by
  revert flags
  decide

/-- The flags of a copy are their own projection, unless the entry stops. -/
theorem flags_again (flags : AceFlags) :
    (projectInheritedAceFlags flags true).bind (projectInheritedAceFlags · true) =
      if has flags AceFlag.noPropagateInherit then none
      else projectInheritedAceFlags flags true := by
  revert flags
  decide

theorem flags_propagate (flags : AceFlags) :
    (projectInheritedAceFlags flags true).all (!has · AceFlag.noPropagateInherit) = true := by
  revert flags
  decide

theorem mapGenericRights_specific (mask : AccessMask) : isGeneric (mapGenericRights mask) = false := by
  have hstands : ∀ right meaning : AccessMask, meaning &&& genericRightBits = 0 →
      (if mask &&& right ≠ 0 then meaning else 0) &&& genericRightBits = 0 := by
    intro right meaning hmeaning
    split_ifs
    · exact hmeaning
    · exact BitVec.zero_and
  have hspecific : mask &&& ~~~genericRightBits &&& genericRightBits = 0 := by
    rw [BitVec.and_assoc, BitVec.and_comm (~~~genericRightBits), BitVec.and_not_self]
    exact BitVec.and_zero
  have hnone : mapGenericRights mask &&& genericRightBits = 0 := by
    simp only [mapGenericRights, BitVec.and_or_distrib_right, hspecific]
    rw [hstands _ _ (by decide), hstands _ _ (by decide), hstands _ _ (by decide),
      hstands _ _ (by decide)]
    decide
  simp [isGeneric, hnone]

/-! ### One entry, twice -/

section Entry
variable (e : AclAceFacts)

theorem project_ordinary (h : (isGeneric e.accessMask || isSubstituted e) = false) :
    projectInheritedAce e true = ((projectInheritedAceFlags e.aceFlags true).map fun flags =>
      copyOf e flags e.accessMask).toList := by
  unfold projectInheritedAce
  rw [if_neg (by decide), if_pos (by rw [h]; rfl)]

theorem project_split (h : (isGeneric e.accessMask || isSubstituted e) = true) :
    projectInheritedAce e true = effectiveCopy e ++ propagatingCopy e := by
  unfold projectInheritedAce
  rw [if_neg (by decide), if_neg (by rw [h]; decide)]

/-- A copy that applies here and stops hands nothing down. -/
theorem effective_ends : (effectiveCopy e).flatMap (projectInheritedAce · true) = [] := by
  unfold effectiveCopy
  split_ifs with h
  · have hsub : isSubstituted e = false := by
      rw [Bool.and_eq_true, Bool.not_eq_true'] at h
      exact h.2
    set c := copyOf e AceFlag.inherited (mapGenericRights e.accessMask) with hc
    have hordinary : (isGeneric c.accessMask || isSubstituted c) = false := by
      rw [Bool.or_eq_false_iff]
      exact ⟨mapGenericRights_specific e.accessMask,hsub⟩
    have hflags : projectInheritedAceFlags c.aceFlags true = none := by
      show projectInheritedAceFlags AceFlag.inherited true = none
      decide
    rw [List.flatMap_singleton, project_ordinary c hordinary, hflags]
    rfl
  · rfl

/-- The copy for what lies below becomes all that the entry became. -/
theorem carried_again (h : (isGeneric e.accessMask || isSubstituted e) = true)
    (hnp : has e.aceFlags AceFlag.noPropagateInherit = false) :
    projectInheritedAce (copyOf e (carriedFlags e.aceFlags) e.accessMask) true =
      projectInheritedAce e true := by
  obtain ⟨hci,hoi,hfree,hflags⟩ := has_carried e.aceFlags
  rw [project_split e h, project_split (copyOf e (carriedFlags e.aceFlags) e.accessMask) h]
  have heffective : effectiveCopy (copyOf e (carriedFlags e.aceFlags) e.accessMask) =
      effectiveCopy e := by
    unfold effectiveCopy
    rw [show (copyOf e (carriedFlags e.aceFlags) e.accessMask).aceFlags =
      carriedFlags e.aceFlags from rfl, hci]
    rfl
  have hpropagating : propagatingCopy (copyOf e (carriedFlags e.aceFlags) e.accessMask) =
      propagatingCopy e := by
    unfold propagatingCopy
    rw [show (copyOf e (carriedFlags e.aceFlags) e.accessMask).aceFlags =
      carriedFlags e.aceFlags from rfl, hci, hoi, hfree, hflags, hnp]
    rfl
  rw [heffective, hpropagating]

/-- What an entry becomes stays, unless the entry stops at its children. -/
theorem projected_twice :
    (projectInheritedAce e true).flatMap (projectInheritedAce · true) =
      if has e.aceFlags AceFlag.noPropagateInherit then [] else projectInheritedAce e true := by
  cases hsplit : (isGeneric e.accessMask || isSubstituted e) with
  | false =>
    have hagain := flags_again e.aceFlags
    rw [project_ordinary e hsplit]
    cases hflags : projectInheritedAceFlags e.aceFlags true with
    | none => simp
    | some flags =>
      rw [hflags, Option.bind_some] at hagain
      have hcopy := project_ordinary (copyOf e flags e.accessMask) hsplit
      rw [show (copyOf e flags e.accessMask).aceFlags = flags from rfl, hagain] at hcopy
      simp only [Option.map_some, Option.toList_some, List.flatMap_singleton, hcopy]
      split_ifs <;> rfl
  | true =>
    rw [project_split e hsplit, List.flatMap_append, effective_ends, List.nil_append,
      ← project_split e hsplit]
    unfold propagatingCopy
    cases hnp : has e.aceFlags AceFlag.noPropagateInherit with
    | true => simp
    | false =>
      rw [if_neg Bool.false_ne_true]
      by_cases hreach : ((has e.aceFlags AceFlag.containerInherit ||
          has e.aceFlags AceFlag.objectInherit) && !false) = true
      · rw [if_pos hreach, List.flatMap_singleton]
        exact carried_again e hsplit hnp
      · have hci : has e.aceFlags AceFlag.containerInherit = false := by
          rw [← Bool.not_eq_true]
          exact fun hci => hreach (by rw [hci]; rfl)
        rw [if_neg hreach, project_split e hsplit]
        unfold effectiveCopy propagatingCopy
        rw [hnp, if_neg hreach, hci]
        rfl

end Entry

/-! ### A list of entries, twice -/

/-- A projection reads no position. -/
theorem project_any_position (e : AclAceFacts) (position : Option ℕ) :
    projectInheritedAce { e with orderIndex := position } true = projectInheritedAce e true := rfl

theorem renumber_project (entries : List AclAceFacts) :
    (renumber entries).flatMap (projectInheritedAce · true) =
      entries.flatMap (projectInheritedAce · true) := by
  have hforget : ∀ l : List AclAceFacts, l.flatMap (projectInheritedAce · true) =
      (l.map fun e => { e with orderIndex := none }).flatMap (projectInheritedAce · true) := by
    intro l
    rw [List.flatMap_map]
    rfl
  have hsame : (renumber entries).map (fun e => { e with orderIndex := none }) =
      entries.map fun e => { e with orderIndex := none } := by
    apply List.ext_getElem
    · simp [renumber]
    · intro i _ _
      simp [renumber]
  rw [hforget, hsame, ← hforget]

/-- Renumbered entries stand in the order of their positions. -/
theorem renumber_sorted (entries : List AclAceFacts) :
    sortedBy projectionKey (renumber entries) = renumber entries := by
  apply sortedBy_eq_of_perm projectionKey (List.Perm.refl _)
  apply List.pairwise_iff_getElem.mpr
  intro i j hi hj hij
  simp only [renumber, List.getElem_mapIdx, projectionKey]
  apply Prod.Lex.toLex_lt_toLex.mpr
  exact Or.inr ⟨rfl,Prod.Lex.toLex_lt_toLex.mpr (Or.inl hij)⟩

theorem flatMap_twice (l : List AclAceFacts) :
    (l.flatMap (projectInheritedAce · true)).flatMap (projectInheritedAce · true) =
      (l.filter fun e => !has e.aceFlags AceFlag.noPropagateInherit).flatMap
        (projectInheritedAce · true) := by
  induction l with
  | nil => rfl
  | cons e l ih =>
    rw [List.flatMap_cons, List.flatMap_append, ih, projected_twice e, List.filter_cons]
    cases has e.aceFlags AceFlag.noPropagateInherit with
    | true => rfl
    | false => rfl

/-- The second level is the first level of what does not stop there. -/
theorem project_project (aces : List AclAceFacts) :
    projectInheritedAcl (projectInheritedAcl aces true) true =
      projectInheritedAcl (aces.filter fun e => !has e.aceFlags AceFlag.noPropagateInherit)
        true := by
  show renumber ((sortedBy projectionKey (renumber _)).flatMap _) = renumber _
  rw [renumber_sorted, renumber_project, flatMap_twice, sortedBy_filter]

/-- What came down never stops at its children. -/
theorem projected_propagates {source e : AclAceFacts} (he : e ∈ projectInheritedAce source true) :
    has e.aceFlags AceFlag.noPropagateInherit = false := by
  cases hsplit : (isGeneric source.accessMask || isSubstituted source) with
  | false =>
    rw [project_ordinary source hsplit, Option.mem_toList, Option.map_eq_some_iff] at he
    obtain ⟨flags,hcarried,rfl⟩ := he
    have hall := flags_propagate source.aceFlags
    rw [hcarried] at hall
    exact Bool.not_eq_true' _ ▸ hall
  | true =>
    rw [project_split source hsplit] at he
    rcases List.mem_append.mp he with heffective | hcarried
    · simp only [effectiveCopy, List.mem_ite_nil_right, List.mem_singleton] at heffective
      rw [heffective.2]
      show has AceFlag.inherited AceFlag.noPropagateInherit = false
      decide
    · simp only [propagatingCopy, List.mem_ite_nil_right, List.mem_singleton] at hcarried
      rw [hcarried.2]
      exact (has_carried source.aceFlags).2.2.1

theorem projectedAcl_propagates {aces : List AclAceFacts} {e : AclAceFacts}
    (he : e ∈ projectInheritedAcl aces true) :
    has e.aceFlags AceFlag.noPropagateInherit = false := by
  obtain ⟨i,hi,rfl⟩ := List.mem_mapIdx.mp he
  obtain ⟨source,_,hsource⟩ := List.mem_flatMap.mp (List.getElem_mem hi)
  show has ((sortedBy projectionKey aces).flatMap (projectInheritedAce · true))[i].aceFlags _ =
    false
  exact projected_propagates hsource

/-- From the first level on, the depth changes nothing but what stopped there. -/
theorem project_third (aces : List AclAceFacts) :
    projectInheritedAcl (projectInheritedAcl (projectInheritedAcl aces true) true) true =
      projectInheritedAcl (projectInheritedAcl aces true) true := by
  rw [project_project (projectInheritedAcl aces true)]
  congr 1
  apply List.filter_eq_self.mpr
  intro e he
  rw [projectedAcl_propagates he]
  rfl

/-- The DACL of a container so many levels below one that holds these entries. -/
def atDepth (aces : List AclAceFacts) : ℕ → List AclAceFacts
  | 0 => aces
  | depth+1 => projectInheritedAcl (atDepth aces depth) true

theorem atDepth_settled (aces : List AclAceFacts) (depth : ℕ) :
    atDepth aces (depth+2) = atDepth aces 2 := by
  induction depth with
  | zero => rfl
  | succ depth ih =>
    show projectInheritedAcl (atDepth aces (depth+2)) true = _
    rw [ih]
    exact project_third aces

theorem second_level_shorter (aces : List AclAceFacts) :
    (atDepth aces 2).length ≤ (atDepth aces 1).length := by
  show (projectInheritedAcl (projectInheritedAcl aces true) true).length ≤ _
  rw [project_project]
  show (renumber _).length ≤ (renumber _).length
  rw [renumber, renumber, List.length_mapIdx, List.length_mapIdx, ← sortedBy_filter]
  apply List.Sublist.length_le
  exact List.filter_sublist.flatMap _

/-- Inheritance is a fixed point after one level: the second level down is the first level of
the entries that do not stop at the children, no level grows, and where nothing stops a child
predicts for its children what its parent predicted for it. -/
theorem projection_settles (aces : List AclAceFacts) :
    projectInheritedAcl (projectInheritedAcl aces true) true =
        projectInheritedAcl (aces.filter fun e => !has e.aceFlags AceFlag.noPropagateInherit)
          true ∧
      (∀ depth, (atDepth aces (depth+2)).length ≤ (atDepth aces (depth+1)).length) ∧
      ((∀ e ∈ aces, has e.aceFlags AceFlag.noPropagateInherit = false) →
        ∀ sha256 : String → String, ∀ depth,
          inheritedChildAclHash sha256 true (atDepth aces depth) true =
            inheritedChildAclHash sha256 true aces true) := by
  have hgrow : ∀ depth, (atDepth aces (depth+2)).length ≤ (atDepth aces (depth+1)).length := by
    intro depth
    cases depth with
    | zero => exact second_level_shorter aces
    | succ depth =>
      rw [atDepth_settled aces (depth+1), atDepth_settled aces depth]
  have hsame : (∀ e ∈ aces, has e.aceFlags AceFlag.noPropagateInherit = false) →
      ∀ depth, atDepth aces (depth+1) = atDepth aces 1 := by
    intro hfree depth
    cases depth with
    | zero => rfl
    | succ depth =>
      rw [atDepth_settled aces depth]
      show projectInheritedAcl (projectInheritedAcl aces true) true = projectInheritedAcl aces true
      rw [project_project]
      congr 1
      apply List.filter_eq_self.mpr
      intro e he
      rw [hfree e he]
      rfl
  apply And.intro (project_project aces)
  apply And.intro hgrow
  intro hfree sha256 depth
  show (some <$> normalizeAcl sha256 true false (atDepth aces (depth+1))).map _ = _
  rw [hsame hfree depth]
  rfl

theorem administrators_canonical : ∃ raw, canonicalizeSid raw = .ok "S-1-5-32-544" :=
  ⟨"S-1-5-32-544",by decide⟩

/-- A generic grant that reaches everything below. -/
def genericGrant : AclAceFacts where
  trusteeSid := ⟨"S-1-5-32-544",administrators_canonical⟩
  aceType := .allow
  accessMask := NtfsRight.genericAll
  aceFlags := propagating
  orderIndex := some 7

/-- It comes down as two entries, and stays two. -/
theorem generic_grant_settles : (atDepth [genericGrant] 5).length = 2 ∧
    inheritedChildAclHash id true (atDepth [genericGrant] 5) true =
      inheritedChildAclHash id true [genericGrant] true := by
  apply And.intro (by decide)
  apply (projection_settles [genericGrant]).2.2
  intro e he
  rw [List.mem_singleton.mp he]
  decide

end Adg.InheritanceProjection
