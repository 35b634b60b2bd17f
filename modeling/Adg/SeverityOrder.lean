import Adg.ChangeClassification

/-!
# Severity of several fields at once

The first rule that fires decides a transition, so a rule for one of its fields
may keep a more severe one for another field from being heard. For most kinds the
rules stand in an order in which that cannot happen. For principals, directories
and entries of an ACL the moves that silence a more severe one are listed.
-/

set_option autoImplicit false

namespace Adg.SeverityOrder
open Adg.Observation Adg.ObjectVersions Adg.ChangeFields Adg.ChangeRules Adg.SortedLists
open Adg.ChangeRules.Principals Adg.ChangeClassification

/-! ### Fields that moved -/

/-- The deltas of a transition: a field moves once and means what the table says. -/
structure Described (kind : ObservationKind) (deltas : List FieldDelta) : Prop where
  apart : (deltas.map (·.field)).Nodup
  classified : ∀ d ∈ deltas, d.significance = (significanceOf kind d.field).getD .unclassified

/-- The delta of one field, when it moved. -/
def deltaOf (kind : ObservationKind) (left right : State) (name : String) : Option FieldDelta :=
  if h : valueOf left name ≠ valueOf right name then
    some ⟨name,valueOf left name,valueOf right name,
      (significanceOf kind name).getD .unclassified,h⟩
  else none

theorem deltaOf_some {kind : ObservationKind} {left right : State} {name : String}
    {d : FieldDelta} : deltaOf kind left right name = some d ↔
      d.field = name ∧ d.before = valueOf left name ∧ d.after = valueOf right name ∧
        d.significance = (significanceOf kind name).getD .unclassified := by
  unfold deltaOf
  obtain ⟨field,before,after,significance,moved⟩ := d
  split
  · rw [Option.some.injEq, FieldDelta.mk.injEq]
    exact ⟨fun ⟨a,b,c,e⟩ => ⟨a.symm,b.symm,c.symm,e.symm⟩,
      fun ⟨a,b,c,e⟩ => ⟨a.symm,b.symm,c.symm,e.symm⟩⟩
  · next h =>
    refine iff_of_false (by simp) ?_
    rintro ⟨-,rfl,rfl,-⟩
    exact h moved

theorem deltasBetween_eq (kind : ObservationKind) (before after : Option State) :
    deltasBetween kind before after =
      (sortedBy id ((before.getD [] ++ after.getD []).map (·.1)).dedup).filterMap
        (deltaOf kind (before.getD []) (after.getD [])) := rfl

theorem deltasBetween_described (kind : ObservationKind) (before after : Option State) :
    Described kind (deltasBetween kind before after) := by
  rw [deltasBetween_eq]
  constructor
  · have hnames : (sortedBy id ((before.getD [] ++ after.getD []).map (·.1)).dedup).Nodup :=
      (sortedBy_perm id _).nodup_iff.mpr (List.nodup_dedup _)
    have hsub : ∀ l : List String,
        ((l.filterMap (deltaOf kind (before.getD []) (after.getD []))).map (·.field)).Sublist l := by
      intro l
      induction l with
      | nil => exact List.Sublist.refl _
      | cons name l ih =>
        rw [List.filterMap_cons]
        cases hd : deltaOf kind (before.getD []) (after.getD []) name with
        | none => exact ih.cons name
        | some d =>
          rw [List.map_cons, (deltaOf_some.mp hd).1]
          exact ih.cons_cons name
    exact hnames.sublist (hsub _)
  · intro d hd
    obtain ⟨name,-,hd⟩ := List.mem_filterMap.mp hd
    obtain ⟨hname,-,-,hsignificance⟩ := deltaOf_some.mp hd
    rw [hsignificance, hname]

/-- The transition in which one of the fields moved alone. -/
def alone (f : ChangeFacts) (d : FieldDelta) : ChangeFacts := { f with deltas := [d] }

section Moves
variable {f : ChangeFacts} {d : FieldDelta} {name : String} {value : Value}
  {significance : FieldSignificance}

theorem moved_iff : (f.moved name).isSome = true ↔ ∃ d ∈ f.deltas, d.field = name := by
  unfold ChangeFacts.moved
  rw [Option.isSome_map, List.find?_isSome]
  simp only [decide_eq_true_eq]

theorem became_iff (h : (f.deltas.map (·.field)).Nodup) :
    f.became name value = true ↔ ∃ d ∈ f.deltas, d.field = name ∧ d.after = value := by
  unfold ChangeFacts.became ChangeFacts.moved
  rw [Option.any_map, Option.any_eq_true]
  simp only [decide_eq_true_eq]
  constructor
  · rintro ⟨d,hd,hv⟩
    exact ⟨d,List.mem_of_find?_eq_some hd,by simpa using List.find?_some hd,hv⟩
  · rintro ⟨d,hd,rfl,hv⟩
    exact ⟨d,KeyedTables.find_keyed h hd,hv⟩

theorem hasDelta_iff :
    f.hasDelta significance = true ↔ ∃ d ∈ f.deltas, d.significance = significance := by
  unfold ChangeFacts.hasDelta
  rw [List.any_eq_true]
  simp only [decide_eq_true_eq]

@[simp] theorem alone_moved : ((alone f d).moved name).isSome = decide (d.field = name) := by
  rw [Bool.eq_iff_iff, moved_iff, decide_eq_true_eq]
  show (∃ e ∈ [d], e.field = name) ↔ _
  simp

@[simp] theorem alone_became :
    (alone f d).became name value = (decide (d.field = name) && decide (d.after = value)) := by
  rw [Bool.eq_iff_iff, became_iff (by simp [alone]), Bool.and_eq_true, decide_eq_true_eq,
    decide_eq_true_eq]
  show (∃ e ∈ [d], e.field = name ∧ e.after = value) ↔ _
  simp

@[simp] theorem alone_hasDelta :
    (alone f d).hasDelta significance = decide (d.significance = significance) := by
  rw [Bool.eq_iff_iff, hasDelta_iff, decide_eq_true_eq]
  show (∃ e ∈ [d], e.significance = significance) ↔ _
  simp

@[simp] theorem alone_movedTo :
    movedTo (alone f d) name = if d.field = name then nonEmptyText d.after else none := by
  unfold movedTo ChangeFacts.moved
  show ((([d] : List FieldDelta).find? _).map _).bind _ = _
  by_cases hn : d.field = name
  · simp [hn]
  · simp [hn]

theorem movedTo_eq (h : (f.deltas.map (·.field)).Nodup) (hm : d ∈ f.deltas) :
    movedTo f d.field = nonEmptyText d.after := by
  unfold movedTo ChangeFacts.moved
  rw [KeyedTables.find_keyed h hm]
  rfl

end Moves

/-- A classified field is in the row of its kind. -/
theorem field_of_significance {kind : ObservationKind} {name : String}
    {significance : FieldSignificance} (hs : significance ≠ .unclassified)
    (h : (significanceOf kind name).getD .unclassified = significance) :
    name ∈ ((fieldSignificance kind).filter (·.2 = significance)).map (·.1) := by
  unfold significanceOf at h
  cases hl : (fieldSignificance kind).lookup name with
  | none =>
    rw [hl] at h
    exact absurd h.symm hs
  | some s =>
    rw [hl] at h
    obtain ⟨before,after,heq,-⟩ := List.lookup_eq_some_iff.mp hl
    refine List.mem_map.mpr ⟨(name,s),List.mem_filter.mpr ⟨?_,by simpa using h⟩,rfl⟩
    rw [heq]
    exact List.mem_append_right _ List.mem_cons_self

/-! ### The table as a chain -/

/-- The severity of the first row of a part of the table that fires. -/
def pick (f : ChangeFacts) (table : List Rule) : ChangeSeverity :=
  ((table.find? fun r => r.appliesTo f.kind && r.test f).getD unclassifiedRule).severity

theorem pick_cons (f : ChangeFacts) (r : Rule) (table : List Rule) :
    pick f (r :: table) = if r.appliesTo f.kind && r.test f then r.severity else pick f table := by
  unfold pick
  rw [List.find?_cons]
  cases r.appliesTo f.kind && r.test f <;> rfl

/-- What is left of the table when no rule for the kind fires. -/
def fallback (f : ChangeFacts) : ChangeSeverity := pick f (fallbackRules ++ [unclassifiedRule])

section Chains
variable {f : ChangeFacts} (h : f.action = .modified)
include h

theorem principal_chain (hk : f.kind = .principal) : (evaluate f).severity =
    if f.hasDelta .identity then .high
    else if f.became "group_type" (.text "security") then .high
    else if f.became "group_type" (.text "distribution") then .medium
    else if f.became "enabled" (.truth true) then .medium
    else if f.became "enabled" (.truth false) then .low
    else if f.became "is_deleted" (.truth false) then .medium
    else if f.became "is_deleted" (.truth true) then .medium
    else if (f.moved "group_scope").isSome then .low
    else fallback f := by
  show pick f rules = _
  simp only [rules, leadingRules, aceRules, membershipRules, principalRules, resourceRules,
    shareRules, serverRules, List.cons_append, List.nil_append, pick_cons, Rule.appliesTo, aceKinds,
    hk, h, ChangeFacts.isAdded, ChangeFacts.isRemoved]
  simp [fallback]

theorem resource_chain (hk : f.kind = .ntfsResource) : (evaluate f).severity =
    if f.hasDelta .identity then .high
    else if f.became "dacl_present" (.truth false) then .critical
    else if f.became "dacl_protected" (.truth false) then .high
    else if f.became "dacl_protected" (.truth true) then .medium
    else if (f.moved "inheritance_enabled").isSome then .medium
    else if (f.moved "owner_sid").isSome && isBroadTrustee (movedTo f "owner_sid") then .high
    else if (f.moved "owner_sid").isSome then .medium
    else if (f.moved "acl_hash").isSome && f.siblingAceChanges = some 0 then .medium
    else if (f.moved "acl_hash").isSome then .low
    else fallback f := by
  show pick f rules = _
  simp only [rules, leadingRules, aceRules, membershipRules, principalRules, resourceRules,
    shareRules, serverRules, List.cons_append, List.nil_append, pick_cons, Rule.appliesTo, aceKinds,
    hk, h, ChangeFacts.isAdded, ChangeFacts.isRemoved]
  simp [fallback]

theorem ace_chain (hk : f.kind ∈ aceKinds) : (evaluate f).severity =
    if f.hasDelta .identity then .high
    else if f.orderingMaterial = some true then .high
    else if f.became "source" (.text "explicit") then .medium
    else if f.became "source" (.text "inherited") then .low
    else if f.orderingMaterial = some false then .info
    else if (f.moved "order_index").isSome && f.orderingMaterial.isNone then .medium
    else fallback f := by
  show pick f rules = _
  have hkind : f.kind = .smbAce ∨ f.kind = .ntfsAce := List.mem_pair.mp hk
  rcases hkind with hkind | hkind <;>
  · simp only [rules, leadingRules, aceRules, membershipRules, principalRules, resourceRules,
      shareRules, serverRules, List.cons_append, List.nil_append, pick_cons, Rule.appliesTo,
      aceKinds, hkind, h, ChangeFacts.isAdded, ChangeFacts.isRemoved]
    simp [fallback]

theorem membership_chain (hk : f.kind = .membershipEdge) : (evaluate f).severity =
    if f.hasDelta .identity then .high else fallback f := by
  show pick f rules = _
  simp only [rules, leadingRules, aceRules, membershipRules, principalRules, resourceRules,
    shareRules, serverRules, List.cons_append, List.nil_append, pick_cons, Rule.appliesTo, aceKinds,
    hk, h, ChangeFacts.isAdded, ChangeFacts.isRemoved]
  simp [fallback]

theorem share_chain (hk : f.kind = .smbShare) : (evaluate f).severity =
    if f.hasDelta .identity then .high
    else if (f.moved "local_path").isSome then .high
    else if (f.moved "share_type").isSome then .medium
    else fallback f := by
  show pick f rules = _
  simp only [rules, leadingRules, aceRules, membershipRules, principalRules, resourceRules,
    shareRules, serverRules, List.cons_append, List.nil_append, pick_cons, Rule.appliesTo, aceKinds,
    hk, h, ChangeFacts.isAdded, ChangeFacts.isRemoved]
  simp [fallback]

theorem server_chain (hk : f.kind = .server) : (evaluate f).severity =
    if f.hasDelta .identity then .high
    else if (f.moved "computer_sid").isSome then .high
    else if (f.moved "is_domain_member").isSome || (f.moved "domain_sid").isSome then .medium
    else fallback f := by
  show pick f rules = _
  simp only [rules, leadingRules, aceRules, membershipRules, principalRules, resourceRules,
    shareRules, serverRules, List.cons_append, List.nil_append, pick_cons, Rule.appliesTo, aceKinds,
    hk, h, ChangeFacts.isAdded, ChangeFacts.isRemoved]
  simp [fallback]

end Chains

/-- The rows at the end of the table, for fields that are no key and no position. -/
theorem fallback_eq {f : ChangeFacts} (hne : f.deltas ≠ []) (hid : f.hasDelta .identity = false)
    (hord : f.hasDelta .order = false) : fallback f =
      if f.hasDelta .unclassified || f.hasDelta .security then .medium else .info := by
  unfold fallback fallbackRules unclassifiedRule
  simp only [List.cons_append, List.nil_append, pick_cons, Rule.appliesTo, Option.all_none,
    Bool.true_and]
  cases hu : f.hasDelta .unclassified with
  | true => rfl
  | false =>
    cases hs : f.hasDelta .security with
    | true => rfl
    | false =>
      cases hder : f.hasDelta .derived with
      | true => rfl
      | false =>
        cases hmeta : f.hasDelta .metadata with
        | true => rfl
        | false =>
          have hnoise : f.deltas.all (·.significance = .noise) = true := by
            apply List.all_eq_true.mpr
            intro d hd
            have hnot : ∀ s, f.hasDelta s = false → d.significance ≠ s := by
              intro s hs hsame
              have := hasDelta_iff.mpr ⟨d,hd,hsame⟩
              rw [hs] at this
              cases this
            cases hds : d.significance with
            | noise => rfl
            | identity => exact absurd hds (hnot _ hid)
            | security => exact absurd hds (hnot _ hs)
            | metadata => exact absurd hds (hnot _ hmeta)
            | order => exact absurd hds (hnot _ hord)
            | derived => exact absurd hds (hnot _ hder)
            | unclassified => exact absurd hds (hnot _ hu)
          simp [hne, hnoise]

/-- Only entries of an ACL have a position. -/
theorem no_position {f : ChangeFacts} (hk : f.kind ∉ aceKinds) (hd : Described f.kind f.deltas) :
    f.hasDelta .order = false := by
  rw [← Bool.not_eq_true, hasDelta_iff]
  rintro ⟨d,hm,hs⟩
  have hfield := field_of_significance (by decide) ((hd.classified d hm).symm.trans hs)
  cases hkind : f.kind with
  | smbAce | ntfsAce => exact hk (by rw [hkind]; decide)
  | principal | membershipEdge | server | smbShare | ntfsResource =>
    rw [hkind] at hfield
    exact absurd hfield List.not_mem_nil

/-! ### Alone and together -/

/-- No field that moved is more severe alone than all are together. -/
def Covers (f : ChangeFacts) : Prop :=
  ∀ d ∈ f.deltas, (evaluate (alone f d)).severity.rank ≤ (evaluate f).severity.rank

/-- Some field that moved is as severe as that alone. -/
def Heard (f : ChangeFacts) (floor : ChangeSeverity) : Prop :=
  ∃ d ∈ f.deltas, floor.rank ≤ (evaluate (alone f d)).severity.rank

theorem covers_iff {f : ChangeFacts} :
    Covers f ↔ ∀ floor, Heard f floor → floor.rank ≤ (evaluate f).severity.rank := by
  constructor
  · rintro hc floor ⟨d,hm,hle⟩
    exact hle.trans (hc d hm)
  · intro hh d hm
    exact hh _ ⟨d,hm,Nat.le_refl _⟩

theorem heard_iff {f : ChangeFacts} {floor : ChangeSeverity} {p : FieldDelta → Prop}
    (hp : ∀ d ∈ f.deltas, floor.rank ≤ (evaluate (alone f d)).severity.rank ↔ p d) :
    Heard f floor ↔ ∃ d ∈ f.deltas, p d :=
  exists_congr fun d => and_congr_right (hp d)

theorem became_moved {f : ChangeFacts} {name : String} {value : Value}
    (hb : f.became name value = true) : (f.moved name).isSome = true := by
  unfold ChangeFacts.became at hb
  cases hm : f.moved name with
  | none => rw [hm] at hb; exact hb
  | some m => rfl

/-- A field that moved became one thing. -/
theorem became_one {f : ChangeFacts} {name : String} {v w : Value} (hne : v ≠ w)
    (hv : f.became name v = true) : f.became name w = false := by
  unfold ChangeFacts.became at hv ⊢
  cases hm : f.moved name with
  | none => rfl
  | some m =>
    rw [hm] at hv
    have hmv : m.2 = v := of_decide_eq_true hv
    exact decide_eq_false (hmv ▸ hne)

/-- A field that moved to anything but one value. -/
theorem moved_elsewhere {f : ChangeFacts} {name : String} {value : Value}
    (hd : (f.deltas.map (·.field)).Nodup) :
    (∃ d ∈ f.deltas, d.field = name ∧ d.after ≠ value) ↔
      (f.moved name).isSome = true ∧ f.became name value = false := by
  constructor
  · rintro ⟨d,hm,hname,hne⟩
    refine ⟨moved_iff.mpr ⟨d,hm,hname⟩,?_⟩
    exact became_one hne ((became_iff hd).mpr ⟨d,hm,hname,rfl⟩)
  · rintro ⟨hm,hb⟩
    obtain ⟨d,hd',hname⟩ := moved_iff.mp hm
    refine ⟨d,hd',hname,fun hv => ?_⟩
    exact Bool.false_ne_true (hb.symm.trans ((became_iff hd).mpr ⟨d,hd',hname,hv⟩))

theorem hasDelta_of_moved {kind : ObservationKind} {f : ChangeFacts} {name : String}
    {significance : FieldSignificance} (hd : Described kind f.deltas)
    (hs : (significanceOf kind name).getD .unclassified = significance)
    (hm : (f.moved name).isSome = true) : f.hasDelta significance = true := by
  obtain ⟨d,hin,rfl⟩ := moved_iff.mp hm
  exact hasDelta_iff.mpr ⟨d,hin,by rw [hd.classified d hin, hs]⟩

/-- The last rows are no more severe than that. -/
theorem fallback_le (f : ChangeFacts) : (fallback f).rank ≤ ChangeSeverity.medium.rank := by
  unfold fallback fallbackRules unclassifiedRule
  simp only [List.cons_append, List.nil_append, pick_cons]
  split_ifs <;> exact Nat.le_of_ble_eq_true rfl

/-- A row that fires alone fires together, and nothing behind it is more severe. -/
theorem row_le {a b : Prop} [Decidable a] [Decidable b] {s x y : ChangeSeverity} (hab : a → b)
    (hs : x.rank ≤ s.rank) (hxy : x.rank ≤ y.rank) :
    (if a then s else x).rank ≤ (if b then s else y).rank := by
  by_cases ha : a
  · rw [if_pos ha, if_pos (hab ha)]
  · rw [if_neg ha]
    by_cases hb : b
    · rwa [if_pos hb]
    · rwa [if_neg hb]

theorem row_le_top {a : Prop} [Decidable a] {s x t : ChangeSeverity} (hs : s.rank ≤ t.rank)
    (hx : x.rank ≤ t.rank) : (if a then s else x).rank ≤ t.rank := by
  by_cases ha : a
  · rwa [if_pos ha]
  · rwa [if_neg ha]

/-- Among the last rows a field is no more severe alone. -/
theorem fallback_alone_le {f : ChangeFacts} {d : FieldDelta} (hm : d ∈ f.deltas)
    (hid : f.hasDelta .identity = false) (hord : f.hasDelta .order = false) :
    (fallback (alone f d)).rank ≤ (fallback f).rank := by
  have hout : ∀ s, f.hasDelta s = false → d.significance ≠ s := fun s hs hsame =>
    Bool.false_ne_true (hs.symm.trans (hasDelta_iff.mpr ⟨d,hm,hsame⟩))
  rw [fallback_eq (List.ne_nil_of_mem hm) hid hord,
    fallback_eq (List.cons_ne_nil _ _) (by simp [hout _ hid]) (by simp [hout _ hord])]
  apply row_le
  · simp only [alone_hasDelta, Bool.or_eq_true, decide_eq_true_eq]
    exact Or.imp (fun hs => hasDelta_iff.mpr ⟨d,hm,hs⟩) fun hs => hasDelta_iff.mpr ⟨d,hm,hs⟩
  · decide
  · exact Nat.le_refl _

section Ordered
variable {f : ChangeFacts} {d : FieldDelta}

theorem moved_together (hm : d ∈ f.deltas) {name : String}
    (h : ((alone f d).moved name).isSome = true) : (f.moved name).isSome = true := by
  rw [alone_moved, decide_eq_true_eq] at h
  exact moved_iff.mpr ⟨d,hm,h⟩

theorem hasDelta_together (hm : d ∈ f.deltas) {significance : FieldSignificance}
    (h : (alone f d).hasDelta significance = true) : f.hasDelta significance = true := by
  rw [alone_hasDelta, decide_eq_true_eq] at h
  exact hasDelta_iff.mpr ⟨d,hm,h⟩

/-- A key that moved comes before anything else. -/
theorem identity_first (hm : d ∈ f.deltas) {x y : ChangeSeverity}
    (hx : x.rank ≤ ChangeSeverity.high.rank)
    (hxy : f.hasDelta .identity = false → x.rank ≤ y.rank) :
    (if (alone f d).hasDelta .identity then ChangeSeverity.high else x).rank ≤
      (if f.hasDelta .identity then ChangeSeverity.high else y).rank := by
  by_cases hid : f.hasDelta .identity = true
  · rw [if_pos hid]
    exact row_le_top (Nat.le_refl _) hx
  · rw [if_neg hid, if_neg fun hs => hid (hasDelta_together hm hs)]
    exact hxy (Bool.eq_false_of_not_eq_true hid)

variable (h : f.action = .modified) (hd : Described f.kind f.deltas)
include h hd

/-- A key of an edge, or nothing that counts. -/
theorem membership_covers (hk : f.kind = .membershipEdge) : Covers f := by
  intro d hm
  rw [membership_chain (f := alone f d) h hk, membership_chain h hk]
  apply identity_first hm
  · exact (fallback_le _).trans (by decide)
  · intro hid
    exact fallback_alone_le hm hid (no_position (by rw [hk]; decide) hd)

theorem share_covers (hk : f.kind = .smbShare) : Covers f := by
  intro d hm
  have hlast := fallback_le (alone f d)
  rw [share_chain (f := alone f d) h hk, share_chain h hk]
  apply identity_first hm
  · apply row_le_top (by decide)
    exact row_le_top (by decide) (hlast.trans (by decide))
  · intro hid
    apply row_le (moved_together hm)
    · exact row_le_top (by decide) (hlast.trans (by decide))
    · apply row_le (moved_together hm) hlast
      exact fallback_alone_le hm hid (no_position (by rw [hk]; decide) hd)

theorem server_covers (hk : f.kind = .server) : Covers f := by
  intro d hm
  have hlast := fallback_le (alone f d)
  rw [server_chain (f := alone f d) h hk, server_chain h hk]
  apply identity_first hm
  · apply row_le_top (by decide)
    exact row_le_top (by decide) (hlast.trans (by decide))
  · intro hid
    apply row_le (moved_together hm)
    · exact row_le_top (by decide) (hlast.trans (by decide))
    · apply row_le _ hlast
      · exact fallback_alone_le hm hid (no_position (by rw [hk]; decide) hd)
      · rw [Bool.or_eq_true, Bool.or_eq_true]
        exact Or.imp (moved_together hm) (moved_together hm)

end Ordered

end Adg.SeverityOrder
