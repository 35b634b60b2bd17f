import Adg.SeverityOrder

/-!
# Fields that silence others

Three kinds have rows that stand before more severe ones. For each of them: what
a field of it scores alone, which moves keep a more severe one from being heard,
and that these are all of them.
-/

set_option autoImplicit false

namespace Adg.SilencedChanges
open Adg.Observation Adg.ObjectVersions Adg.ChangeFields Adg.ChangeRules Adg.SortedLists
open Adg.ChangeRules.Principals Adg.ChangeClassification Adg.SeverityOrder

/-- What the table says of a field of a kind is what its delta carries. -/
theorem significance_eq {f : ChangeFacts} {kind : ObservationKind} {d : FieldDelta} {name : String}
    (hd : Described f.kind f.deltas) (hk : f.kind = kind) (hm : d ∈ f.deltas)
    (hn : d.field = name) :
    d.significance = (significanceOf kind name).getD .unclassified := by
  rw [hd.classified d hm, hk, hn]

theorem no_significance {f : ChangeFacts} {d : FieldDelta} {significance : FieldSignificance}
    (h : f.hasDelta significance = false) (hm : d ∈ f.deltas) : d.significance ≠ significance :=
  fun hs => Bool.false_ne_true (h.symm.trans (hasDelta_iff.mpr ⟨d,hm,hs⟩))

/-! ### Principals -/

/-- A principal was disabled, or its scope moved, and a field that is more severe alone
moved with it. -/
def silencedPrincipal (f : ChangeFacts) : Bool :=
  !f.hasDelta .identity && !f.became "group_type" (.text "security") &&
  !f.became "group_type" (.text "distribution") && !f.became "enabled" (.truth true) &&
  ((f.became "enabled" (.truth false) &&
      ((f.moved "is_deleted").isSome || (f.moved "group_type").isSome ||
        f.hasDelta .unclassified)) ||
    (!f.became "enabled" (.truth false) && !f.became "is_deleted" (.truth false) &&
      !f.became "is_deleted" (.truth true) && (f.moved "group_scope").isSome &&
      ((f.moved "group_type").isSome || (f.moved "enabled").isSome ||
        (f.moved "is_deleted").isSome || f.hasDelta .unclassified)))

section Principals
variable {f : ChangeFacts} (h : f.action = .modified) (hk : f.kind = .principal)
  (hd : Described f.kind f.deltas)
include h hk hd

theorem principal_alone {d : FieldDelta} (hm : d ∈ f.deltas) :
    (evaluate (alone f d)).severity =
      if d.significance = .identity then .high
      else if d.field = "group_type" then (if d.after = .text "security" then .high else .medium)
      else if d.field = "enabled" then (if d.after = .truth false then .low else .medium)
      else if d.field = "is_deleted" then .medium
      else if d.field = "group_scope" then .low
      else if d.significance = .unclassified then .medium
      else .info := by
  have hne := no_significance (no_position (by rw [hk]; decide) hd) hm
  have hs : ∀ name, d.field = name → _ := fun name => significance_eq hd hk hm
  rw [principal_chain (f := alone f d) h hk]
  by_cases hid : d.significance = .identity
  · simp [hid]
  · have hfallback : fallback (alone f d) =
        if d.significance = .unclassified ∨ d.significance = .security then .medium else .info := by
      rw [fallback_eq (List.cons_ne_nil _ _) (by simp [hid]) (by simp [hne])]
      simp
    rw [hfallback]
    by_cases h1 : d.field = "group_type"
    · simp [h1, (hs _ h1).trans (show _ = FieldSignificance.security by rfl)]
    · by_cases h2 : d.field = "enabled"
      · have hsecurity := (hs _ h2).trans (show _ = FieldSignificance.security by rfl)
        by_cases hon : d.after = .truth true
        · simp [h2, hsecurity, hon]
        · simp [h2, hsecurity, hon]
      · by_cases h3 : d.field = "is_deleted"
        · simp [h3, (hs _ h3).trans (show _ = FieldSignificance.security by rfl)]
        · by_cases h4 : d.field = "group_scope"
          · simp [h4, hid]
          · have hother : d.significance ≠ .security := by
              intro hsecurity
              have hfield := field_of_significance (by decide) ((hs _ rfl).symm.trans hsecurity)
              simp [fieldSignificance, h1, h2, h3, h4] at hfield
            simp [h1, h2, h3, h4, hid, hother]

theorem principal_never_critical : ¬ Heard f .critical := by
  rintro ⟨d,hm,hle⟩
  rw [principal_alone h hk hd hm] at hle
  split_ifs at hle <;> simp [ChangeSeverity.rank] at hle

theorem principal_high : Heard f .high ↔
    f.hasDelta .identity = true ∨ f.became "group_type" (.text "security") = true := by
  rw [hasDelta_iff, became_iff hd.apart]
  simp only [← exists_or, ← and_or_left]
  apply heard_iff
  intro d hm
  rw [principal_alone h hk hd hm]
  split_ifs <;> grind [ChangeSeverity.rank]

theorem principal_medium : Heard f .medium ↔ f.hasDelta .identity = true ∨
    (f.moved "group_type").isSome = true ∨
    ((f.moved "enabled").isSome = true ∧ f.became "enabled" (.truth false) = false) ∨
    (f.moved "is_deleted").isSome = true ∨ f.hasDelta .unclassified = true := by
  rw [← moved_elsewhere hd.apart]
  simp only [hasDelta_iff, moved_iff, ← exists_or, ← and_or_left]
  apply heard_iff
  intro d hm
  have hknown : d.field = "enabled" ∨ d.field = "group_scope" →
      d.significance ≠ .unclassified := by
    rintro (hf | hf)
    · rw [significance_eq hd hk hm hf]
      decide
    · rw [significance_eq hd hk hm hf]
      decide
  rw [principal_alone h hk hd hm]
  split_ifs <;> grind [ChangeSeverity.rank]

theorem principal_low : Heard f .low ↔ Heard f .medium ∨
    f.became "enabled" (.truth false) = true ∨ (f.moved "group_scope").isSome = true := by
  rw [became_iff hd.apart]
  simp only [Heard, moved_iff, ← exists_or, ← and_or_left]
  apply heard_iff
  intro d hm
  rw [principal_alone h hk hd hm]
  split_ifs <;> grind [ChangeSeverity.rank]

omit h in
theorem principal_security {name : String} (hn : name ∈ ["group_type","enabled","is_deleted"])
    (hm : (f.moved name).isSome = true) : f.hasDelta .security = true := by
  apply hasDelta_of_moved hd _ hm
  rw [hk]
  fin_cases hn <;> rfl

/-- What is more severe than low alone is so together, unless it is silenced. -/
theorem principal_medium_heard (hs : silencedPrincipal f = false) (hm : Heard f .medium) :
    ChangeSeverity.medium.rank ≤ (evaluate f).severity.rank := by
  have hne : f.deltas ≠ [] := by
    obtain ⟨d,hin,-⟩ := hm
    exact List.ne_nil_of_mem hin
  rw [principal_medium h hk hd] at hm
  rw [principal_chain h hk]
  split_ifs with hid hsec hdist hon hoff hback hgone hscope
  · decide
  · decide
  · exact Nat.le_refl _
  · exact Nat.le_refl _
  · simp_all [silencedPrincipal]
  · exact Nat.le_refl _
  · exact Nat.le_refl _
  · simp_all [silencedPrincipal]
  · rw [fallback_eq hne (Bool.eq_false_of_not_eq_true hid)
      (no_position (by rw [hk]; decide) hd), if_pos]
    rw [Bool.or_eq_true]
    rcases hm with hm | hm | hm | hm | hm
    · exact absurd hm hid
    · exact Or.inr (principal_security hk hd (by decide) hm)
    · exact Or.inr (principal_security hk hd (by decide) hm.1)
    · exact Or.inr (principal_security hk hd (by decide) hm)
    · exact Or.inl hm

theorem principal_covers : Covers f ↔ silencedPrincipal f = false := by
  rw [covers_iff]
  constructor
  · intro hc
    have hm := hc .medium
    rw [principal_medium h hk hd, principal_chain h hk] at hm
    have hon := @became_one f "enabled" (.truth false) (.truth true) (by decide)
    have hoff := @became_moved f "enabled" (.truth false)
    clear hc
    unfold silencedPrincipal
    grind [ChangeSeverity.rank]
  · intro hs floor hf
    cases floor with
    | critical => exact absurd hf (principal_never_critical h hk hd)
    | high =>
      rw [principal_chain h hk]
      rcases (principal_high h hk hd).mp hf with hid | hsec
      · rw [if_pos hid]
      · rw [if_pos hsec]
        split_ifs <;> exact Nat.le_refl _
    | medium => exact principal_medium_heard h hk hd hs hf
    | low =>
      rcases (principal_low h hk hd).mp hf with hm | hoff | hscope
      · exact le_trans (by decide) (principal_medium_heard h hk hd hs hm)
      · rw [principal_chain h hk, if_pos hoff]
        split_ifs <;> decide
      · rw [principal_chain h hk, if_pos hscope]
        split_ifs <;> decide
    | info => exact Nat.zero_le _

end Principals

/-! ### Directories -/

/-- The DACL went with a key, the owner became a broad trustee under a change of
inheritance, or the hash moved with more than itself. -/
def silencedResource (f : ChangeFacts) : Bool :=
  (f.hasDelta .identity && f.became "dacl_present" (.truth false)) ||
  (!f.hasDelta .identity && !f.became "dacl_present" (.truth false) &&
    !f.became "dacl_protected" (.truth false) &&
    (((f.became "dacl_protected" (.truth true) || (f.moved "inheritance_enabled").isSome) &&
        (f.moved "owner_sid").isSome && isBroadTrustee (movedTo f "owner_sid")) ||
      (!f.became "dacl_protected" (.truth true) && !(f.moved "inheritance_enabled").isSome &&
        !(f.moved "owner_sid").isSome && (f.moved "acl_hash").isSome &&
        f.siblingAceChanges ≠ some 0 &&
        ((f.moved "dacl_present").isSome || (f.moved "dacl_protected").isSome ||
          f.hasDelta .unclassified))))

section Resources
variable {f : ChangeFacts} (h : f.action = .modified) (hk : f.kind = .ntfsResource)
  (hd : Described f.kind f.deltas)
include h hk hd

theorem resource_alone {d : FieldDelta} (hm : d ∈ f.deltas) :
    (evaluate (alone f d)).severity =
      if d.significance = .identity then .high
      else if d.field = "dacl_present" then
        (if d.after = .truth false then .critical else .medium)
      else if d.field = "dacl_protected" then (if d.after = .truth false then .high else .medium)
      else if d.field = "inheritance_enabled" then .medium
      else if d.field = "owner_sid" then
        (if isBroadTrustee (nonEmptyText d.after) then .high else .medium)
      else if d.field = "acl_hash" then (if f.siblingAceChanges = some 0 then .medium else .low)
      else if d.significance = .unclassified then .medium
      else .info := by
  have hne := no_significance (no_position (by rw [hk]; decide) hd) hm
  have hs : ∀ name, d.field = name → _ := fun name => significance_eq hd hk hm
  rw [resource_chain (f := alone f d) h hk]
  by_cases hid : d.significance = .identity
  · simp [hid]
  · have hfallback : fallback (alone f d) =
        if d.significance = .unclassified ∨ d.significance = .security then .medium else .info := by
      rw [fallback_eq (List.cons_ne_nil _ _) (by simp [hid]) (by simp [hne])]
      simp
    have hsiblings : (alone f d).siblingAceChanges = f.siblingAceChanges := rfl
    rw [hfallback, hsiblings]
    by_cases h1 : d.field = "dacl_present"
    · simp [h1, (hs _ h1).trans (show _ = FieldSignificance.security by rfl)]
    · by_cases h2 : d.field = "dacl_protected"
      · have hsecurity := (hs _ h2).trans (show _ = FieldSignificance.security by rfl)
        by_cases hon : d.after = .truth true
        · simp [h2, hsecurity, hon]
        · simp [h2, hsecurity, hon]
      · by_cases h3 : d.field = "inheritance_enabled"
        · simp [h3, hid]
        · by_cases h4 : d.field = "owner_sid"
          · simp [h4, hid]
          · by_cases h5 : d.field = "acl_hash"
            · simp [h5, hid]
            · have hother : d.significance ≠ .security := by
                intro hsecurity
                have hfield := field_of_significance (by decide) ((hs _ rfl).symm.trans hsecurity)
                simp [fieldSignificance, h1, h2, h3, h4, h5] at hfield
              simp [h1, h2, h3, h4, h5, hid, hother]

theorem resource_critical : Heard f .critical ↔ f.became "dacl_present" (.truth false) = true := by
  rw [became_iff hd.apart]
  apply heard_iff
  intro d hm
  have hknown : d.field = "dacl_present" → d.significance ≠ .identity := by
    intro hf
    rw [significance_eq hd hk hm hf]
    decide
  rw [resource_alone h hk hd hm]
  split_ifs <;> grind [ChangeSeverity.rank]

omit h hk in
/-- The owner became a broad trustee. -/
theorem owner_broad : (∃ d ∈ f.deltas, d.field = "owner_sid" ∧
      isBroadTrustee (nonEmptyText d.after) = true) ↔
    (f.moved "owner_sid").isSome = true ∧ isBroadTrustee (movedTo f "owner_sid") = true := by
  constructor
  · rintro ⟨d,hm,hn,hb⟩
    refine ⟨moved_iff.mpr ⟨d,hm,hn⟩,?_⟩
    rwa [← hn, movedTo_eq hd.apart hm]
  · rintro ⟨ho,hb⟩
    obtain ⟨d,hm,hn⟩ := moved_iff.mp ho
    rw [← hn, movedTo_eq hd.apart hm] at hb
    exact ⟨d,hm,hn,hb⟩

theorem resource_high : Heard f .high ↔ f.hasDelta .identity = true ∨
    f.became "dacl_present" (.truth false) = true ∨
    f.became "dacl_protected" (.truth false) = true ∨
    ((f.moved "owner_sid").isSome = true ∧ isBroadTrustee (movedTo f "owner_sid") = true) := by
  rw [← owner_broad hd]
  simp only [hasDelta_iff, became_iff hd.apart, ← exists_or, ← and_or_left]
  apply heard_iff
  intro d hm
  rw [resource_alone h hk hd hm]
  split_ifs <;> grind [ChangeSeverity.rank]

theorem resource_medium : Heard f .medium ↔ f.hasDelta .identity = true ∨
    (f.moved "dacl_present").isSome = true ∨ (f.moved "dacl_protected").isSome = true ∨
    (f.moved "inheritance_enabled").isSome = true ∨ (f.moved "owner_sid").isSome = true ∨
    ((f.moved "acl_hash").isSome = true ∧ f.siblingAceChanges = some 0) ∨
    f.hasDelta .unclassified = true := by
  simp only [hasDelta_iff, moved_iff, ← exists_and_right, and_assoc, ← exists_or, ← and_or_left]
  apply heard_iff
  intro d hm
  have hknown : d.field = "acl_hash" → d.significance ≠ .unclassified := by
    intro hf
    rw [significance_eq hd hk hm hf]
    decide
  rw [resource_alone h hk hd hm]
  split_ifs <;> grind [ChangeSeverity.rank]

theorem resource_low : Heard f .low ↔ Heard f .medium ∨ (f.moved "acl_hash").isSome = true := by
  simp only [Heard, moved_iff, ← exists_or, ← and_or_left]
  apply heard_iff
  intro d hm
  rw [resource_alone h hk hd hm]
  split_ifs <;> grind [ChangeSeverity.rank]

omit h in
theorem resource_security {name : String} (hn : name ∈ ["dacl_present","dacl_protected"])
    (hm : (f.moved name).isSome = true) : f.hasDelta .security = true := by
  apply hasDelta_of_moved hd _ hm
  rw [hk]
  fin_cases hn <;> rfl

theorem resource_medium_heard (hs : silencedResource f = false) (hm : Heard f .medium) :
    ChangeSeverity.medium.rank ≤ (evaluate f).severity.rank := by
  have hne : f.deltas ≠ [] := by
    obtain ⟨d,hin,-⟩ := hm
    exact List.ne_nil_of_mem hin
  rw [resource_medium h hk hd] at hm
  rw [resource_chain h hk]
  split_ifs with hid hnone hopen hclosed hinherit hbroad howner hunexplained hhash
  any_goals decide
  · simp_all [silencedResource]
  · rw [fallback_eq hne (Bool.eq_false_of_not_eq_true hid)
      (no_position (by rw [hk]; decide) hd), if_pos]
    rw [Bool.or_eq_true]
    rcases hm with hm | hm | hm | hm | hm | hm | hm
    · exact absurd hm hid
    · exact Or.inr (resource_security hk hd (by decide) hm)
    · exact Or.inr (resource_security hk hd (by decide) hm)
    · exact absurd hm hinherit
    · exact absurd hm howner
    · exact absurd hm.1 hhash
    · exact Or.inl hm

theorem resource_covers : Covers f ↔ silencedResource f = false := by
  rw [covers_iff]
  constructor
  · intro hc
    have hcritical := hc .critical
    have hhigh := hc .high
    have hmedium := hc .medium
    rw [resource_critical h hk hd, resource_chain h hk] at hcritical
    rw [resource_high h hk hd, resource_chain h hk] at hhigh
    rw [resource_medium h hk hd, resource_chain h hk] at hmedium
    have hclosed := @became_moved f "dacl_protected" (.truth true)
    clear hc
    by_contra hsil
    simp only [silencedResource, Bool.not_eq_false, Bool.or_eq_true, Bool.and_eq_true,
      Bool.not_eq_true', decide_eq_true_eq] at hsil
    rcases hsil with ⟨hid,hnone⟩ | ⟨⟨⟨hid,hnone⟩,hopen⟩,hrest⟩
    · simp [hid, hnone, ChangeSeverity.rank] at hcritical
    · rcases hrest with ⟨⟨hmoved,howner⟩,hbroad⟩ | ⟨⟨⟨⟨⟨hprotected,hinherit⟩,howner⟩,hhash⟩,hsib⟩,hlost⟩
      · rw [hid, hnone, hopen, howner, hbroad] at hhigh
        rcases hmoved with hprotected | hinherit
        · simp [hprotected, ChangeSeverity.rank] at hhigh
        · cases hprotected : f.became "dacl_protected" (.truth true) <;>
            simp [hprotected, hinherit, ChangeSeverity.rank] at hhigh
      · rw [hid, hnone, hopen, hprotected, hinherit, howner, hhash] at hmedium
        rcases hlost with (hlost | hlost) | hlost <;>
          simp [hlost, hsib, ChangeSeverity.rank] at hmedium
  · intro hs floor hf
    cases floor with
    | critical =>
      have hnone := (resource_critical h hk hd).mp hf
      have hid : f.hasDelta .identity = false := by simp_all [silencedResource]
      rw [resource_chain h hk, hid, if_neg Bool.false_ne_true, if_pos hnone]
    | high =>
      rw [resource_high h hk hd] at hf
      rw [resource_chain h hk]
      split_ifs with hid hnone hopen hclosed hinherit hbroad howner hunexplained hhash
      any_goals decide
      all_goals simp_all [silencedResource]
    | medium => exact resource_medium_heard h hk hd hs hf
    | low =>
      rcases (resource_low h hk hd).mp hf with hm | hhash
      · exact le_trans (by decide) (resource_medium_heard h hk hd hs hm)
      · rw [resource_chain h hk, if_pos hhash]
        split_ifs <;> decide
    | info => exact Nat.zero_le _

end Resources

/-! ### Entries of an ACL -/

/-- Some field that the table does not name, other than the one whose move was understood. -/
def strange (f : ChangeFacts) : Bool :=
  f.deltas.any fun d => d.significance = .unclassified ∧ d.field ≠ "source"

/-- The entry became inherited, and whether its position matters is not known. -/
def silencedAce (f : ChangeFacts) : Bool :=
  !f.hasDelta .identity && f.orderingMaterial.isNone && f.became "source" (.text "inherited") &&
    ((f.moved "order_index").isSome || strange f)

theorem strange_iff {f : ChangeFacts} : strange f = true ↔
    ∃ d ∈ f.deltas, d.significance = .unclassified ∧ d.field ≠ "source" := by
  unfold strange
  rw [List.any_eq_true]
  simp only [decide_eq_true_eq]

section Entries
variable {f : ChangeFacts} (h : f.action = .modified) (hk : f.kind ∈ aceKinds)
  (hd : Described f.kind f.deltas)
include hk hd

/-- Only the position is an order. -/
theorem position_field {d : FieldDelta} (hm : d ∈ f.deltas) (hs : d.significance = .order) :
    d.field = "order_index" := by
  have hfield := field_of_significance (by decide) ((hd.classified d hm).symm.trans hs)
  have hkind : f.kind = .smbAce ∨ f.kind = .ntfsAce := List.mem_pair.mp hk
  rcases hkind with hkind | hkind
  · rw [hkind] at hfield
    exact List.mem_singleton.mp hfield
  · rw [hkind] at hfield
    exact List.mem_singleton.mp hfield

/-- Only where it came from is about rights. -/
theorem security_field {d : FieldDelta} (hm : d ∈ f.deltas) (hs : d.significance = .security) :
    d.field = "source" := by
  have hfield := field_of_significance (by decide) ((hd.classified d hm).symm.trans hs)
  have hkind : f.kind = .smbAce ∨ f.kind = .ntfsAce := List.mem_pair.mp hk
  rcases hkind with hkind | hkind
  · rw [hkind] at hfield
    exact absurd hfield List.not_mem_nil
  · rw [hkind] at hfield
    exact List.mem_singleton.mp hfield

theorem source_counts {d : FieldDelta} (hm : d ∈ f.deltas) (hn : d.field = "source") :
    d.significance = .unclassified ∨ d.significance = .security := by
  rw [significance_eq hd rfl hm hn]
  have hkind : f.kind = .smbAce ∨ f.kind = .ntfsAce := List.mem_pair.mp hk
  rcases hkind with hkind | hkind
  · rw [hkind]
    exact Or.inl (by decide)
  · rw [hkind]
    exact Or.inr (by decide)

theorem position_counts {d : FieldDelta} (hm : d ∈ f.deltas) (hn : d.field = "order_index") :
    d.significance = .order := by
  rw [significance_eq hd rfl hm hn]
  have hkind : f.kind = .smbAce ∨ f.kind = .ntfsAce := List.mem_pair.mp hk
  rcases hkind with hkind | hkind <;> rw [hkind] <;> decide

include h

theorem ace_alone {d : FieldDelta} (hm : d ∈ f.deltas) :
    (evaluate (alone f d)).severity =
      if d.significance = .identity then .high
      else if f.orderingMaterial = some true then .high
      else if d.field = "source" ∧ d.after = .text "explicit" then .medium
      else if d.field = "source" ∧ d.after = .text "inherited" then .low
      else if f.orderingMaterial = some false then .info
      else if d.field = "order_index" then .medium
      else if d.significance = .unclassified ∨ d.significance = .security then .medium
      else .info := by
  rw [ace_chain (f := alone f d) h hk]
  have hmaterial : (alone f d).orderingMaterial = f.orderingMaterial := rfl
  by_cases hid : d.significance = .identity
  · simp [hid]
  · rw [hmaterial]
    by_cases hn : d.field = "order_index"
    · simp only [alone_hasDelta, alone_became, alone_moved, hn, hid]
      rcases f.orderingMaterial with - | - | - <;> simp
    · have hne : d.significance ≠ .order := fun hs => hn (position_field hk hd hm hs)
      rw [fallback_eq (List.cons_ne_nil _ _) (by simp [hid]) (by simp [hne])]
      simp [hid, hn]

theorem ace_le_high {d : FieldDelta} (hm : d ∈ f.deltas) :
    (evaluate (alone f d)).severity.rank ≤ ChangeSeverity.high.rank := by
  rw [ace_alone h hk hd hm]
  split_ifs <;> decide

/-- Where it is known whether the position matters, nothing is silenced. -/
theorem ace_known_covers (hknown : f.orderingMaterial ≠ none) : Covers f := by
  intro d hm
  have hbecame : ∀ value, d.field = "source" ∧ d.after = value →
      f.became "source" value = true := fun value hv => (became_iff hd.apart).mpr ⟨d,hm,hv⟩
  rw [ace_chain h hk]
  cases hmaterial : f.orderingMaterial with
  | none => exact absurd hmaterial hknown
  | some material =>
    cases material with
    | true =>
      simp only [if_true, ite_self]
      exact ace_le_high h hk hd hm
    | false =>
      rw [ace_alone h hk hd hm, hmaterial]
      apply row_le fun hid => hasDelta_iff.mpr ⟨d,hm,hid⟩
      · simp only [Option.some.injEq, Bool.false_eq_true, if_false, if_true]
        split_ifs <;> decide
      · simp only [Option.some.injEq, Bool.false_eq_true, if_false, if_true]
        apply row_le (hbecame _)
        · exact row_le_top (by decide) (by decide)
        · exact row_le (hbecame _) (by decide) (Nat.le_refl _)

section Unknown
variable (hunknown : f.orderingMaterial = none)
include hunknown

theorem ace_high : Heard f .high → f.hasDelta .identity = true := by
  rintro ⟨d,hm,hle⟩
  rw [ace_alone h hk hd hm, hunknown] at hle
  rw [hasDelta_iff]
  by_contra hid
  rw [if_neg fun hs => hid ⟨d,hm,hs⟩] at hle
  split_ifs at hle <;> simp_all [ChangeSeverity.rank]

theorem ace_medium : Heard f .medium ↔ f.hasDelta .identity = true ∨
    (f.moved "order_index").isSome = true ∨
    ((f.moved "source").isSome = true ∧ f.became "source" (.text "inherited") = false) ∨
    strange f = true := by
  rw [← moved_elsewhere hd.apart]
  simp only [hasDelta_iff, moved_iff, strange_iff, ← exists_or, ← and_or_left]
  apply heard_iff
  intro d hm
  have hposition := position_counts hk hd hm
  have hsource := source_counts hk hd hm
  have hsecurity := security_field hk hd hm
  rw [ace_alone h hk hd hm, hunknown]
  split_ifs <;> grind [ChangeSeverity.rank]

theorem ace_low : Heard f .low ↔
    Heard f .medium ∨ f.became "source" (.text "inherited") = true := by
  rw [became_iff hd.apart]
  simp only [Heard, ← exists_or, ← and_or_left]
  apply heard_iff
  intro d hm
  rw [ace_alone h hk hd hm]
  split_ifs <;> grind [ChangeSeverity.rank]

theorem ace_medium_heard (hs : silencedAce f = false) (hm : Heard f .medium) :
    ChangeSeverity.medium.rank ≤ (evaluate f).severity.rank := by
  have hne : f.deltas ≠ [] := by
    obtain ⟨d,hin,-⟩ := hm
    exact List.ne_nil_of_mem hin
  have hsource : (f.moved "source").isSome = true →
      f.hasDelta .unclassified = true ∨ f.hasDelta .security = true := by
    intro hmoved
    obtain ⟨d,hin,hn⟩ := moved_iff.mp hmoved
    exact Or.imp (fun hs => hasDelta_iff.mpr ⟨d,hin,hs⟩) (fun hs => hasDelta_iff.mpr ⟨d,hin,hs⟩)
      (source_counts hk hd hin hn)
  have hstrange : strange f = true → f.hasDelta .unclassified = true := by
    rw [strange_iff]
    rintro ⟨d,hin,hu,-⟩
    exact hasDelta_iff.mpr ⟨d,hin,hu⟩
  rw [ace_medium h hk hd hunknown] at hm
  rw [ace_chain h hk, hunknown]
  split_ifs with hid hmaterial hexplicit hinherited hposition
  · decide
  · exact hmaterial.elim
  · exact Nat.le_refl _
  · simp_all [silencedAce]
  · exact Nat.le_refl _
  · have hstill : f.hasDelta .order = false := by
      rw [← Bool.not_eq_true, hasDelta_iff]
      rintro ⟨d,hin,hs'⟩
      apply hposition
      rw [moved_iff.mpr ⟨d,hin,position_field hk hd hin hs'⟩]
      rfl
    rw [fallback_eq hne (Bool.eq_false_of_not_eq_true hid) hstill, if_pos]
    rw [Bool.or_eq_true]
    rcases hm with hm | hm | hm | hm
    · exact absurd hm hid
    · exact absurd (by rw [hm]; rfl) hposition
    · exact hsource hm.1
    · exact Or.inl (hstrange hm)

theorem ace_unknown_covers : Covers f ↔ silencedAce f = false := by
  rw [covers_iff]
  constructor
  · intro hc
    have hmedium := hc .medium
    rw [ace_medium h hk hd hunknown, ace_chain h hk] at hmedium
    clear hc
    by_contra hsil
    simp only [silencedAce, Bool.not_eq_false, Bool.or_eq_true, Bool.and_eq_true,
      Bool.not_eq_true'] at hsil
    obtain ⟨⟨⟨hid,-⟩,hinherited⟩,hlost⟩ := hsil
    have hexplicit := became_one (w := .text "explicit") (by decide) hinherited
    rw [hid, hunknown, hexplicit, hinherited] at hmedium
    rcases hlost with hlost | hlost <;> simp [hlost, ChangeSeverity.rank] at hmedium
  · intro hs floor hf
    cases floor with
    | critical =>
      obtain ⟨d,hm,hle⟩ := hf
      exact absurd (hle.trans (ace_le_high h hk hd hm)) (by decide)
    | high => rw [ace_chain h hk, if_pos (ace_high h hk hd hunknown hf)]
    | medium => exact ace_medium_heard h hk hd hunknown hs hf
    | low =>
      rcases (ace_low h hk hd hunknown).mp hf with hm | hinherited
      · exact le_trans (by decide) (ace_medium_heard h hk hd hunknown hs hm)
      · rw [ace_chain h hk, if_pos hinherited]
        split_ifs <;> decide
    | info => exact Nat.zero_le _

end Unknown

theorem ace_covers : Covers f ↔ silencedAce f = false := by
  by_cases hunknown : f.orderingMaterial = none
  · exact ace_unknown_covers h hk hd hunknown
  · refine iff_of_true (ace_known_covers h hk hd hunknown) ?_
    unfold silencedAce
    rw [Option.isNone_eq_false_iff.mpr (Option.ne_none_iff_isSome.mp hunknown)]
    simp

end Entries

/-! ### Every kind -/

/-- A transition one of whose fields would have been more severe alone. -/
def silenced (f : ChangeFacts) : Bool :=
  match f.kind with
  | .principal => silencedPrincipal f
  | .ntfsResource => silencedResource f
  | .smbAce | .ntfsAce => silencedAce f
  | .membershipEdge | .server | .smbShare => false

theorem covers_silenced {f : ChangeFacts} (h : f.action = .modified)
    (hd : Described f.kind f.deltas) : Covers f ↔ silenced f = false := by
  unfold silenced
  cases hk : f.kind with
  | principal => exact principal_covers h hk hd
  | ntfsResource => exact resource_covers h hk hd
  | smbAce | ntfsAce => exact ace_covers h (by rw [hk]; decide) hd
  | membershipEdge => exact iff_of_true (membership_covers h hd hk) rfl
  | server => exact iff_of_true (server_covers h hd hk) rfl
  | smbShare => exact iff_of_true (share_covers h hd hk) rfl

theorem silenced_still {f : ChangeFacts} (h : f.deltas = []) : silenced f = false := by
  have hdelta : ∀ s, f.hasDelta s = false := by
    intro s
    rw [ChangeFacts.hasDelta, h]
    rfl
  have hmoved : ∀ name, f.moved name = none := by
    intro name
    rw [ChangeFacts.moved, h]
    rfl
  have hstrange : strange f = false := by
    rw [strange, h]
    rfl
  unfold silenced
  cases f.kind <;>
    simp [silencedPrincipal, silencedResource, silencedAce, ChangeFacts.became, hdelta, hmoved,
      hstrange]

/-- The state with one column as another state has it. -/
def withField (state other : State) (name : String) : State :=
  (name,valueOf other name) :: state.filter fun column => column.1 ≠ name

/-- The newer version as it would be had one field of the object moved. -/
def onlyField (b after : ObjectVersion) (name : String) : ObjectVersion :=
  { after with state := some (withField (b.state.getD []) (after.state.getD []) name) }

theorem valueOf_withField (state other : State) (name column : String) :
    valueOf (withField state other name) column =
      if column = name then valueOf other name else valueOf state column := by
  unfold valueOf withField
  rw [List.lookup_cons]
  by_cases hc : column = name
  · rw [if_pos hc, hc, beq_self_eq_true]
    rfl
  · rw [if_neg hc, beq_false_of_ne hc]
    congr 1
    induction state with
    | nil => rfl
    | cons entry state ih =>
      rw [List.lookup_cons, List.filter_cons]
      by_cases he : column = entry.1
      · have hne : entry.1 ≠ name := he ▸ hc
        rw [if_pos (by simpa using hne), List.lookup_cons]
        simp [he]
      · rw [beq_false_of_ne he]
        split_ifs
        · rw [List.lookup_cons, beq_false_of_ne he]
          exact ih
        · exact ih

theorem deltaOf_only {kind : ObservationKind} {left right : State} {d : FieldDelta}
    (hd : deltaOf kind left right d.field = some d) (column : String) :
    deltaOf kind left (withField left right d.field) column =
      if column = d.field then some d else none := by
  by_cases hc : column = d.field
  · rw [if_pos hc, hc]
    obtain ⟨-,hbefore,hafter,hsignificance⟩ := deltaOf_some.mp hd
    refine deltaOf_some.mpr ⟨rfl,hbefore,?_,hsignificance⟩
    rw [valueOf_withField, if_pos rfl, hafter]
  · rw [if_neg hc]
    unfold deltaOf
    rw [dif_neg]
    rw [valueOf_withField, if_neg hc]
    exact fun h => h rfl

/-- What one name of a list without repetitions yields is all it yields. -/
theorem filterMap_single {d : FieldDelta} {names : List String} (hnames : names.Nodup)
    (hin : d.field ∈ names) :
    names.filterMap (fun column => if column = d.field then some d else none) = [d] := by
  induction names with
  | nil => cases hin
  | cons name names ih =>
    obtain ⟨hfresh,hrest⟩ := List.nodup_cons.mp hnames
    by_cases hn : name = d.field
    · have hnone : names.filterMap (fun column => if column = d.field then some d else none) = [] := by
        apply List.filterMap_eq_nil_iff.mpr
        intro column hcolumn
        refine if_neg fun hc => hfresh ?_
        rwa [hn, ← hc]
      rw [List.filterMap_cons, if_pos hn, hnone]
    · rw [List.filterMap_cons, if_neg hn]
      exact ih hrest ((List.mem_cons.mp hin).resolve_left (Ne.symm hn))

theorem deltasBetween_only {kind : ObservationKind} {before after : Option State}
    {d : FieldDelta} (hd : d ∈ deltasBetween kind before after) :
    deltasBetween kind before
      (some (withField (before.getD []) (after.getD []) d.field)) = [d] := by
  rw [deltasBetween_eq] at hd ⊢
  obtain ⟨name,-,hname⟩ := List.mem_filterMap.mp hd
  obtain rfl := (deltaOf_some.mp hname).1
  rw [Option.getD_some, funext (deltaOf_only hname)]
  apply filterMap_single
  · exact (sortedBy_perm id _).nodup_iff.mpr (List.nodup_dedup _)
  · rw [(sortedBy_perm id _).mem_iff, List.mem_dedup, List.map_append, List.mem_append]
    exact Or.inr List.mem_cons_self

/-- What a transition of an object that stays there scores depends on its fields only. -/
theorem severity_congr {f g : ChangeFacts} (hf : f.action = .modified) (hg : g.action = .modified)
    (hkind : f.kind = g.kind) (hdeltas : f.deltas = g.deltas)
    (hordering : f.orderingMaterial = g.orderingMaterial)
    (hsiblings : f.siblingAceChanges = g.siblingAceChanges) :
    (evaluate f).severity = (evaluate g).severity := by
  have hdelta : ∀ s, f.hasDelta s = g.hasDelta s := by
    intro s
    rw [ChangeFacts.hasDelta, ChangeFacts.hasDelta, hdeltas]
  have hmoved : ∀ name, f.moved name = g.moved name := by
    intro name
    rw [ChangeFacts.moved, ChangeFacts.moved, hdeltas]
  have hbecame : ∀ name value, f.became name value = g.became name value := by
    intro name value
    rw [ChangeFacts.became, ChangeFacts.became, hmoved]
  have hlast : fallback f = fallback g := by
    unfold fallback fallbackRules unclassifiedRule
    simp only [List.cons_append, List.nil_append, pick_cons, Rule.appliesTo, Option.all_none,
      hdelta, hdeltas]
    rfl
  have howner : movedTo f "owner_sid" = movedTo g "owner_sid" := by
    rw [movedTo, movedTo, hmoved]
  cases hk : g.kind with
  | principal =>
    rw [principal_chain hf (hkind.trans hk), principal_chain hg hk]
    simp only [hdelta, hbecame, hmoved, hlast]
  | ntfsResource =>
    rw [resource_chain hf (hkind.trans hk), resource_chain hg hk]
    simp only [hdelta, hbecame, hmoved, hlast, howner, hsiblings]
  | smbAce | ntfsAce =>
    rw [ace_chain hf (by rw [hkind, hk]; decide), ace_chain hg (by rw [hk]; decide)]
    simp only [hdelta, hbecame, hmoved, hlast, hordering]
  | membershipEdge =>
    rw [membership_chain hf (hkind.trans hk), membership_chain hg hk]
    simp only [hdelta, hlast]
  | server =>
    rw [server_chain hf (hkind.trans hk), server_chain hg hk]
    simp only [hdelta, hmoved, hlast]
  | smbShare =>
    rw [share_chain hf (hkind.trans hk), share_chain hg hk]
    simp only [hdelta, hmoved, hlast]

theorem factsOf_modified {b after : ObjectVersion} {s : Surroundings} {d : FieldDelta}
    (hd : d ∈ (factsOf (some b) after s).deltas) :
    (factsOf (some b) after s).action = .modified ∧
      d ∈ deltasBetween after.kind b.state after.state := by
  by_cases ha : actionFor (some b) after s.containerObservedBefore = .modified
  · refine ⟨ha,?_⟩
    have hdeltas : (factsOf (some b) after s).deltas = deltasBetween after.kind b.state after.state :=
      if_pos ha
    rwa [← hdeltas]
  · have hdeltas : (factsOf (some b) after s).deltas = [] := if_neg ha
    rw [hdeltas] at hd
    cases hd

theorem severity_only {b after : ObjectVersion} {s : Surroundings} {d : FieldDelta}
    (hd : d ∈ (factsOf (some b) after s).deltas) :
    (classify (some b) (onlyField b after d.field) s).severity =
      (evaluate (alone (factsOf (some b) after s) d)).severity := by
  obtain ⟨ha,hm⟩ := factsOf_modified hd
  have honly : (factsOf (some b) (onlyField b after d.field) s).action = .modified := ha
  have hdeltas : (factsOf (some b) (onlyField b after d.field) s).deltas = [d] :=
    (if_pos ha).trans (deltasBetween_only hm)
  exact severity_congr honly (g := alone (factsOf (some b) after s) d) ha rfl hdeltas rfl rfl

/-- A transition is never scored below what one of its fields would score alone, and
so no filter by severity hides it. -/
def NeverBelow (b after : ObjectVersion) (s : Surroundings) : Prop :=
  ∀ d ∈ (classify (some b) after s).deltas,
    (classify (some b) (onlyField b after d.field) s).severity.rank ≤
      (classify (some b) after s).severity.rank ∧
    ∀ floor, atLeast (classify (some b) (onlyField b after d.field) s).severity floor = true →
      atLeast (classify (some b) after s).severity floor = true

theorem never_below_iff (b after : ObjectVersion) (s : Surroundings) :
    NeverBelow b after s ↔ silenced (factsOf (some b) after s) = false := by
  have hcovers : NeverBelow b after s ↔ Covers (factsOf (some b) after s) := by
    constructor
    · intro h d hd
      rw [← severity_only hd]
      exact (h d hd).1
    · intro h d hd
      rw [severity_only hd]
      refine ⟨h d hd,fun floor hfloor => ?_⟩
      unfold atLeast at hfloor ⊢
      rw [decide_eq_true_eq] at hfloor ⊢
      exact hfloor.trans (h d hd)
  rw [hcovers]
  by_cases ha : actionFor (some b) after s.containerObservedBefore = .modified
  · apply covers_silenced ha
    have hdeltas : (factsOf (some b) after s).deltas = deltasBetween after.kind b.state after.state :=
      if_pos ha
    rw [hdeltas]
    exact deltasBetween_described _ _ _
  · have hdeltas : (factsOf (some b) after s).deltas = [] := if_neg ha
    refine iff_of_true ?_ (silenced_still hdeltas)
    intro d hd
    rw [hdeltas] at hd
    cases hd

namespace Sample

def account (enabled deleted : Bool) (validFrom : Instant) : ObjectVersion where
  versionId := 0
  kind := .principal
  key := "S-1-5-21-1-2-3-1104"
  isPresent := true
  state := some [("enabled",.truth enabled), ("is_deleted",.truth deleted)]
  stateHash := some "h"
  validFrom := validFrom
  lastSeenAt := validFrom
  openedByRunId := "r1"
  lastSeenRunId := "r1"

end Sample

/-- An account that is disabled and deleted at once scores low, deleted alone medium. -/
theorem deletion_muted : ¬ NeverBelow (Sample.account true false 0) (Sample.account false true 9) {} := by
  intro h
  have hdeleted := (h ⟨"is_deleted",.truth false,.truth true,.security,by decide⟩
    (by decide +kernel)).1
  revert hdeleted
  decide +kernel

end Adg.SilencedChanges
