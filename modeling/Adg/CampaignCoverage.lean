import Adg.CampaignReading

/-!
# What a campaign accounts for

A campaign puts each of the entries its scopes select into one item or under one
reason for leaving it out. It refuses when there are too many targets or too many
items. When there are too many entries it does not: the last of them in the order
of their keys are not read.
-/

set_option autoImplicit false

namespace Adg.CampaignCoverage
open Adg.ObjectVersions Adg.VersionTable Adg.VersionReads Adg.SortedLists Adg.ReviewGeneration
open Adg.Regeneration Adg.DriftReads Adg.Fallible Adg.CampaignReading

/-! ### What the items account for -/

/-- What a generation accounts for: each of some entries in exactly one item or counted under
its reason, and nothing else. -/
structure Accounts (options : GenerationOptions) (entries : Set ObservedGrant)
    (r : GenerationResult) : Prop where
  reviewed : ∀ g ∈ entries, exclusionReason options g.evidence.entry = none →
    (r.items.filter fun item => g.evidence ∈ item.grants).length = 1
  nothing_else : ∀ item ∈ r.items, item.grants.Nodup ∧ ∀ e ∈ item.grants,
    exclusionReason options e.entry = none ∧ ∃ g ∈ entries, g.evidence = e
  reasons : (r.excluded.map (·.1)).Nodup
  tallied : ∀ reason, (r.excluded.lookup reason).getD 0 =
    {g | g ∈ entries ∧ exclusionReason options g.evidence.entry = some reason}.ncard

/-- The pairs of a target and a principal that some entries are reviewed as. -/
def pairsOf (options : GenerationOptions) (entries : Set ObservedGrant) : Set NaturalKey :=
  {k | ∃ g ∈ entries, exclusionReason options g.evidence.entry = none ∧ itemNaturalKey g.grant = k}

section Items
variable {sha256 : String → String} {focus : CampaignFocus} {options : GenerationOptions}
  {names : List (String × Option String)} {gs : List ObservedGrant} {entries : Set ObservedGrant}

theorem ncard_of_list {α : Type} [DecidableEq α] {l : List α} (hl : l.Nodup) {s : Set α}
    (hs : ∀ a, a ∈ l ↔ a ∈ s) : s.ncard = l.length := by
  have hset : s = ↑l.toFinset := by
    ext a
    rw [Finset.mem_coe, List.mem_toFinset, hs]
  rw [hset, Set.ncard_coe_finset, List.toFinset_card_of_nodup hl]

theorem mem_naturalKeys {grants : List Grant} {k : NaturalKey} :
    k ∈ naturalKeys grants ↔ ∃ g ∈ grants, itemNaturalKey g = k := by
  unfold naturalKeys
  rw [mem_sortedBy, List.mem_dedup, List.mem_map]

theorem naturalKeys_nodup (grants : List Grant) : (naturalKeys grants).Nodup := by
  unfold naturalKeys
  rw [(sortedBy_perm _ _).nodup_iff]
  exact List.nodup_dedup _

theorem mem_included {g : ObservedGrant} :
    g ∈ included options gs ↔ g ∈ gs ∧ exclusionReason options g.evidence.entry = none := by
  unfold included
  rw [List.mem_filter, Option.isNone_iff_eq_none]

theorem produced_eq (hmem : ∀ g, g ∈ gs ↔ g ∈ entries) :
    (naturalKeys ((included options gs).map (·.grant))).length =
      (pairsOf options entries).ncard := by
  refine (ncard_of_list (naturalKeys_nodup _) fun k => ?_).symm
  rw [mem_naturalKeys]
  constructor
  · rintro ⟨o,ho,hkey⟩
    obtain ⟨g,hg,rfl⟩ := List.mem_map.mp ho
    obtain ⟨hin,hreason⟩ := mem_included.mp hg
    exact ⟨g,(hmem g).mp hin,hreason,hkey⟩
  · rintro ⟨g,hg,hreason,hkey⟩
    exact ⟨g.grant,List.mem_map_of_mem (mem_included.mpr ⟨(hmem g).mpr hg,hreason⟩),hkey⟩

theorem mem_buildItem {first : ObservedGrant} {members : List ObservedGrant} {e : GrantEvidence} :
    e ∈ (buildItem sha256 focus names first members).grants ↔ ∃ g ∈ members, g.evidence = e := by
  show e ∈ sortedBy (·.entry.aceKey) (members.map (·.evidence)) ↔ _
  rw [mem_sortedBy, List.mem_map]

theorem mem_buildItems {item : DraftItem} (h : item ∈ buildItems sha256 focus names gs) :
    ∃ key first, item = buildItem sha256 focus names first
      (gs.filter fun g => itemNaturalKey g.grant = key) := by
  obtain ⟨key,-,hitem⟩ := List.mem_filterMap.mp h
  obtain ⟨first,-,rfl⟩ := Option.map_eq_some_iff.mp hitem
  exact ⟨key,first,rfl⟩

/-- The items that hold a grant's evidence are the one of its target and principal. -/
theorem one_item (hinj : ∀ g ∈ gs, ∀ o ∈ gs, g.evidence = o.evidence → g = o) {g : ObservedGrant}
    (hg : g ∈ gs) : ((buildItems sha256 focus names gs).filter
      fun item => g.evidence ∈ item.grants).length = 1 := by
  unfold buildItems
  rw [List.filter_filterMap, List.length_filterMap_eq_countP]
  have hown : ∀ key, (Option.filter (fun item => decide (g.evidence ∈ item.grants))
      ((gs.filter fun o => itemNaturalKey o.grant = key).head?.map fun first =>
        buildItem sha256 focus names first
          (gs.filter fun o => itemNaturalKey o.grant = key))).isSome = true ↔
      key = itemNaturalKey g.grant := by
    intro key
    rw [Option.isSome_iff_exists]
    constructor
    · rintro ⟨item,hitem⟩
      obtain ⟨hmade,hin⟩ := Option.filter_eq_some_iff.mp hitem
      obtain ⟨first,-,rfl⟩ := Option.map_eq_some_iff.mp hmade
      obtain ⟨o,ho,hevidence⟩ := mem_buildItem.mp (of_decide_eq_true hin)
      obtain ⟨ho,hkey⟩ := List.mem_filter.mp ho
      rw [← hinj o ho g hg hevidence]
      exact (of_decide_eq_true hkey).symm
    · rintro rfl
      have hmember : g ∈ gs.filter fun o => itemNaturalKey o.grant = itemNaturalKey g.grant :=
        List.mem_filter.mpr ⟨hg,decide_eq_true rfl⟩
      obtain ⟨first,hfirst⟩ := Option.isSome_iff_exists.mp
        (List.isSome_head?.mpr (List.ne_nil_of_mem hmember))
      refine ⟨_,Option.filter_eq_some_iff.mpr
        ⟨Option.map_eq_some_iff.mpr ⟨first,hfirst,rfl⟩,?_⟩⟩
      exact decide_eq_true (mem_buildItem.mpr ⟨g,hmember,rfl⟩)
  have hcount : ∀ l : List NaturalKey, l.countP (fun key =>
      (Option.filter (fun item => decide (g.evidence ∈ item.grants))
        ((gs.filter fun o => itemNaturalKey o.grant = key).head?.map fun first =>
          buildItem sha256 focus names first
            (gs.filter fun o => itemNaturalKey o.grant = key))).isSome) =
      l.count (itemNaturalKey g.grant) := by
    intro l
    apply List.countP_congr
    intro key _
    rw [hown, beq_iff_eq]
  rw [hcount]
  apply List.count_eq_one_of_mem (naturalKeys_nodup _)
  exact mem_naturalKeys.mpr ⟨g.grant,List.mem_map_of_mem hg,rfl⟩

theorem lookup_counts {c : String → ℕ} {l : List String} {reason : String} :
    (l.map fun r => (r,c r)).lookup reason = if reason ∈ l then some (c reason) else none := by
  induction l with
  | nil => rfl
  | cons r l ih =>
    rw [List.map_cons, List.lookup_cons]
    by_cases hsame : reason = r
    · subst hsame
      rw [beq_self_eq_true, if_pos List.mem_cons_self]
    · rw [beq_false_of_ne hsame, ih]
      simp [hsame]

theorem tally_lookup (gs : List ObservedGrant) (reason : String) :
    ((tallyExcluded options gs).lookup reason).getD 0 =
      (gs.filter fun g => exclusionReason options g.evidence.entry = some reason).length := by
  have hcount : (gs.filterMap fun g => exclusionReason options g.evidence.entry).count reason =
      (gs.filter fun g => exclusionReason options g.evidence.entry = some reason).length := by
    rw [List.count_filterMap, List.countP_eq_length_filter]
    apply congrArg List.length
    apply List.filter_congr
    intro g _
    cases exclusionReason options g.evidence.entry <;> simp [beq_eq_decide]
  rw [← hcount]
  unfold tallyExcluded
  dsimp only
  rw [lookup_counts]
  split_ifs with hin
  · rfl
  · rw [mem_sortedBy, List.mem_dedup] at hin
    rw [List.count_eq_zero_of_not_mem hin]
    rfl

/-- A generation that returns accounts for the grants it was given. -/
theorem generateItems_accounts (hnodup : gs.Nodup)
    (hinj : ∀ g ∈ gs, ∀ o ∈ gs, g.evidence = o.evidence → g = o)
    (hmem : ∀ g, g ∈ gs ↔ g ∈ entries) {ceiling : ℕ} {r : GenerationResult}
    (h : generateItems sha256 focus options names gs ceiling = .ok r) :
    Accounts options entries r := by
  unfold generateItems at h
  dsimp only at h
  split_ifs at h
  rw [← Except.ok.inj h]
  have hkept : ∀ g ∈ included options gs, ∀ o ∈ included options gs,
      g.evidence = o.evidence → g = o := fun g hg o ho =>
    hinj g (mem_included.mp hg).1 o (mem_included.mp ho).1
  refine ⟨?_,?_,?_,?_⟩
  · intro g hg hreason
    exact one_item hkept (mem_included.mpr ⟨(hmem g).mpr hg,hreason⟩)
  · intro item hitem
    obtain ⟨key,first,rfl⟩ := mem_buildItems hitem
    constructor
    · have hperm : (buildItem sha256 focus names first ((included options gs).filter fun g =>
          itemNaturalKey g.grant = key)).grants.Perm (((included options gs).filter fun g =>
          itemNaturalKey g.grant = key).map (·.evidence)) := sortedBy_perm _ _
      rw [hperm.nodup_iff]
      apply List.Nodup.map_on _ ((hnodup.filter _).filter _)
      intro g hg o ho hevidence
      exact hkept g (List.mem_of_mem_filter hg) o (List.mem_of_mem_filter ho) hevidence
    · intro e he
      obtain ⟨g,hg,rfl⟩ := mem_buildItem.mp he
      obtain ⟨hin,hreason⟩ := mem_included.mp (List.mem_of_mem_filter hg)
      exact ⟨hreason,g,(hmem g).mp hin,rfl⟩
  · show ((tallyExcluded options gs).map (·.1)).Nodup
    unfold tallyExcluded
    dsimp only
    rw [List.map_map]
    show (List.map (fun r => r) _).Nodup
    rw [List.map_id', (sortedBy_perm _ _).nodup_iff]
    exact List.nodup_dedup _
  · intro reason
    show ((tallyExcluded options gs).lookup reason).getD 0 = _
    rw [tally_lookup]
    refine (ncard_of_list (hnodup.filter _) fun g => ?_).symm
    rw [List.mem_filter, decide_eq_true_eq, hmem]
    rfl

/-- What accounts for some entries and for fewer of them accounts for the same. -/
theorem Accounts.exact {fewer : Set ObservedGrant} {r : GenerationResult}
    (hinj : ∀ g ∈ entries, ∀ o ∈ entries, g.evidence = o.evidence → g = o)
    (hfinite : entries.Finite) (hsub : fewer ⊆ entries) (hall : Accounts options entries r)
    (hfewer : Accounts options fewer r) : entries ⊆ fewer := by
  intro g hg
  cases hreason : exclusionReason options g.evidence.entry with
  | none =>
    have hone := hall.reviewed g hg hreason
    obtain ⟨item,hitem⟩ := List.exists_mem_of_length_pos (by rw [hone]; exact Nat.one_pos)
    obtain ⟨hitem,hin⟩ := List.mem_filter.mp hitem
    obtain ⟨-,o,ho,hevidence⟩ := (hfewer.nothing_else item hitem).2 _ (of_decide_eq_true hin)
    rwa [hinj o (hsub ho) g hg hevidence] at ho
  | some reason =>
    have hsets : {g | g ∈ fewer ∧ exclusionReason options g.evidence.entry = some reason} =
        {g | g ∈ entries ∧ exclusionReason options g.evidence.entry = some reason} := by
      apply Set.eq_of_subset_of_ncard_le
      · rintro o ⟨ho,hr⟩
        exact ⟨hsub ho,hr⟩
      · rw [← hall.tallied, ← hfewer.tallied]
      · exact hfinite.subset fun o ho => ho.1
    have hin : g ∈ {g | g ∈ entries ∧ exclusionReason options g.evidence.entry = some reason} :=
      ⟨hg,hreason⟩
    rw [← hsets] at hin
    exact hin.1

end Items

/-! ### Generation -/

section Generation
variable {casefold sha256 : String → String} {t : Table} {plan : CampaignPlan}

/-- The entries that a plan's scopes select. -/
def selection (casefold : String → String) (t : Table) (plan : CampaignPlan) : Set ObservedGrant :=
  {g | Selects casefold t plan.baselineAt plan.focus plan.scopes g}

/-- Those of them that stand within the limit of some scope. -/
def reach (casefold : String → String) (t : Table) (plan : CampaignPlan) : Set ObservedGrant :=
  {g | Reaches casefold t plan.baselineAt plan.focus maxScopeTargets plan.scopes g}

/-- Some scope has more targets than a campaign may read. -/
def Overlarge (casefold : String → String) (t : Table) (plan : CampaignPlan) : Prop :=
  ∃ scope ∈ plan.scopes, Oversized casefold t plan.baselineAt plan.focus maxScopeTargets scope

/-- The entries within the limits make more items than a campaign may hold. -/
def Crowded (casefold : String → String) (t : Table) (plan : CampaignPlan) : Prop :=
  maxCampaignItems < (pairsOf plan.options (reach casefold t plan)).ncard

theorem reach_selection : reach casefold t plan ⊆ selection casefold t plan :=
  fun _ h => Reaches.selects h

theorem selection_injective (h : Chronicle t plan.baselineAt) : ∀ g ∈ selection casefold t plan,
    ∀ o ∈ selection casefold t plan, g.evidence = o.evidence → g = o := by
  intro g hg o ho hevidence
  apply selects_keyed h hg ho
  · rw [hevidence]
  · rw [hevidence]

theorem selection_finite : (selection casefold t plan).Finite := by
  have hmade := List.finite_toSet (([ReviewTargetKind.share, .resource].product t.rows).filterMap
    fun p => (grantAt t plan.baselineAt p.1 p.2).toOption)
  apply hmade.subset
  rintro g ⟨scope,-,kind,v,hv,hg⟩
  apply List.mem_filterMap.mpr
  refine ⟨(kind,v),List.mem_product.mpr ⟨?_,?_⟩,?_⟩
  · cases kind <;> simp
  · exact (List.mem_filter.mp (mem_entriesOf hv).1).1
  · simp only [hg]
    rfl

/-- A generation is refused for its targets, or for its items, or accounts for what is within
the limits. -/
theorem generate_cases (sha256 : String → String) (h : Chronicle t plan.baselineAt) :
    (Overlarge casefold t plan ∧
      ∃ n, generateFromBaseline casefold sha256 t plan = .error (.scopeTooLarge n)) ∨
    (¬ Overlarge casefold t plan ∧ Crowded casefold t plan ∧
      ∃ n, generateFromBaseline casefold sha256 t plan = .error (.campaignTooLarge n)) ∨
    (¬ Overlarge casefold t plan ∧ ¬ Crowded casefold t plan ∧
      ∃ r, generateFromBaseline casefold sha256 t plan = .ok r ∧
        Accounts plan.options (reach casefold t plan) r) := by
  by_cases hover : Overlarge casefold t plan
  · obtain ⟨n,hn⟩ := grantsAt_refused h hover
    refine .inl ⟨hover,n,?_⟩
    unfold generateFromBaseline
    rw [hn]
    rfl
  · have hfits : ∀ scope ∈ plan.scopes,
        ¬ Oversized casefold t plan.baselineAt plan.focus maxScopeTargets scope :=
      fun scope hscope hlarge => hover ⟨scope,hscope,hlarge⟩
    obtain ⟨gs,hgs,hmem,hstrict⟩ := grantsAt_ok h hfits
    set names := principalNamesAt t (gs.map (·.evidence.entry.trusteeKey)) plan.baselineAt
    have hgenerated : generateFromBaseline casefold sha256 t plan =
        generateItems sha256 plan.focus plan.options names gs maxCampaignItems := by
      unfold generateFromBaseline
      rw [hgs]
      rfl
    have hproduced : (naturalKeys ((included plan.options gs).map (·.grant))).length =
        (pairsOf plan.options (reach casefold t plan)).ncard := produced_eq hmem
    by_cases hcrowded : Crowded casefold t plan
    · refine .inr (.inl ⟨hover,hcrowded,(pairsOf plan.options (reach casefold t plan)).ncard,?_⟩)
      rw [hgenerated]
      unfold generateItems
      dsimp only
      rw [hproduced, if_pos (show maxCampaignItems < _ from hcrowded)]
    · right
      right
      have hok : ∃ r, generateItems sha256 plan.focus plan.options names gs maxCampaignItems =
          .ok r := by
        unfold generateItems
        dsimp only
        rw [hproduced, if_neg (show ¬ maxCampaignItems < _ from hcrowded)]
        exact ⟨_,rfl⟩
      obtain ⟨r,hr⟩ := hok
      refine ⟨hover,hcrowded,r,hgenerated.trans hr,?_⟩
      apply generateItems_accounts _ _ hmem hr
      · exact hstrict.imp fun hlt heq => by
          subst heq
          exact lt_irrefl _ hlt
      · intro g hg o ho hevidence
        exact selection_injective h g (reach_selection ((hmem g).mp hg)) o
          (reach_selection ((hmem o).mp ho)) hevidence

/-- Scopes that reach the same entries generate the same. -/
theorem generate_congr (sha256 : String → String) (h : Chronicle t plan.baselineAt)
    {scopes : List CampaignScope} (hfits : ¬ Overlarge casefold t plan)
    (hfits' : ¬ Overlarge casefold t { plan with scopes := scopes })
    (hsame : reach casefold t { plan with scopes := scopes } = reach casefold t plan) :
    generateFromBaseline casefold sha256 t { plan with scopes := scopes } =
      generateFromBaseline casefold sha256 t plan := by
  have heach : ∀ p : CampaignPlan, ¬ Overlarge casefold t p → ∀ scope ∈ p.scopes,
      ¬ Oversized casefold t p.baselineAt p.focus maxScopeTargets scope :=
    fun p hp scope hscope hlarge => hp ⟨scope,hscope,hlarge⟩
  obtain ⟨gs,hgs,hmem,hstrict⟩ := grantsAt_ok h (heach plan hfits)
  obtain ⟨gs',hgs',hmem',hstrict'⟩ := grantsAt_ok h (heach { plan with scopes := scopes } hfits')
  have hirrefl : Std.Irrefl fun g o : ObservedGrant => grantKey g.grant < grantKey o.grant :=
    ⟨fun g => lt_irrefl (grantKey g.grant)⟩
  have hasymm : Std.Antisymm fun g o : ObservedGrant => grantKey g.grant < grantKey o.grant :=
    ⟨fun _ _ hgo hog => (hgo.not_gt hog).elim⟩
  have heq : gs' = gs := by
    apply List.Pairwise.eq_of_mem_iff hstrict' hstrict
    intro g
    rw [hmem, hmem']
    exact Set.ext_iff.mp hsame g
  unfold generateFromBaseline
  dsimp only
  rw [hgs, hgs', heq]

end Generation

/-! ### What a campaign keeps of its promise -/

section Promise
variable {casefold sha256 : String → String} {t : Table} {plan : CampaignPlan}

/-- A scope with nothing in it that is not in another one. -/
def Within (casefold : String → String) (t : Table) (moment : Instant) :
    CampaignFocus → CampaignScope → CampaignScope → Prop
  | .principal, scope, other => ∀ kind, entriesOf casefold t moment .principal kind scope ⊆
      entriesOf casefold t moment .principal kind other
  | .resource, scope, other =>
    shareTargets casefold t moment scope ⊆ shareTargets casefold t moment other ∧
      resourceTargets casefold t moment scope ⊆ resourceTargets casefold t moment other

/-- A campaign refuses, or accounts for what its scopes select; and neither the order of the
scopes nor a scope inside another one changes its items, tally and digest. -/
structure KeepsPromise (casefold sha256 : String → String) (t : Table) (plan : CampaignPlan) :
    Prop where
  answers : (∃ n, generateFromBaseline casefold sha256 t plan = .error (.scopeTooLarge n) ∨
      generateFromBaseline casefold sha256 t plan = .error (.campaignTooLarge n)) ∨
    ∃ r, generateFromBaseline casefold sha256 t plan = .ok r ∧
      Accounts plan.options (selection casefold t plan) r
  unordered : ∀ scopes : List CampaignScope, scopes.Perm plan.scopes →
    (generateFromBaseline casefold sha256 t { plan with scopes := scopes }).toOption =
      (generateFromBaseline casefold sha256 t plan).toOption
  contained : ∀ scope, (∃ other ∈ plan.scopes,
      Within casefold t plan.baselineAt plan.focus scope other) →
    ∀ scopes : List CampaignScope, scopes.Perm (scope :: plan.scopes) →
      (generateFromBaseline casefold sha256 t { plan with scopes := scopes }).toOption =
        (generateFromBaseline casefold sha256 t plan).toOption

theorem select_length {moment : Instant} (p : ObjectVersion → Bool) :
    (select t moment p).length ≤ t.rows.length := by
  unfold select answering
  rw [sortedBy_length]
  exact (List.length_filter_le _ _).trans (List.length_filter_le _ _)

theorem shareTargets_nodup (moment : Instant) (scope : CampaignScope) :
    (shareTargets casefold t moment scope).Nodup := by
  unfold shareTargets select answering
  rw [(sortedBy_perm _ _).nodup_iff]
  exact ((List.Nodup.of_map _ t.ids_nodup).filter _).filter _

theorem resourceTargets_nodup (moment : Instant) (scope : CampaignScope) :
    (resourceTargets casefold t moment scope).Nodup := by
  unfold resourceTargets select answering
  rw [(sortedBy_perm _ _).nodup_iff]
  exact ((List.Nodup.of_map _ t.ids_nodup).filter _).filter _

theorem Within.fits {moment : Instant} {focus : CampaignFocus} {scope other : CampaignScope}
    (h : Within casefold t moment focus scope other) {ceiling : ℕ}
    (hover : Oversized casefold t moment focus ceiling scope) :
    Oversized casefold t moment focus ceiling other := by
  obtain ⟨rfl,hlarge⟩ := hover
  have hshares := ((shareTargets_nodup moment scope).subperm h.1).length_le
  have hresources := ((resourceTargets_nodup moment scope).subperm h.2).length_le
  exact ⟨rfl,by omega⟩

theorem containedAt_mono {kind : ObservationKind} {moment : Instant} {l m : List ObjectVersion}
    (h : l ⊆ m) : containedAt t kind (l.map (·.key)) moment ⊆
      containedAt t kind (m.map (·.key)) moment := by
  intro v hv
  obtain ⟨hanswers,hp⟩ := mem_select.mp hv
  apply mem_select.mpr
  refine ⟨hanswers,?_⟩
  rw [Bool.and_eq_true, Option.any_eq_true] at hp ⊢
  obtain ⟨hkind,container,hcontainer,hin⟩ := hp
  obtain ⟨w,hw,hkey⟩ := List.mem_map.mp (of_decide_eq_true hin)
  exact ⟨hkind,container,hcontainer,decide_eq_true (List.mem_map.mpr ⟨w,h hw,hkey⟩)⟩

theorem Within.entries {moment : Instant} {focus : CampaignFocus} {scope other : CampaignScope}
    (h : Within casefold t moment focus scope other) (kind : ReviewTargetKind) :
    entriesOf casefold t moment focus kind scope ⊆ entriesOf casefold t moment focus kind other := by
  cases focus with
  | principal => exact h kind
  | resource =>
    cases kind with
    | share => exact containedAt_mono h.1
    | resource => exact containedAt_mono h.2

/-- Plans that are refused alike, or reach the same, give the same. -/
theorem outcome_congr (sha256 : String → String) (h : Chronicle t plan.baselineAt)
    {scopes : List CampaignScope}
    (hover : Overlarge casefold t { plan with scopes := scopes } ↔ Overlarge casefold t plan)
    (hsame : ¬ Overlarge casefold t plan →
      reach casefold t { plan with scopes := scopes } = reach casefold t plan) :
    (generateFromBaseline casefold sha256 t { plan with scopes := scopes }).toOption =
      (generateFromBaseline casefold sha256 t plan).toOption := by
  by_cases hlarge : Overlarge casefold t plan
  · obtain ⟨n,hn⟩ := grantsAt_refused h hlarge
    obtain ⟨m,hm⟩ := grantsAt_refused h (hover.mpr hlarge)
    unfold generateFromBaseline
    dsimp only
    rw [hn, hm]
    rfl
  · rw [generate_congr sha256 h hlarge (fun hl => hlarge (hover.mp hl)) (hsame hlarge)]

theorem reaches_mono {focus : CampaignFocus} {moment : Instant} {ceiling : ℕ}
    {scopes scopes' : List CampaignScope} (h : scopes ⊆ scopes') {g : ObservedGrant}
    (hg : Reaches casefold t moment focus ceiling scopes g) :
    Reaches casefold t moment focus ceiling scopes' g := by
  obtain ⟨scope,hscope,hrest⟩ := hg
  exact ⟨scope,h hscope,hrest⟩

theorem pairsOf_finite {options : GenerationOptions} {entries : Set ObservedGrant}
    (h : entries.Finite) : (pairsOf options entries).Finite := by
  apply (h.image fun g => itemNaturalKey g.grant).subset
  rintro k ⟨g,hg,-,hkey⟩
  exact ⟨g,hg,hkey⟩

/-- The promise is kept when the campaign is refused, and otherwise exactly when every entry a
scope selects stands within the limit of some scope. -/
theorem campaign_accounts_iff (casefold sha256 : String → String) {t : Table}
    {plan : CampaignPlan} (h : Chronicle t plan.baselineAt) :
    KeepsPromise casefold sha256 t plan ↔ Overlarge casefold t plan ∨ Crowded casefold t plan ∨
      selection casefold t plan ⊆ reach casefold t plan := by
  constructor
  · intro hkept
    rcases generate_cases sha256 h with ⟨hover,-⟩ | ⟨-,hcrowded,-⟩ | ⟨-,-,r,hr,hreached⟩
    · exact .inl hover
    · exact .inr (.inl hcrowded)
    · rcases hkept.answers with ⟨n,hn | hn⟩ | ⟨r',hr',hselected⟩
      · rw [hr] at hn
        cases hn
      · rw [hr] at hn
        cases hn
      · rw [hr] at hr'
        rw [← Except.ok.inj hr'] at hselected
        exact .inr (.inr (hselected.exact (selection_injective h) selection_finite
          reach_selection hreached))
  · intro hcondition
    have hunordered : ∀ scopes : List CampaignScope, scopes.Perm plan.scopes →
        (generateFromBaseline casefold sha256 t { plan with scopes := scopes }).toOption =
          (generateFromBaseline casefold sha256 t plan).toOption := by
      intro scopes hperm
      apply outcome_congr sha256 h
      · simp only [Overlarge, hperm.mem_iff]
      · intro _
        ext g
        exact ⟨reaches_mono hperm.subset,reaches_mono hperm.symm.subset⟩
    refine ⟨?_,hunordered,?_⟩
    · rcases generate_cases sha256 h with ⟨-,n,hn⟩ | ⟨-,-,n,hn⟩ | ⟨hfits,hsparse,r,hr,hreached⟩
      · exact .inl ⟨n,.inl hn⟩
      · exact .inl ⟨n,.inr hn⟩
      · right
        rcases hcondition with hover | hcrowded | hall
        · exact absurd hover hfits
        · exact absurd hcrowded hsparse
        · rw [Set.Subset.antisymm reach_selection hall] at hreached
          exact ⟨r,hr,hreached⟩
    · rintro scope ⟨other,hother,hwithin⟩ scopes hperm
      have hover : Overlarge casefold t { plan with scopes := scopes } ↔
          Overlarge casefold t plan := by
        constructor
        · rintro ⟨large,hlarge,hsize⟩
          rcases List.mem_cons.mp (hperm.mem_iff.mp hlarge) with rfl | hin
          · exact ⟨other,hother,hwithin.fits hsize⟩
          · exact ⟨large,hin,hsize⟩
        · rintro ⟨large,hlarge,hsize⟩
          exact ⟨large,hperm.mem_iff.mpr (List.mem_cons_of_mem scope hlarge),hsize⟩
      have hmore : reach casefold t plan ⊆ reach casefold t { plan with scopes := scopes } :=
        fun g => reaches_mono fun s hs => hperm.mem_iff.mpr (List.mem_cons_of_mem scope hs)
      by_cases hcrowded : Crowded casefold t plan ∧ ¬ Overlarge casefold t plan
      · -- with more within the limits it stays refused
        have hstill : Crowded casefold t { plan with scopes := scopes } := by
          apply lt_of_lt_of_le hcrowded.1
          apply Set.ncard_le_ncard
          · rintro k ⟨g,hg,hrest⟩
            exact ⟨g,hmore hg,hrest⟩
          · exact pairsOf_finite (selection_finite.subset reach_selection)
        have hrefused : ∀ p : CampaignPlan, Chronicle t p.baselineAt → Crowded casefold t p →
            ¬ Overlarge casefold t p →
            (generateFromBaseline casefold sha256 t p).toOption = none := by
          intro p hp hcrowd hfit
          rcases generate_cases sha256 hp with ⟨hlarge,-⟩ | ⟨-,-,n,hn⟩ | ⟨-,hsparse,-⟩
          · exact absurd hlarge hfit
          · rw [hn]
            rfl
          · exact absurd hcrowd hsparse
        rw [hrefused plan h hcrowded.1 hcrowded.2,
          hrefused { plan with scopes := scopes } h hstill fun hl => hcrowded.2 (hover.mp hl)]
      · apply outcome_congr sha256 h hover
        intro hfits
        have hall : selection casefold t plan ⊆ reach casefold t plan := by
          rcases hcondition with hlarge | hcrowd | hall
          · exact absurd hlarge hfits
          · exact absurd ⟨hcrowd,hfits⟩ hcrowded
          · exact hall
        apply Set.Subset.antisymm _ hmore
        rintro g ⟨s,hs,kind,v,hv,hg⟩
        apply hall
        rcases List.mem_cons.mp (hperm.mem_iff.mp hs) with rfl | hin
        · exact ⟨other,hother,kind,v,hwithin.entries kind (reached_selected hv),hg⟩
        · exact ⟨s,hin,kind,v,reached_selected hv,hg⟩

end Promise

/-! ### A share with many folders -/

namespace Sample

def folderKey (i : ℕ) : String := "\\\\fs01\\data\\" ++ Nat.repr i

def folder (i : ℕ) : ObjectVersion where
  versionId := i
  kind := .ntfsResource
  key := folderKey i
  containerKey := some "fs01|data"
  relatedKey := some "fs01"
  isPresent := true
  state := some [("path",.text (folderKey i))]
  stateHash := some "d1"
  validFrom := 0
  lastSeenAt := 4
  openedByRunId := "r1"
  lastSeenRunId := "r1"

def entryKey (m : ℕ) : String := "ace" ++ Nat.repr m

/-- Nine inherited entries on every folder. -/
def entryState (m : ℕ) : State :=
  [("ace_key",.text (entryKey m)), ("resource_key",.text (folderKey (m/9))),
    ("trustee_sid",.text "S-1-5-21-1-2-3-500"), ("trustee_key",.text "S-1-5-21-1-2-3-500"),
    ("ace_type",.text "allow"), ("access_mask",.whole 1179785), ("ace_flags",.whole 19),
    ("source",.text "inherited"), ("inherited_from",.null), ("order_index",.whole (m%9))]

def entry (id m : ℕ) : ObjectVersion where
  versionId := id
  kind := .ntfsAce
  key := entryKey m
  containerKey := some (folderKey (m/9))
  relatedKey := some "S-1-5-21-1-2-3-500"
  isPresent := true
  state := some (entryState m)
  stateHash := some "d2"
  validFrom := 0
  lastSeenAt := 4
  openedByRunId := "r1"
  lastSeenRunId := "r1"

/-- The folders and behind them the entries. -/
def row (folders k : ℕ) : ObjectVersion :=
  if k < folders then folder k else entry k (k-folders)

theorem row_id (folders k : ℕ) : (row folders k).versionId = k := by
  unfold row
  split_ifs <;> rfl

theorem row_checks (folders k : ℕ) : checks (row folders k) = true := by
  unfold row
  split_ifs
  · simp [checks, folder]
  · simp [checks, entry]

theorem folderKey_injective {i j : ℕ} (h : folderKey i = folderKey j) : i = j := by
  unfold folderKey at h
  exact Nat.repr_inj.mp (by simpa using h)

theorem entryKey_injective {m n : ℕ} (h : entryKey m = entryKey n) : m = n := by
  unfold entryKey at h
  exact Nat.repr_inj.mp (by simpa using h)

theorem row_injective {folders k l : ℕ} (h : (row folders k).object = (row folders l).object) :
    k = l := by
  unfold row at h
  split_ifs at h with hk hl hl
  · exact folderKey_injective (congrArg Prod.snd h)
  · cases congrArg Prod.fst h
  · cases congrArg Prod.fst h
  · have := entryKey_injective (congrArg Prod.snd h)
    omega

theorem rows_fresh (folders entries : ℕ) :
    ∀ v ∈ (List.range (folders+entries)).map (row folders), v.versionId < folders+entries := by
  intro v hv
  obtain ⟨k,hk,rfl⟩ := List.mem_map.mp hv
  rw [row_id]
  exact List.mem_range.mp hk

theorem rows_ids (folders entries : ℕ) :
    (((List.range (folders+entries)).map (row folders)).map (·.versionId)).Nodup := by
  have hids : ((List.range (folders+entries)).map (row folders)).map (·.versionId) =
      List.range (folders+entries) := by
    rw [List.map_map]
    exact (List.map_congr_left fun k _ => row_id folders k).trans (List.map_id _)
  rw [hids]
  exact List.nodup_range

theorem rows_checked (folders entries : ℕ) :
    ∀ v ∈ (List.range (folders+entries)).map (row folders), checks v = true := by
  intro v hv
  obtain ⟨k,-,rfl⟩ := List.mem_map.mp hv
  exact row_checks folders k

theorem rows_compatible (folders entries : ℕ) :
    ((List.range (folders+entries)).map (row folders)).Pairwise Compatible := by
  apply List.pairwise_map.mpr
  apply List.nodup_range.imp
  intro k l hne hobj
  exact absurd (row_injective hobj) hne

def estate (folders entries : ℕ) : Table where
  rows := (List.range (folders+entries)).map (row folders)
  nextId := folders+entries
  ids_fresh := rows_fresh folders entries
  ids_nodup := rows_ids folders entries
  checked := rows_checked folders entries
  compatible := rows_compatible folders entries

theorem share_named : SecurityIdentifier.strip "fs01|data".toList ≠ [] := by decide +kernel

def scope : CampaignScope := ⟨.share,"fs01|data",share_named⟩

def plan : CampaignPlan where
  focus := .resource
  scopes := [scope]
  options := {}
  baselineAt := 5

variable {folders entries : ℕ}

theorem answers_row {v : ObjectVersion} (hv : v ∈ answering (estate folders entries) 5) :
    (∃ i < folders, v = folder i) ∨ ∃ m < entries, v = entry (folders+m) m := by
  obtain ⟨k,hk,rfl⟩ := List.mem_map.mp (List.mem_filter.mp hv).1
  have hlt := List.mem_range.mp hk
  unfold row
  split_ifs with hfolder
  · exact .inl ⟨k,hfolder,rfl⟩
  · exact .inr ⟨k-folders,by omega,by congr 1; omega⟩

theorem folder_answers {i : ℕ} (hi : i < folders) :
    folder i ∈ answering (estate folders entries) 5 := by
  refine List.mem_filter.mpr ⟨List.mem_map.mpr ⟨i,List.mem_range.mpr (by omega),?_⟩,?_⟩
  · exact if_pos hi
  · simp [ObjectVersion.covers, folder]

theorem entry_answers {m : ℕ} (hm : m < entries) :
    entry (folders+m) m ∈ answering (estate folders entries) 5 := by
  refine List.mem_filter.mpr ⟨List.mem_map.mpr ⟨folders+m,List.mem_range.mpr (by omega),?_⟩,?_⟩
  · unfold row
    rw [if_neg (by omega), Nat.add_sub_cancel_left]
  · simp [ObjectVersion.covers, entry]

theorem entryOf_entry (id m : ℕ) : ∃ e, entryOf .resource id (entry id m).state =
    .ok (folderKey (m/9),e) ∧ e.aceKey = entryKey m ∧ e.targetKind = .resource ∧
      e.source = some .inherited := by
  refine ⟨_,rfl,rfl,rfl,rfl⟩

theorem key_nonempty {a b : String} (h : a ≠ "") : a ++ b ≠ "" := by
  intro hnone
  exact h (String.append_eq_empty_iff.mp hnone).1

theorem chronicle : Chronicle (estate folders entries) 5 where
  one := by
    intro v hv w hw hobj
    obtain ⟨k,-,rfl⟩ := List.mem_map.mp (List.mem_filter.mp hv).1
    obtain ⟨l,-,rfl⟩ := List.mem_map.mp (List.mem_filter.mp hw).1
    rw [row_injective hobj]
  keyed := by
    intro v hv
    rcases answers_row hv with ⟨i,-,rfl⟩ | ⟨m,-,rfl⟩
    · exact key_nonempty (by decide)
    · exact key_nonempty (by decide)
  entry := by
    intro v hv kind hkind
    rcases answers_row hv with ⟨i,-,rfl⟩ | ⟨m,-,rfl⟩
    · cases kind <;> cases hkind
    · cases kind with
      | share => cases hkind
      | resource =>
        obtain ⟨e,he,hkey,htarget,-⟩ := entryOf_entry (folders+m) m
        exact ⟨_,e,he,hkey,htarget,rfl⟩
  path := by
    intro v hv hkind
    rcases answers_row hv with ⟨i,-,rfl⟩ | ⟨m,-,rfl⟩
    · intro hempty
      have hkey : folderKey i = "" := Option.some.inj hempty
      exact key_nonempty (by decide) hkey
    · cases hkind

/-- Everything is inherited, so nothing is reviewed. -/
theorem grants_inherited {kind : ReviewTargetKind} {v : ObjectVersion}
    (hv : v ∈ answering (estate folders entries) 5) (hkind : v.kind = aceKind kind)
    {g : ObservedGrant} (hg : grantAt (estate folders entries) 5 kind v = .ok g) :
    exclusionReason {} g.evidence.entry = some "inherited" := by
  rcases answers_row hv with ⟨i,-,rfl⟩ | ⟨m,-,rfl⟩
  · cases kind <;> cases hkind
  · cases kind with
    | share => cases hkind
    | resource =>
      obtain ⟨e,he,-,-,hsource⟩ := entryOf_entry (folders+m) m
      obtain ⟨p,hp,hmade⟩ := bind_ok.mp hg
      have hpe : p.2 = e := congrArg Prod.snd (Except.ok.inj (hp.symm.trans he))
      rw [← Except.ok.inj hmade]
      show exclusionReason {} p.2 = some "inherited"
      rw [hpe, exclusionReason, hsource]
      rfl

theorem shares_none : shareTargets id (estate folders entries) 5 scope = [] := by
  apply List.eq_nil_iff_forall_not_mem.mpr
  intro v hv
  obtain ⟨hanswers,hp⟩ := mem_select.mp hv
  have hkind := selectsShare_kind hp
  rcases answers_row hanswers with ⟨i,-,rfl⟩ | ⟨m,-,rfl⟩
  · cases hkind
  · cases hkind

theorem folders_few : (resourceTargets id (estate folders entries) 5 scope).length ≤ folders := by
  have hsub : resourceTargets id (estate folders entries) 5 scope ⊆
      (List.range folders).map folder := by
    intro v hv
    obtain ⟨hanswers,hp⟩ := mem_select.mp hv
    have hkind := selectsResource_kind hp
    rcases answers_row hanswers with ⟨i,hi,rfl⟩ | ⟨m,-,rfl⟩
    · exact List.mem_map.mpr ⟨i,List.mem_range.mpr hi,rfl⟩
    · cases hkind
  have hlength := ((resourceTargets_nodup 5 scope).subperm hsub).length_le
  rwa [List.length_map, List.length_range] at hlength

theorem entries_many (hcover : entries ≤ 9*folders) :
    entries ≤ (entriesOf id (estate folders entries) 5 .resource .resource scope).length := by
  have hsub : (List.range entries).map (fun m => entry (folders+m) m) ⊆
      entriesOf id (estate folders entries) 5 .resource .resource scope := by
    intro v hv
    obtain ⟨m,hm,rfl⟩ := List.mem_map.mp hv
    have hm := List.mem_range.mp hm
    have htarget : folder (m/9) ∈ resourceTargets id (estate folders entries) 5 scope :=
      mem_select.mpr ⟨folder_answers (by omega),rfl⟩
    apply mem_select.mpr
    refine ⟨entry_answers hm,?_⟩
    rw [Bool.and_eq_true, Option.any_eq_true]
    exact ⟨rfl,_,rfl,decide_eq_true (List.mem_map.mpr ⟨_,htarget,rfl⟩)⟩
  have hnodup : ((List.range entries).map fun m => entry (folders+m) m).Nodup := by
    apply List.Nodup.map_on _ List.nodup_range
    intro m _ n _ hsame
    exact entryKey_injective (congrArg ObjectVersion.key hsame)
  have hlength := (hnodup.subperm hsub).length_le
  rwa [List.length_map, List.length_range] at hlength

/-- More entries than are read, on no more targets than may be. -/
theorem unread_entries (hfolders : folders ≤ maxScopeTargets)
    (hmany : maxScopeTargets*8 < entries) (hcover : entries ≤ 9*folders) :
    ¬ KeepsPromise id id (estate folders entries) plan := by
  intro hkept
  rcases (campaign_accounts_iff id id chronicle).mp hkept with hover | hcrowded | hall
  · obtain ⟨s,hs,-,hlarge⟩ := hover
    rw [List.mem_singleton.mp hs] at hlarge
    have hshares : (shareTargets id (estate folders entries) 5 scope).length = 0 := by
      rw [shares_none]
      rfl
    have hfew : (resourceTargets id (estate folders entries) 5 scope).length ≤ folders :=
      folders_few
    have hsum : maxScopeTargets < (shareTargets id (estate folders entries) 5 scope).length+
        (resourceTargets id (estate folders entries) 5 scope).length := hlarge
    omega
  · have hnone : pairsOf plan.options (reach id (estate folders entries) plan) = ∅ := by
      apply Set.eq_empty_iff_forall_notMem.mpr
      rintro k ⟨g,⟨s,-,kind,v,hv,hg⟩,hreason,-⟩
      obtain ⟨hanswers,hkind⟩ := mem_entriesOf (reached_selected hv)
      have hinherited := grants_inherited hanswers hkind hg
      rw [show plan.options = {} from rfl, hinherited] at hreason
      cases hreason
    unfold Crowded at hcrowded
    rw [hnone, Set.ncard_empty] at hcrowded
    exact absurd hcrowded (Nat.not_lt_zero _)
  · have hlong : maxScopeTargets*8 <
        (entriesOf id (estate folders entries) 5 .resource .resource scope).length :=
      lt_of_lt_of_le hmany (entries_many hcover)
    set l := entriesOf id (estate folders entries) 5 .resource .resource scope with hl
    have hnodup : l.Nodup := by
      have hobjects : (l.map (·.object)).Nodup := select_objects chronicle _
      exact hobjects.of_map
    -- the first entry that is not read
    set v := l[maxScopeTargets*8] with hv
    have hin : v ∈ l := List.getElem_mem hlong
    have hsplit : l = l.take (maxScopeTargets*8) ++ v :: l.drop (maxScopeTargets*8+1) := by
      rw [hv, ← List.drop_eq_getElem_cons hlong, List.take_append_drop]
    have hunread : v ∉ l.take (maxScopeTargets*8) := by
      intro hread
      rw [hsplit] at hnodup
      exact (List.nodup_append.mp hnodup).2.2 v hread v List.mem_cons_self rfl
    obtain ⟨hanswers,hkind⟩ := mem_entriesOf hin
    obtain ⟨g,hg⟩ := grantAt_ok chronicle hanswers hkind
    have hselected : g ∈ selection id (estate folders entries) plan :=
      ⟨scope,List.mem_cons_self,.resource,v,hin,hg⟩
    obtain ⟨s,hs,kind,w,hw,hgw⟩ := hall hselected
    rw [List.mem_singleton.mp hs] at hw
    obtain ⟨hwanswers,hwkind⟩ := mem_entriesOf (reached_selected hw)
    obtain ⟨hone,-,hkey⟩ := grantAt_parts chronicle hanswers hkind hg
    obtain ⟨hother,-,hwkey⟩ := grantAt_parts chronicle hwanswers hwkind hgw
    have hsame : kind = .resource := hother.symm.trans hone
    subst hsame
    have hobj : w.object = v.object := Prod.ext (hwkind.trans hkind.symm) (hwkey.symm.trans hkey)
    rw [chronicle.one w hwanswers v hanswers hobj] at hw
    exact hunread hw

end Sample

/-- A small estate is accounted for. -/
theorem campaign_accounts_sample : KeepsPromise id id (Sample.estate 1 2) Sample.plan := by
  apply (campaign_accounts_iff id id Sample.chronicle).mpr
  right
  right
  rintro g ⟨s,hs,kind,v,hv,hg⟩
  refine ⟨s,hs,kind,v,?_,hg⟩
  have hfew : (entriesOf id (Sample.estate 1 2) 5 .resource kind s).length ≤ maxScopeTargets*8 := by
    have hrows : (Sample.estate 1 2).rows.length ≤ maxScopeTargets*8 := by
      show (List.map (Sample.row 1) (List.range 3)).length ≤ _
      rw [List.length_map, List.length_range]
      decide
    cases kind with
    | share => exact ((select_length _).trans hrows)
    | resource => exact ((select_length _).trans hrows)
  show v ∈ List.take (maxScopeTargets*8) (entriesOf id (Sample.estate 1 2) 5 .resource kind s)
  rw [List.take_of_length_le hfew]
  exact hv

/-- Of nine inherited entries on each of 17,778 folders of one share the last two are neither
in an item nor counted as left out. -/
theorem entries_dropped : ¬ KeepsPromise id id (Sample.estate 17778 160002) Sample.plan :=
  Sample.unread_entries (by decide) (by decide) (by decide)

end Adg.CampaignCoverage
