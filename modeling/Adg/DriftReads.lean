import Adg.BaselineVerification
import Adg.Fallible
import Adg.GrantDrift

/-!
# Reading the drift of frozen items

The entries that stand on the targets of some items at an instant are read in
one go, whoever they name and wherever they come from. What an item was frozen
from had passed the exclusions of its campaign. So an entry that the campaign
left out counts as drift of the item it was left out of.
-/

set_option autoImplicit false

namespace Adg.DriftReads
open Adg.Observation Adg.ObjectVersions Adg.VersionTable Adg.VersionReads Adg.SortedLists
open Adg.CanonicalJson Adg.ReviewGeneration Adg.GrantDrift Adg.Fallible

/-- The kind of object a target is. -/
def targetObservation : ReviewTargetKind → ObservationKind
  | .share => .smbShare
  | .resource => .ntfsResource

/-- What an item is about. -/
structure ReviewTarget where
  kind : ReviewTargetKind
  key : String
  deriving DecidableEq, Repr

def targetOf (item : DraftItem) : ReviewTarget := ⟨item.targetKind,item.targetKey⟩

/-- The keys of the targets of a kind. -/
def keysOf (kind : ReviewTargetKind) (targets : List ReviewTarget) : List String :=
  (targets.filter (·.kind = kind)).map (·.key)

section Reading
variable (t : Table) (moment : Instant) (targets : List ReviewTarget)

/-- `grants_on_targets_at`, before it is put into buckets. -/
def grantsOnTargetsAt : Except GenerationError (List ObservedGrant) := do
  let sharePaths := pathsOf sharePath
    (versionsAt t .smbShare ((keysOf .share targets).filter (· ≠ "")) moment)
  let onShares ← (containedAt t .smbAce (keysOf .share targets) moment).mapM
    (observedGrant .share moment sharePaths)
  let resourcePaths := pathsOf resourcePath
    (versionsAt t .ntfsResource ((keysOf .resource targets).filter (· ≠ "")) moment)
  let onResources ← (containedAt t .ntfsAce (keysOf .resource targets) moment).mapM
    (observedGrant .resource moment resourcePaths)
  return onShares ++ onResources

/-- The bucket of one target. -/
def bucket (grants : List ObservedGrant) (target : ReviewTarget) : List ObservedGrant :=
  sortedBy (·.evidence.entry.aceKey)
    (grants.filter fun g => g.targetKind = target.kind && g.targetKey = target.key)

/-- `versions_at` with its tombstones. -/
def coveringAt (kind : ObservationKind) (keys : List String) : List ObjectVersion :=
  sortedBy (·.key) (t.rows.filter fun v => v.covers moment && (v.kind = kind && v.key ∈ keys))

/-- `target_presence_at`, of one of the targets. -/
def targetPresenceAt (target : ReviewTarget) : Option ObjectVersion :=
  (asDict (coveringAt t moment (targetObservation target.kind) (keysOf target.kind targets))).find?
    fun v => v.key = target.key

end Reading

/-- The entries that name an item's principal on its target. -/
def currentEntries (grants : List ObservedGrant) (item : DraftItem) : List ObservedGrant :=
  (bucket grants (targetOf item)).filter fun g => g.evidence.entry.trusteeKey = item.principalKey

/-- What `drift_for` says of one item. -/
def driftOf (sha256 : String → String) (t : Table) (moment : Instant) (items : List DraftItem)
    (grants : List ObservedGrant) (item : DraftItem) : ItemDrift :=
  let found := targetPresenceAt t moment (items.map targetOf) (targetOf item)
  compareGrants item.grants ((currentEntries grants item).map (·.evidence)) sha256
    (found.map (·.isPresent)) (found.map (·.certaintyAt moment))

/-- `drift_for`. -/
def driftFor (sha256 : String → String) (t : Table) (moment : Instant) (items : List DraftItem) :
    Except GenerationError (List (DraftItem × ItemDrift)) := do
  let grants ← grantsOnTargetsAt t moment (items.map targetOf)
  return items.map fun item => (item,driftOf sha256 t moment items grants item)

/-! ### What an item is frozen from -/

/-- A dictionary holds a key once. -/
theorem firstByKey_keyed {α κ : Type} [DecidableEq κ] (key : α → κ) (l : List α) :
    ((firstByKey key l).map key).Nodup := by
  induction l with
  | nil => exact List.nodup_nil
  | cons a l ih =>
    rw [firstByKey, List.map_cons, List.nodup_cons]
    constructor
    · rw [List.mem_map]
      rintro ⟨b,hb,hkey⟩
      exact of_decide_eq_true (List.mem_filter.mp hb).2 hkey
    · exact ih.sublist (List.filter_sublist.map _)

theorem grantsAt_keyed {casefold : String → String} {t : Table} {focus : CampaignFocus}
    {scopes : List CampaignScope} {moment : Instant} {ceiling : ℕ} {grants : List ObservedGrant}
    (h : grantsAt casefold t focus scopes moment ceiling = .ok grants) :
    (grants.map fun g => grantKey g.grant).Nodup := by
  obtain ⟨found,-,hrest⟩ := bind_ok.mp h
  rw [← Except.ok.inj hrest]
  exact ((sortedBy_perm _ _).map _).nodup_iff.mpr (firstByKey_keyed _ _)

/-- What generation promises of an item. -/
structure Frozen (options : GenerationOptions) (item : DraftItem) : Prop where
  some_grant : item.grants ≠ []
  keyed : Keyed item.grants
  reviewed : ∀ g ∈ item.grants, exclusionReason options g.entry = none

theorem frozen_of_buildItems {sha256 : String → String} {focus : CampaignFocus}
    {options : GenerationOptions} {names : List (String × Option String)}
    {grants : List ObservedGrant} (hkeyed : (grants.map fun g => grantKey g.grant).Nodup)
    {item : DraftItem} (hitem : item ∈ buildItems sha256 focus names (included options grants)) :
    Frozen options item := by
  obtain ⟨key,-,hkey⟩ := List.mem_filterMap.mp hitem
  obtain ⟨first,hfirst,rfl⟩ := Option.map_eq_some_iff.mp hkey
  set members := (included options grants).filter fun g => itemNaturalKey g.grant = key
    with hmembers
  have hperm : (buildItem sha256 focus names first members).grants.Perm
      (members.map (·.evidence)) := sortedBy_perm _ _
  constructor
  · intro hnone
    rw [hnone] at hperm
    have hempty := List.map_eq_nil_iff.mp (List.perm_nil.mp hperm.symm)
    rw [hempty] at hfirst
    cases hfirst
  · have hmembered : (members.map (·.evidence.entry.aceKey)).Nodup := by
      have hsub : (members.map fun g => grantKey g.grant).Nodup :=
        hkeyed.sublist ((List.filter_sublist.trans List.filter_sublist).map _)
      apply List.pairwise_map.mpr
      apply (List.pairwise_map.mp hsub).imp_of_mem
      intro g o hg ho hne hsame
      have hg := of_decide_eq_true (List.mem_filter.mp hg).2
      have ho := of_decide_eq_true (List.mem_filter.mp ho).2
      have hkind : g.targetKind.value = o.targetKind.value :=
        congrArg (fun k : NaturalKey => (ofLex k).1) (hg.trans ho.symm)
      exact hne (congrArg toLex (Prod.ext hkind hsame))
    unfold Keyed
    rw [(hperm.map _).nodup_iff, List.map_map]
    exact hmembered
  · intro g hg
    obtain ⟨o,ho,rfl⟩ := List.mem_map.mp (hperm.mem_iff.mp hg)
    have hincluded := (List.mem_filter.mp (List.mem_of_mem_filter ho)).2
    exact Option.isNone_iff_eq_none.mp hincluded

theorem frozen_of_generation {casefold sha256 : String → String} {t : Table} {plan : CampaignPlan}
    {result : GenerationResult} (h : generateFromBaseline casefold sha256 t plan = .ok result)
    {item : DraftItem} (hitem : item ∈ result.items) : Frozen plan.options item := by
  obtain ⟨grants,hgrants,h⟩ := bind_ok.mp h
  unfold generateItems at h
  dsimp only at h
  split_ifs at h
  rw [← Except.ok.inj h] at hitem
  exact frozen_of_buildItems (grantsAt_keyed hgrants) hitem

/-! ### Drift of an item -/

/-- Whether an entry is left out is part of its content. -/
theorem reason_of_content {options : GenerationOptions} {e o : ReviewedEntry}
    (h : content e = content o) : exclusionReason options e = exclusionReason options o := by
  have hfield : ∀ name, (content e).lookup name = (content o).lookup name := fun _ => by rw [h]
  have hsource : e.source = o.source := by
    have hjson := hfield "source"
    simp [content, Json.fields, ReviewedEntry.asDigestible, List.lookup] at hjson
    rcases he : e.source with - | - | - <;> rcases ho : o.source with - | - | - <;>
      simp [he, ho, optionalJson, sourceValue] at hjson <;> rfl
  have hsid : e.trusteeSid = o.trusteeSid := by
    simpa [content, Json.fields, ReviewedEntry.asDigestible, List.lookup] using hfield "trustee_sid"
  have htype : e.aceType = o.aceType := by
    have hjson := hfield "ace_type"
    simp [content, Json.fields, ReviewedEntry.asDigestible, List.lookup] at hjson
    cases he : e.aceType <;> cases ho : o.aceType <;> simp [he, ho, AceType.value] at hjson <;> rfl
  unfold exclusionReason
  rw [hsource, hsid, htype]

/-- A comparison finds drift where something is not as it was frozen. -/
theorem hasDrifted_iff {sha256 : String → String} (collisionFree : Function.Injective sha256)
    {baseline current : List GrantEvidence} (hne : baseline ≠ []) (hb : Keyed baseline)
    {present : Option Bool} (hpresent : present.isSome = true) (certainty : Option Certainty) :
    (compareGrants baseline current sha256 present certainty).verdict.hasDrifted = true ↔
      ¬ (contents current).Perm (contents baseline) := by
  have hknown : present ≠ none := Option.ne_none_iff_isSome.mpr hpresent
  by_cases hcurrent : current = []
  · subst hcurrent
    have hverdict : (compareGrants baseline [] sha256 present certainty).verdict = .removed := by
      unfold compareGrants
      simp [hknown, sortedBy]
    rw [hverdict]
    refine iff_of_true rfl fun h => hne ?_
    exact List.map_eq_nil_iff.mp (List.perm_nil.mp h.symm)
  · obtain ⟨hsame,hmoved⟩ := standing_verdict collisionFree hb certainty hcurrent hknown
    by_cases hequal : (contents current).Perm (contents baseline)
    · rw [(hsame hequal).1]
      exact iff_of_false (by decide) (not_not.mpr hequal)
    · rw [(hmoved hequal).1]
      exact iff_of_true (by decide) hequal

/-- The drift of an item against the rule its campaign was cut by: it has drifted when
what the rule would take now is not what was taken. -/
def DriftFollowsSelection (options : GenerationOptions) (entries : List ObservedGrant)
    (item : DraftItem) (drift : ItemDrift) : Prop :=
  drift.verdict.hasDrifted = true ↔
    ¬ (contents ((included options entries).map (·.evidence))).Perm (contents item.grants)

/-- Some entry that names the principal on the target is none the campaign takes. -/
def HoldsExcluded (options : GenerationOptions) (entries : List ObservedGrant) : Prop :=
  ∃ g ∈ entries, exclusionReason options g.evidence.entry ≠ none

theorem included_all {options : GenerationOptions} {entries : List ObservedGrant} :
    included options entries = entries ↔ ¬ HoldsExcluded options entries := by
  unfold included HoldsExcluded
  rw [List.filter_eq_self]
  simp only [Option.isNone_iff_eq_none]
  push Not
  rfl

/-- Entries that are as frozen are all of the kind that is frozen. -/
theorem none_excluded {options : GenerationOptions} {item : DraftItem} (h : Frozen options item)
    {entries : List ObservedGrant}
    (hsame : (contents (entries.map (·.evidence))).Perm (contents item.grants)) :
    ¬ HoldsExcluded options entries := by
  rintro ⟨g,hg,hreason⟩
  have hin : content g.evidence.entry ∈ contents item.grants :=
    hsame.mem_iff.mp (mem_contents.mpr ⟨g.evidence,List.mem_map_of_mem hg,rfl⟩)
  obtain ⟨o,ho,hcontent⟩ := mem_contents.mp hin
  exact hreason ((reason_of_content hcontent.symm).trans (h.reviewed o ho))

/-- A target that some version covers. -/
def Covered (t : Table) (moment : Instant) (target : ReviewTarget) : Prop :=
  ∃ v ∈ t.rows, v.covers moment = true ∧ v.kind = targetObservation target.kind ∧
    v.key = target.key

theorem presence_covered {t : Table} {moment : Instant} {targets : List ReviewTarget}
    {target : ReviewTarget} (hin : target ∈ targets) (h : Covered t moment target) :
    (targetPresenceAt t moment targets target).isSome = true := by
  obtain ⟨v,hv,hcovers,hkind,hkey⟩ := h
  have hread : v ∈ coveringAt t moment (targetObservation target.kind)
      (keysOf target.kind targets) := by
    unfold coveringAt
    rw [mem_sortedBy, List.mem_filter]
    refine ⟨hv,?_⟩
    rw [hcovers, hkind, hkey, Bool.true_and, Bool.and_eq_true, decide_eq_true_eq,
      decide_eq_true_eq]
    refine ⟨rfl,List.mem_map.mpr ⟨target,?_,rfl⟩⟩
    exact List.mem_filter.mpr ⟨hin,by simp⟩
  obtain ⟨w,hw,hobject⟩ := asDict_keeps hread
  unfold targetPresenceAt
  rw [List.find?_isSome]
  refine ⟨w,hw,?_⟩
  rw [decide_eq_true_eq, ← hkey]
  exact congrArg Prod.snd hobject

/-- An item that is read back has drifted when its entries now are not those it was frozen
with. -/
theorem drift_found {casefold sha256 : String → String}
    (collisionFree : Function.Injective sha256) {t₀ : Table} {plan : CampaignPlan}
    {result : GenerationResult} (hgenerated : generateFromBaseline casefold sha256 t₀ plan = .ok result)
    {t : Table} {moment : Instant} {items : List DraftItem} (hitems : items ⊆ result.items)
    {grants : List ObservedGrant}
    (hgrants : grantsOnTargetsAt t moment (items.map targetOf) = .ok grants) :
    ∃ drifts, driftFor sha256 t moment items = .ok drifts ∧ drifts.map (·.1) = items ∧
      ∀ p ∈ drifts, Covered t moment (targetOf p.1) →
        (p.2.verdict.hasDrifted = true ↔
          ¬ (contents ((currentEntries grants p.1).map (·.evidence))).Perm
            (contents p.1.grants)) := by
  refine ⟨_,bind_ok.mpr ⟨grants,hgrants,rfl⟩,?_,?_⟩
  · rw [List.map_map]
    exact List.map_id items
  · intro p hp hcovered
    obtain ⟨item,hitem,rfl⟩ := List.mem_map.mp hp
    have hfrozen := frozen_of_generation hgenerated (hitems hitem)
    have hpresent : ((targetPresenceAt t moment (items.map targetOf) (targetOf item)).map
        (·.isPresent)).isSome = true := by
      rw [Option.isSome_map]
      exact presence_covered (List.mem_map_of_mem hitem) hcovered
    exact hasDrifted_iff collisionFree hfrozen.some_grant hfrozen.keyed hpresent _

/-- The drift of an item follows the selection unless some entry was left out of the
item and all the others are as they were. -/
theorem drift_selection_iff {casefold sha256 : String → String}
    (collisionFree : Function.Injective sha256) {t₀ : Table} {plan : CampaignPlan}
    {result : GenerationResult} (hgenerated : generateFromBaseline casefold sha256 t₀ plan = .ok result)
    {t : Table} {moment : Instant} {items : List DraftItem} (hitems : items ⊆ result.items)
    {grants : List ObservedGrant}
    (hgrants : grantsOnTargetsAt t moment (items.map targetOf) = .ok grants) :
    ∃ drifts, driftFor sha256 t moment items = .ok drifts ∧ drifts.map (·.1) = items ∧
      ∀ p ∈ drifts, Covered t moment (targetOf p.1) →
        (DriftFollowsSelection plan.options (currentEntries grants p.1) p.1 p.2 ↔
          ¬ (HoldsExcluded plan.options (currentEntries grants p.1) ∧
            (contents ((included plan.options (currentEntries grants p.1)).map
              (·.evidence))).Perm (contents p.1.grants))) := by
  obtain ⟨drifts,hdrifts,hon,hfound⟩ := drift_found collisionFree hgenerated hitems hgrants
  refine ⟨drifts,hdrifts,hon,fun p hp hcovered => ?_⟩
  have hfrozen := frozen_of_generation hgenerated (hitems (hon ▸ List.mem_map_of_mem hp))
  unfold DriftFollowsSelection
  rw [hfound p hp hcovered, not_iff_not]
  set entries := currentEntries grants p.1
  constructor
  · rintro h ⟨hexcluded,hselected⟩
    exact none_excluded hfrozen (h.mpr hselected) hexcluded
  · intro h
    by_cases hexcluded : HoldsExcluded plan.options entries
    · refine iff_of_false (fun hsame => none_excluded hfrozen hsame hexcluded) ?_
      exact fun hselected => h ⟨hexcluded,hselected⟩
    · rw [included_all.mpr hexcluded]

namespace Sample
open Adg.BaselineVerification Adg.CurrentState

/-- Where an entry came from tells the states below apart. -/
def sourceDigest (state : State) : String :=
  match state.lookup "source" with
  | some (.text s) => s
  | _ => ""

def folder : Reading where
  key := "fs01|data"
  columns := [("server_key",.text "fs01"), ("share_key",.text "fs01|data"),
    ("path",.text "fs01|data")]
  observedAt := 1
  runId := "r1"

def entry (name source : String) : Reading where
  key := name
  columns :=
    [("resource_key",.text "fs01|data"), ("trustee_sid",.text "S-1-5-21-1-2-3-1001"),
      ("trustee_key",.text "S-1-5-21-1-2-3-1001"), ("ace_type",.text "allow"),
      ("access_mask",.whole 1179785), ("ace_flags",.whole 0), ("source",.text source),
      ("inherited_from",.null), ("order_index",.whole 0)]
  observedAt := 1
  runId := "r1"

/-- One identity stands on the folder by an entry of its own and by an inherited one. -/
def estate : Table :=
  afterAll sourceDigest id Table.blank
    [.record .ntfsResource [folder], .record .ntfsAce [entry "e1" "explicit", entry "e2" "inherited"]]

theorem folder_keyed : Adg.SecurityIdentifier.strip "fs01|data".toList ≠ [] := by decide

def plan : CampaignPlan where
  focus := .resource
  scopes := [⟨.share,"fs01|data",folder_keyed⟩]
  options := {}
  baselineAt := 5

end Sample

/-- The witness of the rule: the drift of every item of the campaign at its baseline. -/
theorem drift_selection_sample : ∃ result grants,
    generateFromBaseline id id Sample.estate Sample.plan = .ok result ∧
    ∃ drifts, driftFor id Sample.estate Sample.plan.baselineAt result.items = .ok drifts ∧
      drifts.map (·.1) = result.items ∧
      ∀ p ∈ drifts, Covered Sample.estate Sample.plan.baselineAt (targetOf p.1) →
        (DriftFollowsSelection Sample.plan.options (currentEntries grants p.1) p.1 p.2 ↔
          ¬ (HoldsExcluded Sample.plan.options (currentEntries grants p.1) ∧
            (contents ((included Sample.plan.options (currentEntries grants p.1)).map
              (·.evidence))).Perm (contents p.1.grants))) := by
  have hgenerates : ((generateFromBaseline id id Sample.estate Sample.plan).toOption.bind
      fun result => (grantsOnTargetsAt Sample.estate Sample.plan.baselineAt
        (result.items.map targetOf)).toOption).isSome = true := by
    decide +kernel
  obtain ⟨grants,hgrants⟩ := Option.isSome_iff_exists.mp hgenerates
  obtain ⟨result,hresult,hgrants⟩ := Option.bind_eq_some_iff.mp hgrants
  refine ⟨result,grants,toOption_some.mp hresult,?_⟩
  exact drift_selection_iff Function.injective_id (toOption_some.mp hresult)
    (List.Subset.refl _) (toOption_some.mp hgrants)

/-- Nothing has moved at the baseline, and the inherited entry counts as drift. -/
theorem inherited_entry_drifts : ∃ result grants drifts,
    generateFromBaseline id id Sample.estate Sample.plan = .ok result ∧
    grantsOnTargetsAt Sample.estate Sample.plan.baselineAt (result.items.map targetOf) =
      .ok grants ∧
    driftFor id Sample.estate Sample.plan.baselineAt result.items = .ok drifts ∧
    ∃ p ∈ drifts, p.1 ∈ result.items ∧
      Covered Sample.estate Sample.plan.baselineAt (targetOf p.1) ∧
      ¬ DriftFollowsSelection Sample.plan.options (currentEntries grants p.1) p.1 p.2 := by
  have hcheck : ((generateFromBaseline id id Sample.estate Sample.plan).toOption.bind fun result =>
      (grantsOnTargetsAt Sample.estate Sample.plan.baselineAt
        (result.items.map targetOf)).toOption.map fun grants =>
      result.items.any fun item => targetOf item = ⟨.resource,"fs01|data"⟩ &&
        (currentEntries grants item).length ≠ item.grants.length &&
        (included Sample.plan.options (currentEntries grants item)).map (·.evidence) =
          item.grants) = some true := by
    decide +kernel
  obtain ⟨result,hresult,hcheck⟩ := Option.bind_eq_some_iff.mp hcheck
  obtain ⟨grants,hgrants,hcheck⟩ := Option.map_eq_some_iff.mp hcheck
  obtain ⟨item,hitem,hcheck⟩ := List.any_eq_true.mp hcheck
  simp only [Bool.and_eq_true, decide_eq_true_eq] at hcheck
  obtain ⟨⟨htarget,hmore⟩,hsame⟩ := hcheck
  obtain ⟨drifts,hdrifts,hon,hfound⟩ := drift_found Function.injective_id
    (toOption_some.mp hresult) (List.Subset.refl _) (toOption_some.mp hgrants)
  obtain ⟨p,hp,rfl⟩ := List.mem_map.mp (hon ▸ hitem)
  have hcovered : Covered Sample.estate Sample.plan.baselineAt (targetOf p.1) := by
    rw [htarget]
    show ∃ v ∈ Sample.estate.rows, v.covers 5 = true ∧ v.kind = .ntfsResource ∧ v.key = "fs01|data"
    decide +kernel
  refine ⟨result,grants,drifts,toOption_some.mp hresult,toOption_some.mp hgrants,hdrifts,p,hp,
    hitem,hcovered,?_⟩
  intro hfollows
  refine hfollows.mp ((hfound p hp hcovered).mpr fun hperm => hmore ?_) ?_
  · simpa [contents] using hperm.length_eq
  · rw [hsame]

end Adg.DriftReads
