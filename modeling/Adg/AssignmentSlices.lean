import Adg.CampaignCoverage
import Adg.PathFolding
import Adg.ReviewCalls

/-!
# The slice of an assignment

A reviewer who is assigned a scope is given the items on what the scope names. The
items are found by how their keys begin; what the scope names is found in the columns
of the record. Keys of shares and of directories are spelled differently.
-/

set_option autoImplicit false

namespace Adg.AssignmentSlices
open Adg.ObjectVersions Adg.VersionTable Adg.VersionReads Adg.SortedLists Adg.SecurityIdentifier
open Adg.ResourcePath Adg.PathSpelling Adg.PathFolding Adg.Regeneration Adg.ReviewGeneration
open Adg.CampaignReading Adg.CampaignCoverage Adg.ReviewCampaigns Adg.ReviewCalls Adg.AuditChain
open Adg.Fallible

/-! ### Names before a mark -/

/-- A key reads as a name that begins alike: the name goes on behind the key and its mark, or
the key does behind the name and its mark. -/
def Misleads (mark : Char) (key name rest : List Char) : Prop :=
  (∃ tail, name = key ++ mark :: tail) ∨
    ∃ part tail, key = name ++ mark :: part ∧ rest = part ++ mark :: tail

theorem Misleads.ne {mark : Char} {key name rest : List Char} (h : Misleads mark key name rest) :
    key ≠ name := by
  intro he
  rcases h with ⟨tail,htail⟩ | ⟨part,_,hpart,-⟩
  · have := congrArg List.length htail
    rw [he, List.length_append, List.length_cons] at this
    omega
  · have := congrArg List.length hpart
    rw [he, List.length_append, List.length_cons] at this
    omega

/-- A marked key begins a marked name when it is the name, or else misleads. -/
theorem marked_begins {mark : Char} {key name rest : List Char} :
    (key ++ [mark]) <+: (name ++ mark :: rest) ↔ key = name ∨ Misleads mark key name rest := by
  constructor
  · rintro ⟨tail,htail⟩
    rw [List.append_assoc, List.singleton_append] at htail
    rcases List.append_eq_append_iff.mp htail with ⟨gap,hname,hrest⟩ | ⟨gap,hkey,hrest⟩
    · cases gap with
      | nil => exact .inl (by rw [hname, List.append_nil])
      | cons c gap =>
        obtain ⟨rfl,-⟩ := List.cons.inj hrest
        exact .inr (.inl ⟨gap,hname⟩)
    · cases gap with
      | nil => exact .inl (by rw [hkey, List.append_nil])
      | cons c gap =>
        obtain ⟨rfl,hafter⟩ := List.cons.inj hrest
        exact .inr (.inr ⟨gap,tail,hkey,hafter⟩)
  · rintro (rfl | ⟨tail,rfl⟩ | ⟨part,tail,rfl,rfl⟩)
    · exact ⟨rest,by simp⟩
    · exact ⟨tail ++ mark :: rest,by simp⟩
    · exact ⟨tail,by simp⟩

/-! ### What the record files -/

/-- `SmbShare`. -/
structure SmbShare where
  serverKey : String
  name : String
  server_named : strip serverKey.toList ≠ []
  named : strip name.toList ≠ []
  name_plain : separator ∉ name.toList ∧ '/' ∉ name.toList

/-- What an item is about. -/
inductive Target where
  | share (s : SmbShare)
  | directory (p : UncPath)

/-- The kind of object a target is. -/
def objectKind : ReviewTargetKind → ObservationKind
  | .share => .smbShare
  | .resource => .ntfsResource

section Rows
variable (casefold : String → String)

/-- `identity_key` of a share. -/
def SmbShare.identityKey (s : SmbShare) : String :=
  casefold s.serverKey ++ "|" ++ casefold s.name

/-- The version holds the columns that `_share_row` or `_ntfs_resource_row` writes: the key,
the container and the far end. -/
def Files (v : ObjectVersion) : Target → Prop
  | .share s => v.kind = .smbShare ∧ v.key = s.identityKey casefold ∧
      v.containerKey = some (casefold s.serverKey)
  | .directory p => v.kind = .ntfsResource ∧ v.key = p.comparisonKey casefold ∧
      v.containerKey = some (p.shareKey casefold) ∧
      v.relatedKey = some (casefold (String.ofList p.server))

/-- What answers at an instant is as the rows of shares, directories and entries are written. -/
structure Filed (t : Table) (moment : Instant) : Prop where
  target : ∀ v ∈ answering t moment, ∀ kind, v.kind = objectKind kind →
    ∃ target, Files casefold v target
  trustee : ∀ v ∈ answering t moment, ∀ kind target e, v.kind = aceKind kind →
    entryOf kind v.versionId v.state = .ok (target,e) → v.relatedKey = some e.trusteeKey

/-- What follows the server in the path of a directory. -/
def below (p : UncPath) : List Char :=
  if p.relativePath = [] then p.share else p.share ++ separator :: p.relativePath

/-- How the keys of a target begin says whether it lies in a scope. For the key of a share no
directory says so; for the key of a server every target whose name does not mislead. -/
def Clear (scope : CampaignScope) : Target → Prop
  | .share s => scope.kind = .server →
      ¬ Misleads '|' (casefold scope.key).toList (casefold s.serverKey).toList
        (casefold s.name).toList
  | .directory p =>
      (scope.kind = .share → p.shareKey casefold ≠ casefold scope.key ∧
        ¬ ((casefold scope.key).toList ++ [separator]) <+: (p.comparisonKey casefold).toList) ∧
      (scope.kind = .server →
        ¬ Misleads separator (casefold scope.key).toList
          (casefold (String.ofList p.server)).toList (casefold (String.ofList (below p))).toList)

end Rows

/-! ### One target -/

section Agreement
variable {f : Casefold} {scope : CampaignScope} {item : ReviewItem} {v : ObjectVersion}

theorem key_toList (s : SmbShare) : (s.identityKey f.text).toList =
    (f.text s.serverKey).toList ++ '|' :: (f.text s.name).toList := by
  unfold SmbShare.identityKey
  simp

theorem path_toList (p : UncPath) : (p.comparisonKey f.text).toList =
    uncMark ++ ((f.text (String.ofList p.server)).toList ++
      separator :: (f.text (String.ofList (below p))).toList) := by
  unfold UncPath.comparisonKey UncPath.value below Casefold.text uncMark
  split
  · simp [f.chars_append, f.chars_cons_mark separator_mark]
  · simp [f.chars_append, f.chars_cons_mark separator_mark]

/-- The share of a directory and a beginning of its path are different texts. -/
theorem shareKey_elsewhere (p : UncPath) {key : String} (h : p.shareKey f.text = key) :
    ¬ (key.toList ++ [separator]) <+: (p.comparisonKey f.text).toList := by
  subst h
  rintro ⟨tail,htail⟩
  obtain ⟨hne,hfree⟩ : f.chars p.server ≠ [] ∧ separator ∉ f.chars p.server := by
    have hproper := f.proper (validateComponent_iff.mp p.server_valid)
    exact ⟨hproper.1,hproper.free.1⟩
  rw [path_toList] at htail
  cases hserver : f.chars p.server with
  | nil => exact hne hserver
  | cons c rest =>
    unfold UncPath.shareKey Casefold.text uncMark at htail
    simp only [String.toList_append, String.toList_ofList, hserver, List.cons_append,
      List.append_assoc] at htail
    obtain ⟨rfl,-⟩ := List.cons.inj htail
    exact hfree (hserver ▸ List.mem_cons_self)

/-- A test that holds of one thing more agrees where that does not come up. -/
theorem agree_but_for {same other wanted : Prop} (h : same ↔ wanted) (hother : other → ¬ same) :
    (same ∨ other ↔ wanted) ↔ ¬ other := by
  constructor
  · intro hagree hmore
    exact hother hmore (h.mpr (hagree.mp (.inr hmore)))
  · intro hno
    rw [or_iff_left hno, h]

/-- The items on a share that an assignment covers and the shares that its scope selects. -/
theorem share_agrees {s : SmbShare} (hfiles : Files f.text v (.share s))
    (hkind : item.frozen.targetKind = .share) (hkey : item.frozen.targetKey = v.key)
    (hscope : scope.kind ≠ .principal) :
    (scopePredicate f.text scope item = true ↔ selectsShare f.text scope (said v) = true) ↔
      Clear f.text scope (.share s) := by
  obtain ⟨hshare,hidentity,hserver⟩ := hfiles
  unfold scopePredicate selectsShare said Clear
  cases hscopeKind : scope.kind with
  | principal => exact absurd hscopeKind hscope
  | share => simp [hkind, hkey, hshare]
  | directoryTree => simp [hkind]
  | server =>
    have hbegins : ((f.text scope.key ++ "|").toList.isPrefixOf v.key.toList) = true ↔
        f.text scope.key = f.text s.serverKey ∨ Misleads '|' (f.text scope.key).toList
          (f.text s.serverKey).toList (f.text s.name).toList := by
      rw [List.isPrefixOf_iff_prefix, hidentity, key_toList, String.toList_append]
      exact marked_begins.trans (or_congr_left String.toList_inj)
    have hother : Misleads '|' (f.text scope.key).toList (f.text s.serverKey).toList
        (f.text s.name).toList → f.text scope.key ≠ f.text s.serverKey :=
      fun h he => h.ne (congrArg String.toList he)
    simp only [hkind, hkey, hshare, hserver, decide_true, Bool.true_and, reduceCtorEq,
      decide_false, Bool.false_and, Bool.or_false, hbegins, Option.any_some, List.mem_singleton,
      decide_eq_true_eq, forall_true_left]
    exact agree_but_for eq_comm hother

/-- The items on a directory that an assignment covers and the directories that its scope
selects. -/
theorem directory_agrees {p : UncPath} (hfiles : Files f.text v (.directory p))
    (hkind : item.frozen.targetKind = .resource) (hkey : item.frozen.targetKey = v.key)
    (hscope : scope.kind ≠ .principal) :
    (scopePredicate f.text scope item = true ↔ selectsResource f.text scope (said v) = true) ↔
      Clear f.text scope (.directory p) := by
  obtain ⟨hresource,hpath,hcontainer,hrelated⟩ := hfiles
  unfold scopePredicate selectsResource said Clear
  cases hscopeKind : scope.kind with
  | principal => exact absurd hscopeKind hscope
  | directoryTree => simp [hkind, hkey, hresource, isUnder]
  | share =>
    have hbegins : ((f.text scope.key ++ "\\").toList.isPrefixOf v.key.toList) = true ↔
        ((f.text scope.key).toList ++ [separator]) <+: (p.comparisonKey f.text).toList := by
      rw [List.isPrefixOf_iff_prefix, hpath, String.toList_append]
      exact Iff.rfl
    have hnever : p.shareKey f.text = f.text scope.key →
        ¬ ((f.text scope.key).toList ++ [separator]) <+: (p.comparisonKey f.text).toList :=
      shareKey_elsewhere p
    simp only [hkind, hkey, hresource, hcontainer, decide_true, Bool.true_and, reduceCtorEq,
      decide_false, Bool.false_and, Bool.false_or, hbegins, Option.any_some, List.mem_singleton,
      decide_eq_true_eq, forall_true_left, false_implies, and_true]
    constructor
    · intro hagree
      have hapart : p.shareKey f.text ≠ f.text scope.key :=
        fun he => hnever he (hagree.mpr he)
      exact ⟨hapart,fun hbegins => hapart (hagree.mp hbegins)⟩
    · rintro ⟨hapart,hbegins⟩
      exact iff_of_false hbegins hapart
  | server =>
    have hbegins : (("\\\\" ++ f.text scope.key ++ "\\").toList.isPrefixOf v.key.toList) = true ↔
        f.text scope.key = f.text (String.ofList p.server) ∨
          Misleads separator (f.text scope.key).toList (f.text (String.ofList p.server)).toList
            (f.text (String.ofList (below p))).toList := by
      rw [List.isPrefixOf_iff_prefix, hpath, path_toList, String.toList_append,
        String.toList_append, List.append_assoc]
      exact (List.prefix_append_right_inj uncMark).trans
        (marked_begins.trans (or_congr_left String.toList_inj))
    have hother : Misleads separator (f.text scope.key).toList
        (f.text (String.ofList p.server)).toList (f.text (String.ofList (below p))).toList →
        f.text scope.key ≠ f.text (String.ofList p.server) :=
      fun h he => h.ne (congrArg String.toList he)
    simp only [hkind, hkey, hresource, hrelated, decide_true, Bool.true_and, reduceCtorEq,
      decide_false, Bool.false_and, Bool.false_or, hbegins, Option.any_some, List.mem_singleton,
      decide_eq_true_eq, forall_true_left, false_implies, true_and]
    exact agree_but_for eq_comm hother

end Agreement

/-! ### The slice a scope names -/

section Slices
variable (casefold : String → String) (t : Table) (moment : Instant)

/-- The baseline reader selects what an item is about for a scope: its target, or an entry on
its target that names its principal. -/
def Selected (focus : CampaignFocus) (scope : CampaignScope) (item : DraftItem) : Prop :=
  match focus, item.targetKind with
  | .resource, .share => ∃ v ∈ shareTargets casefold t moment scope, v.key = item.targetKey
  | .resource, .resource => ∃ v ∈ resourceTargets casefold t moment scope, v.key = item.targetKey
  | .principal, kind => ∃ v ∈ entriesOf casefold t moment .principal kind scope,
      ∃ e, entryOf kind v.versionId v.state = .ok (item.targetKey,e) ∧
        e.trusteeKey = item.principalKey

/-- An item before and after a new assignment: it points at the assignment when it is an item
of the campaign and in the slice of the scope, and is unchanged otherwise. -/
def PointsAt (campaign : ReviewCampaign) (scope : CampaignScope) (assignmentId : Uuid)
    (item item' : ReviewItem) : Prop :=
  let inSlice := item.campaignId = campaign.campaignId ∧
    Selected casefold t moment campaign.focus scope item.frozen
  (inSlice → item' = { item with assignmentId := some assignmentId }) ∧ (¬ inSlice → item' = item)

/-- The plan a campaign was generated by. -/
def planOf (campaign : ReviewCampaign) : CampaignPlan where
  focus := campaign.focus
  scopes := campaign.scopes
  options := campaign.options
  baselineAt := instant campaign.baselineAt

end Slices

section Generated
variable {casefold sha256 : String → String} {t : Table} {plan : CampaignPlan}
  {r : GenerationResult} {item : DraftItem}

theorem buildItems_from {focus : CampaignFocus} {names : List (String × Option String)}
    {gs : List ObservedGrant} (h : item ∈ buildItems sha256 focus names gs) :
    ∃ g ∈ gs, g.targetKind = item.targetKind ∧ g.targetKey = item.targetKey ∧
      g.evidence.entry.trusteeKey = item.principalKey := by
  obtain ⟨key,-,hitem⟩ := List.mem_filterMap.mp h
  obtain ⟨first,hfirst,rfl⟩ := Option.map_eq_some_iff.mp hitem
  exact ⟨first,List.mem_of_mem_filter (List.mem_of_head? hfirst),rfl,rfl,rfl⟩

/-- An item is about the target and the principal of an entry the plan reaches. -/
theorem item_reached (h : Chronicle t plan.baselineAt)
    (hgenerated : generateFromBaseline casefold sha256 t plan = .ok r) (hitem : item ∈ r.items) :
    ∃ g ∈ reach casefold t plan, g.targetKind = item.targetKind ∧ g.targetKey = item.targetKey ∧
      g.evidence.entry.trusteeKey = item.principalKey := by
  have hfits : ∀ scope ∈ plan.scopes,
      ¬ Oversized casefold t plan.baselineAt plan.focus maxScopeTargets scope := by
    intro scope hscope hover
    rcases generate_cases sha256 h with ⟨-,n,hn⟩ | ⟨hno,-⟩ | ⟨hno,-⟩
    · rw [hgenerated] at hn
      cases hn
    · exact hno ⟨scope,hscope,hover⟩
    · exact hno ⟨scope,hscope,hover⟩
  obtain ⟨gs,hgs,hmem,-⟩ := grantsAt_ok h hfits
  unfold generateFromBaseline at hgenerated
  rw [hgs] at hgenerated
  replace hgenerated : generateItems sha256 plan.focus plan.options _ gs maxCampaignItems = .ok r :=
    hgenerated
  unfold generateItems at hgenerated
  dsimp only at hgenerated
  split_ifs at hgenerated
  rw [← Except.ok.inj hgenerated] at hitem
  obtain ⟨g,hg,hparts⟩ := buildItems_from hitem
  exact ⟨g,(hmem g).mp (mem_included.mp hg).1,hparts⟩

/-- What an item is about answers at the baseline. -/
theorem target_answers (h : Chronicle t plan.baselineAt) (hfocus : plan.focus = .resource)
    (hgenerated : generateFromBaseline casefold sha256 t plan = .ok r) (hitem : item ∈ r.items) :
    ∃ v ∈ answering t plan.baselineAt, v.kind = objectKind item.targetKind ∧
      v.key = item.targetKey := by
  obtain ⟨g,⟨scope,-,kind,v,hv,hgrant⟩,hkind,hkey,-⟩ := item_reached h hgenerated hitem
  rw [hfocus] at hv
  have hselected := reached_selected hv
  obtain ⟨hanswers,hace⟩ := mem_entriesOf hselected
  obtain ⟨target,e,he,-,-,hcontainer⟩ := h.entry v hanswers kind hace
  obtain ⟨⟨target',e'⟩,he',hmade⟩ := bind_ok.mp hgrant
  rw [he] at he'
  obtain ⟨rfl,rfl⟩ := Prod.mk.inj (Except.ok.inj he')
  have hparts : g.targetKind = kind ∧ g.targetKey = target := by
    rw [← Except.ok.inj hmade]
    exact ⟨rfl,rfl⟩
  rw [← hkind, ← hkey, hparts.1, hparts.2]
  cases kind with
  | share =>
    have hon := (mem_select.mp hselected).2
    simp only [hcontainer, Option.any_some, Bool.and_eq_true, decide_eq_true_eq,
      List.mem_map] at hon
    obtain ⟨-,w,hw,hwkey⟩ := hon
    exact ⟨w,(mem_select.mp hw).1,selectsShare_kind (mem_select.mp hw).2,hwkey⟩
  | resource =>
    have hon := (mem_select.mp hselected).2
    simp only [hcontainer, Option.any_some, Bool.and_eq_true, decide_eq_true_eq,
      List.mem_map] at hon
    obtain ⟨-,w,hw,hwkey⟩ := hon
    exact ⟨w,(mem_select.mp hw).1,selectsResource_kind (mem_select.mp hw).2,hwkey⟩

end Generated

/-! ### What an assignment covers -/

section Covering
variable {f : Casefold} {sha256 : String → String} {t : Table} {campaign : ReviewCampaign}
  {scope : CampaignScope} {r : GenerationResult} {item : ReviewItem} {moment : Instant}

theorem selects_share_iff (h : Chronicle t moment) {casefold : String → String} {v : ObjectVersion}
    (hv : v ∈ answering t moment) (hkind : v.kind = .smbShare) :
    (∃ w ∈ shareTargets casefold t moment scope, w.key = v.key) ↔
      selectsShare casefold scope (said v) = true := by
  constructor
  · rintro ⟨w,hw,hkey⟩
    obtain ⟨hanswers,hselects⟩ := mem_select.mp hw
    have hobject : w.object = v.object :=
      Prod.ext ((selectsShare_kind hselects).trans hkind.symm) hkey
    rwa [h.one w hanswers v hv hobject] at hselects
  · intro hselects
    exact ⟨v,mem_select.mpr ⟨hv,hselects⟩,rfl⟩

theorem selects_resource_iff (h : Chronicle t moment) {casefold : String → String}
    {v : ObjectVersion} (hv : v ∈ answering t moment) (hkind : v.kind = .ntfsResource) :
    (∃ w ∈ resourceTargets casefold t moment scope, w.key = v.key) ↔
      selectsResource casefold scope (said v) = true := by
  constructor
  · rintro ⟨w,hw,hkey⟩
    obtain ⟨hanswers,hselects⟩ := mem_select.mp hw
    have hobject : w.object = v.object :=
      Prod.ext ((selectsResource_kind hselects).trans hkind.symm) hkey
    rwa [h.one w hanswers v hv hobject] at hselects
  · intro hselects
    exact ⟨v,mem_select.mpr ⟨hv,hselects⟩,rfl⟩

/-- The record files an item's target where its key does not mislead. -/
def Plain (casefold : String → String) (t : Table) (moment : Instant) (scope : CampaignScope)
    (item : DraftItem) : Prop :=
  ∀ v ∈ answering t moment, v.object = (objectKind item.targetKind,item.targetKey) →
    ∀ target, Files casefold v target → Clear casefold scope target

theorem resource_agrees (h : Chronicle t moment) (hfiled : Filed f.text t moment)
    (hscope : scope.kind ≠ .principal) {v : ObjectVersion} (hv : v ∈ answering t moment)
    (hkind : v.kind = objectKind item.frozen.targetKind) (hkey : v.key = item.frozen.targetKey) :
    (scopePredicate f.text scope item = true ↔
      Selected f.text t moment .resource scope item.frozen) ↔
      Plain f.text t moment scope item.frozen := by
  have hone : Plain f.text t moment scope item.frozen ↔
      ∀ target, Files f.text v target → Clear f.text scope target := by
    constructor
    · intro hplain
      exact hplain v hv (Prod.ext hkind hkey)
    · intro hclear w hw hobject
      rw [h.one w hw v hv (hobject.trans (Prod.ext hkind hkey).symm)]
      exact hclear
  obtain ⟨target,hfiles⟩ := hfiled.target v hv _ hkind
  rw [hone]
  unfold Selected
  cases htarget : item.frozen.targetKind with
  | share =>
    rw [htarget] at hkind
    have hany : ∀ target, Files f.text v target → ((scopePredicate f.text scope item = true ↔
        ∃ w ∈ shareTargets f.text t moment scope, w.key = item.frozen.targetKey) ↔
        Clear f.text scope target) := by
      intro target hfiles
      cases target with
      | directory p => exact absurd (hfiles.1.symm.trans hkind) (by decide)
      | share s =>
        rw [← hkey, selects_share_iff h hv hkind]
        exact share_agrees hfiles htarget hkey.symm hscope
    exact ⟨fun hagree target hfiles => (hany target hfiles).mp hagree,
      fun hclear => (hany target hfiles).mpr (hclear target hfiles)⟩
  | resource =>
    rw [htarget] at hkind
    have hany : ∀ target, Files f.text v target → ((scopePredicate f.text scope item = true ↔
        ∃ w ∈ resourceTargets f.text t moment scope, w.key = item.frozen.targetKey) ↔
        Clear f.text scope target) := by
      intro target hfiles
      cases target with
      | share s => exact absurd (hfiles.1.symm.trans hkind) (by decide)
      | directory p =>
        rw [← hkey, selects_resource_iff h hv hkind]
        exact directory_agrees hfiles htarget hkey.symm hscope
    exact ⟨fun hagree target hfiles => (hany target hfiles).mp hagree,
      fun hclear => (hany target hfiles).mpr (hclear target hfiles)⟩

/-- The items of a principal are those that an assignment to the principal covers. -/
theorem principal_agrees {plan : CampaignPlan} (h : Chronicle t plan.baselineAt)
    (hfiled : Filed f.text t plan.baselineAt) (hfocus : plan.focus = .principal)
    (hgenerated : generateFromBaseline f.text sha256 t plan = .ok r)
    (hitem : item.frozen ∈ r.items) (hscope : scope.kind = .principal) :
    scopePredicate f.text scope item = true ↔
      Selected f.text t plan.baselineAt .principal scope item.frozen := by
  have hpredicate : scopePredicate f.text scope item = true ↔
      item.frozen.principalKey = scope.key := by
    unfold scopePredicate
    simp [hscope]
  rw [hpredicate]
  unfold Selected
  constructor
  · intro hprincipal
    obtain ⟨g,⟨other,-,kind,v,hv,hgrant⟩,hkind,hkey,htrustee⟩ := item_reached h hgenerated hitem
    rw [hfocus] at hv
    obtain ⟨hanswers,hace⟩ := mem_entriesOf (reached_selected hv)
    obtain ⟨⟨target,e⟩,he,hmade⟩ := bind_ok.mp hgrant
    have hparts : g.targetKind = kind ∧ g.targetKey = target ∧ g.evidence.entry = e := by
      rw [← Except.ok.inj hmade]
      exact ⟨rfl,rfl,rfl⟩
    rw [← hkind, ← hkey, hparts.1, hparts.2.1]
    rw [hparts.2.2, hprincipal] at htrustee
    refine ⟨v,mem_select.mpr ⟨hanswers,?_⟩,e,he,htrustee.trans hprincipal.symm⟩
    rw [hace, hfiled.trustee v hanswers kind target e hace he, htrustee]
    simp
  · rintro ⟨v,hv,e,he,htrustee⟩
    obtain ⟨hanswers,hon⟩ := mem_select.mp hv
    rw [Bool.and_eq_true, decide_eq_true_eq] at hon
    have hrelated := hfiled.trustee v hanswers _ _ e hon.1 he
    rw [hrelated, Option.any_some, decide_eq_true_eq, List.mem_singleton] at hon
    rw [← htrustee, hon.2]

end Covering

section Attaching
variable {casefold sha256 : String → String} {t : Table} {campaign : ReviewCampaign}
  {scope : CampaignScope} {a : ReviewAssignment} {db : Store}

/-- `attach_items` points at a new assignment exactly the slice of the campaign that its scope
names, and leaves every other item as it was. -/
def CoversSlice (casefold : String → String) (t : Table) (campaign : ReviewCampaign)
    (scope : CampaignScope) (a : ReviewAssignment) (db : Store) : Prop :=
  ∃ n db', (attachItems casefold a).alone db = .ok (n,db') ∧
    List.Forall₂ (PointsAt casefold t (instant campaign.baselineAt) campaign scope a.assignmentId)
      db.items db'.items

theorem newAssignment_fields {actor : Actor} {reviewer : Reviewer} {now : UtcMoment}
    {assignmentId : Uuid} (h : newAssignment actor campaign reviewer now assignmentId = .ok a)
    (hscope : reviewer.scope = some scope) :
    a.campaignId = campaign.campaignId ∧ a.scope = some scope ∧
      scope.kind ∈ assignableScopes campaign.focus := by
  by_cases hstatus : campaign.status ∉ [.draft, .active]
  · rw [newAssignment, if_pos hstatus] at h
    cases h
  by_cases hkind : scope.kind ∈ assignableScopes campaign.focus
  · by_cases hnamed : stripped reviewer.subject = ""
    · rw [newAssignment, if_neg hstatus, hscope] at h
      simp [hkind, hnamed, bind, Except.bind, pure, Except.pure, throw, throwThe,
        MonadExceptOf.throw] at h
    · rw [newAssignment, if_neg hstatus, hscope] at h
      simp only [Option.toList_some, ite_not, List.forIn_cons, List.forIn_nil, hkind, ↓reduceIte,
        pure_bind, hnamed] at h
      obtain ⟨due,-,h⟩ := bind_ok.mp h
      rw [← Except.ok.inj h]
      exact ⟨rfl,rfl,hkind⟩
  · rw [newAssignment, if_neg hstatus, hscope] at h
    simp [hkind, bind, Except.bind, pure, Except.pure, throw, throwThe,
      MonadExceptOf.throw] at h

/-- An item is attached when the assignment covers it. -/
theorem attached_row {item : ReviewItem} (hitem : item ∈ db.items) :
    attachedRow casefold ((db.items.filter (covers casefold a)).map
      fun i => Hold.noKeyUpdate (.item i.itemId)) a item =
    if covers casefold a item then { item with assignmentId := some a.assignmentId } else item := by
  have hattaches : attaches casefold ((db.items.filter (covers casefold a)).map
      fun i => Hold.noKeyUpdate (.item i.itemId)) a item = covers casefold a item := by
    unfold attaches
    by_cases hcovers : covers casefold a item = true
    · have hheld : Hold.noKeyUpdate (.item item.itemId) ∈
          (db.items.filter (covers casefold a)).map fun i => Hold.noKeyUpdate (.item i.itemId) :=
        List.mem_map.mpr ⟨item,List.mem_filter.mpr ⟨hitem,hcovers⟩,rfl⟩
      rw [decide_eq_true hheld, Bool.true_and]
    · rw [Bool.eq_false_of_not_eq_true hcovers, Bool.and_false]
  unfold attachedRow
  rw [hattaches]

/-- An assignment covers its slice when its predicate and the reader agree on every item. -/
theorem coversSlice_iff (hcampaign : a.campaignId = campaign.campaignId)
    (hscope : a.scope = some scope)
    (hfresh : ∀ item ∈ db.items, item.assignmentId ≠ some a.assignmentId) :
    CoversSlice casefold t campaign scope a db ↔
      ∀ item ∈ db.items, item.campaignId = campaign.campaignId →
        (scopePredicate casefold scope item = true ↔
          Selected casefold t (instant campaign.baselineAt) campaign.focus scope item.frozen) := by
  have hcovers : ∀ item : ReviewItem, covers casefold a item = true ↔
      item.campaignId = campaign.campaignId ∧ scopePredicate casefold scope item = true := by
    intro item
    unfold covers
    rw [hscope, hcampaign, Bool.and_eq_true, decide_eq_true_eq]
  have hrun : CoversSlice casefold t campaign scope a db ↔ List.Forall₂
      (PointsAt casefold t (instant campaign.baselineAt) campaign scope a.assignmentId) db.items
      (db.items.map (attachedRow casefold ((db.items.filter (covers casefold a)).map
        fun i => Hold.noKeyUpdate (.item i.itemId)) a)) := by
    constructor
    · rintro ⟨n,db',halone,hpoints⟩
      obtain ⟨-,rfl⟩ := Prod.mk.inj (Except.ok.inj halone)
      exact hpoints
    · intro hpoints
      exact ⟨_,_,rfl,hpoints⟩
  rw [hrun, List.forall₂_map_right_iff, List.forall₂_same]
  apply forall₂_congr
  intro item hitem
  rw [attached_row hitem]
  have hmoved : ({ item with assignmentId := some a.assignmentId } : ReviewItem) ≠ item :=
    fun he => hfresh item hitem (congrArg ReviewItem.assignmentId he).symm
  unfold PointsAt
  dsimp only
  by_cases hmine : item.campaignId = campaign.campaignId
  · by_cases hpredicate : scopePredicate casefold scope item = true
    · rw [if_pos ((hcovers item).mpr ⟨hmine,hpredicate⟩)]
      constructor
      · rintro ⟨-,hleft⟩ -
        refine iff_of_true hpredicate ?_
        by_contra hno
        exact hmoved (hleft fun hslice => hno hslice.2)
      · intro hagree
        exact ⟨fun _ => rfl,fun hno => absurd ⟨hmine,(hagree hmine).mp hpredicate⟩ hno⟩
    · rw [if_neg fun hc => hpredicate ((hcovers item).mp hc).2]
      constructor
      · rintro ⟨hmoves,-⟩ -
        refine iff_of_false hpredicate fun hselected => ?_
        exact hmoved (hmoves ⟨hmine,hselected⟩).symm
      · intro hagree
        exact ⟨fun hslice => absurd ((hagree hmine).mpr hslice.2) hpredicate,fun _ => rfl⟩
  · rw [if_neg fun hc => hmine ((hcovers item).mp hc).1]
    exact iff_of_true ⟨fun hslice => absurd hslice.1 hmine,fun _ => rfl⟩
      fun hmine' => absurd hmine' hmine

end Attaching

/-- A new assignment covers the slice its scope names when the keys of the campaign's targets
do not mislead. -/
theorem attached_slice_iff {f : Casefold} {sha256 : String → String} {t : Table}
    {campaign : ReviewCampaign} {r : GenerationResult} {actor : Actor} {reviewer : Reviewer}
    {now : UtcMoment} {assignmentId : Uuid} {scope : CampaignScope} {a : ReviewAssignment}
    {db : Store} (h : Chronicle t (instant campaign.baselineAt))
    (hfiled : Filed f.text t (instant campaign.baselineAt))
    (hgenerated : generateFromBaseline f.text sha256 t (planOf campaign) = .ok r)
    (hitems : ∀ item ∈ db.items, item.campaignId = campaign.campaignId → item.frozen ∈ r.items)
    (hnew : newAssignment actor campaign reviewer now assignmentId = .ok a)
    (hscope : reviewer.scope = some scope)
    (hfresh : ∀ item ∈ db.items, item.assignmentId ≠ some a.assignmentId) :
    CoversSlice f.text t campaign scope a db ↔
      ∀ item ∈ db.items, item.campaignId = campaign.campaignId →
        Plain f.text t (instant campaign.baselineAt) scope item.frozen := by
  have hrecord : Chronicle t (planOf campaign).baselineAt := h
  have hrows : Filed f.text t (planOf campaign).baselineAt := hfiled
  obtain ⟨hcampaign,hassigned,hkind⟩ := newAssignment_fields hnew hscope
  rw [coversSlice_iff hcampaign hassigned hfresh]
  refine forall₂_congr fun item hitem => forall_congr' fun hmine => ?_
  have hfrozen := hitems item hitem hmine
  cases hfocus : campaign.focus with
  | resource =>
    have hnoPrincipal : scope.kind ≠ .principal := by
      intro hprincipal
      rw [hfocus, hprincipal] at hkind
      revert hkind
      decide
    obtain ⟨v,hv,hvkind,hvkey⟩ := target_answers hrecord hfocus hgenerated hfrozen
    exact resource_agrees h hfiled hnoPrincipal hv hvkind hvkey
  | principal =>
    have hprincipal : scope.kind = .principal := by
      rw [hfocus] at hkind
      exact List.mem_singleton.mp hkind
    have hplain : Plain f.text t (instant campaign.baselineAt) scope item.frozen := by
      intro v _ _ target _
      cases target with
      | share s => intro hserver; rw [hprincipal] at hserver; cases hserver
      | directory p =>
        constructor
        · intro hshare
          rw [hprincipal] at hshare
          cases hshare
        · intro hserver
          rw [hprincipal] at hserver
          cases hserver
    exact iff_of_true (principal_agrees hrecord hrows hfocus hgenerated hfrozen hprincipal) hplain

/-! ### A folder of a share -/

namespace Sample

def moment : UtcMoment where
  year := 2026
  month := 3
  day := 1
  hour := 12
  minute := 0
  second := 0
  microsecond := 0
  calendar := by decide
  clock := by decide

def campaign : ReviewCampaign where
  campaignId := "c1"
  name := "Data"
  description := none
  focus := .resource
  status := .active
  baselineAt := moment
  dueAt := none
  options := { includeInherited := true }
  scopes := [CampaignCoverage.Sample.scope]
  createdBySubject := "ana"
  createdAt := moment
  commentRequirement := .standard

/-- One folder with two entries. -/
def record : Table := CampaignCoverage.Sample.estate 1 2

theorem record_answers : answering record (instant campaign.baselineAt) = answering record 5 := by
  decide +kernel

theorem answers_early {v : ObjectVersion}
    (hv : v ∈ answering record (instant campaign.baselineAt)) : v ∈ answering record 5 := by
  rwa [record_answers] at hv

theorem chronicle : Chronicle record (instant campaign.baselineAt) where
  one v hv w hw := CampaignCoverage.Sample.chronicle.one v (answers_early hv) w (answers_early hw)
  keyed v hv := CampaignCoverage.Sample.chronicle.keyed v (answers_early hv)
  entry v hv := CampaignCoverage.Sample.chronicle.entry v (answers_early hv)
  path v hv := CampaignCoverage.Sample.chronicle.path v (answers_early hv)

def folderPath : UncPath where
  server := "fs01".toList
  share := "data".toList
  relativePath := "0".toList
  server_valid := by decide +kernel
  share_valid := by decide +kernel
  segments_valid := by decide +kernel

theorem filed : Filed asciiFold.text record (instant campaign.baselineAt) where
  target := by
    intro v hv kind hkind
    rcases CampaignCoverage.Sample.answers_row (answers_early hv) with ⟨i,hi,rfl⟩ | ⟨m,-,rfl⟩
    · obtain rfl : i = 0 := by omega
      refine ⟨.directory folderPath,rfl,?_,?_,?_⟩
      · decide +kernel
      · decide +kernel
      · decide +kernel
    · cases kind <;> cases hkind
  trustee := by
    intro v hv kind target e hkind he
    rcases CampaignCoverage.Sample.answers_row (answers_early hv) with ⟨i,-,rfl⟩ | ⟨m,-,rfl⟩
    · cases kind <;> cases hkind
    · cases kind with
      | share => cases hkind
      | resource =>
        obtain ⟨-,rfl⟩ := Prod.mk.inj (Except.ok.inj he)
        rfl

def entryOn (m : ℕ) : GrantEvidence where
  entry :=
    { targetKind := .resource
      aceKey := CampaignCoverage.Sample.entryKey m
      trusteeSid := "S-1-5-21-1-2-3-500"
      trusteeKey := "S-1-5-21-1-2-3-500"
      aceType := .allow
      accessMask := some 1179785
      permission := none
      aceFlags := some 19
      source := some .inherited
      inheritedFrom := none
      orderIndex := some m
      versionId := m+1 }
  observedFrom := 0
  lastConfirmedAt := 4
  certainty := .inferred

def frozen : DraftItem where
  focus := .resource
  targetKind := .resource
  targetKey := "\\\\fs01\\data\\0"
  targetPath := some "\\\\fs01\\data\\0"
  principalKey := "S-1-5-21-1-2-3-500"
  principalSid := "S-1-5-21-1-2-3-500"
  principalDisplayName := none
  grants := [entryOn 0, entryOn 1]
  digest := "d"
  certainty := .inferred

theorem generated : generateFromBaseline asciiFold.text (fun _ => "d") record (planOf campaign) =
    .ok ⟨[frozen],[],"d"⟩ := by
  decide +kernel

def item : ReviewItem where
  itemId := "i1"
  campaignId := "c1"
  frozen := frozen
  createdAt := moment

def store : Store where
  campaigns := [campaign]
  items := [item]

theorem tree_named : strip "\\\\fs01\\data".toList ≠ [] := by decide +kernel

/-- The directories of the share, as a tree. -/
def treeScope : CampaignScope := ⟨.directoryTree,"\\\\fs01\\data",tree_named⟩

def reviewer (scope : CampaignScope) : Reviewer where
  subject := "bea"
  scope := some scope

def assignment (scope : CampaignScope) : ReviewAssignment where
  assignmentId := "a1"
  campaignId := "c1"
  reviewerSubject := "bea"
  reviewerDisplayName := none
  reviewerEmail := none
  scope := some scope
  dueAt := none
  assignedBySubject := "ana"
  assignedAt := moment

theorem assigned {scope : CampaignScope} (h : scope.kind ∈ assignableScopes .resource) :
    newAssignment ⟨"ana",none,none,[]⟩ campaign (reviewer scope) moment "a1" =
      .ok (assignment scope) := by
  have hstatus : ¬ campaign.status ∉ [.draft, .active] := by decide
  have hsubject : stripped "bea" = "bea" := by decide +kernel
  have hnamed : "bea" ≠ "" := by decide
  rw [newAssignment, if_neg hstatus]
  simp [reviewer, campaign, h, hsubject, hnamed, validateDueDate]
  rfl

theorem fresh {scope : CampaignScope} :
    ∀ i ∈ store.items, i.assignmentId ≠ some (assignment scope).assignmentId := by
  intro i hi
  rw [List.mem_singleton.mp hi]
  intro hassigned
  cases hassigned

theorem items_generated : ∀ i ∈ store.items, i.campaignId = campaign.campaignId →
    i.frozen ∈ [frozen] := by
  intro i hi _
  rw [List.mem_singleton.mp hi]
  exact List.mem_singleton_self frozen

end Sample

/-- An assignment to the tree of the share covers the folder's item. -/
theorem attached_slice_tree :
    CoversSlice asciiFold.text Sample.record Sample.campaign Sample.treeScope
      (Sample.assignment Sample.treeScope) Sample.store := by
  apply (attached_slice_iff Sample.chronicle Sample.filed Sample.generated Sample.items_generated
    (Sample.assigned (by decide)) rfl Sample.fresh).mpr
  rintro i - - v - - target -
  cases target with
  | share s =>
    intro hserver
    cases hserver
  | directory p =>
    constructor
    · intro hshare
      cases hshare
    · intro hserver
      cases hserver

/-- An assignment to the share does not cover the item on the folder that is read under it. -/
theorem share_folders_left :
    ¬ CoversSlice asciiFold.text Sample.record Sample.campaign CampaignCoverage.Sample.scope
      (Sample.assignment CampaignCoverage.Sample.scope) Sample.store := by
  intro hcovers
  have hagree := (coversSlice_iff rfl rfl Sample.fresh).mp hcovers Sample.item
    List.mem_cons_self rfl
  have hselected : Selected asciiFold.text Sample.record (instant Sample.campaign.baselineAt)
      .resource CampaignCoverage.Sample.scope Sample.frozen := by
    refine ⟨CampaignCoverage.Sample.folder 0,mem_select.mpr ⟨?_,?_⟩,?_⟩
    · rw [Sample.record_answers]
      exact CampaignCoverage.Sample.folder_answers (by decide)
    · decide +kernel
    · decide +kernel
  have hleft : scopePredicate asciiFold.text CampaignCoverage.Sample.scope Sample.item = false := by
    decide +kernel
  rw [hagree.mpr hselected] at hleft
  cases hleft

end Adg.AssignmentSlices
