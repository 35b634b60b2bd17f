import Adg.RiskRules

/-!
# Bundles that are read from the store

The store keys its records, so no two containers, entries or principals share
a key, and it keeps every list in one order. Of such a bundle the records of
some lists that name some trustees make a bundle of their own, whose lists are
the lists that were cited with the other entries left out.
-/

set_option autoImplicit false

namespace Adg.StoredFacts
open Adg.SecurityIdentifier Adg.SortedLists Adg.FindingModel Adg.RiskRecords Adg.FactBundles
open Adg.RiskEvidence Adg.RiskRules

/-! ### What the store keeps -/

/-- The entries of one container, in stored order. -/
structure StoredList (key : String) (aces : List AceFacts) : Prop where
  contained : ∀ a ∈ aces, a.containerKey = key
  ordered : aces.Pairwise fun a b => a.storedAt < b.storedAt

/-- Every entry of a bundle. -/
def entriesOf (f : RiskFacts) : List AceFacts :=
  f.resources.flatMap (·.aces) ++ f.shares.flatMap (·.aces)

/-- A bundle of keyed records. The key of a trustee ends in its SID. -/
structure Stored (f : RiskFacts) : Prop where
  containers : (f.resources.map (·.resourceKey) ++ f.shares.map (·.shareKey)).Nodup
  resourceLists : ∀ r ∈ f.resources, StoredList r.resourceKey r.aces
  shareLists : ∀ s ∈ f.shares, StoredList s.shareKey s.aces
  entries : ((entriesOf f).map (·.aceKey)).Nodup
  trustees : ∀ a ∈ entriesOf f, (canonicalizeSid (tailOf a.trusteeKey)).isOk = true
  principals : ∀ e ∈ f.principals, e.1 = e.2.key
  memberships : ∀ e ∈ f.memberships, e.1 = e.2.groupKey

theorem lookup_mem {β : Type} {l : List (String × β)} {k : String} {v : β}
    (h : l.lookup k = some v) : (k,v) ∈ l := by
  obtain ⟨before,after,rfl,-⟩ := List.lookup_eq_some_iff.mp h
  exact List.mem_append_right _ List.mem_cons_self

/-- What one of some lists contributes is found again by the key of the list. -/
theorem flatMap_own {α β κ : Type} [DecidableEq κ] {key : α → κ} {own : β → κ} {g : α → List β}
    {l : List α} (hkeys : (l.map key).Nodup) (hown : ∀ a ∈ l, ∀ b ∈ g a, own b = key a) {a : α}
    (ha : a ∈ l) : (l.flatMap g).filter (fun b => own b = key a) = g a := by
  induction l with
  | nil => cases ha
  | cons c rest ih =>
    rw [List.map_cons, List.nodup_cons] at hkeys
    have hrest : ∀ d ∈ rest, ∀ b ∈ g d, own b = key d := fun d hd =>
      hown d (List.mem_cons_of_mem c hd)
    rw [List.flatMap_cons, List.filter_append]
    by_cases hca : c = a
    · subst hca
      have hown' : (g c).filter (fun b => own b = key c) = g c :=
        List.filter_eq_self.mpr fun b hb => by simpa using hown c List.mem_cons_self b hb
      have hothers : (rest.flatMap g).filter (fun b => own b = key c) = [] := by
        apply List.filter_eq_nil_iff.mpr
        intro b hb
        obtain ⟨d,hd,hbd⟩ := List.mem_flatMap.mp hb
        have hne : key d ≠ key c := fun h => hkeys.1 (h ▸ List.mem_map_of_mem hd)
        simpa [hrest d hd b hbd] using hne
      rw [hown', hothers, List.append_nil]
    · have hmem : a ∈ rest := (List.mem_cons.mp ha).resolve_left fun h => hca h.symm
      have hne : key c ≠ key a := fun h => hkeys.1 (h ▸ List.mem_map_of_mem hmem)
      have hnone : (g c).filter (fun b => own b = key a) = [] := by
        apply List.filter_eq_nil_iff.mpr
        intro b hb
        simpa [hown c List.mem_cons_self b hb] using hne
      rw [hnone, List.nil_append, ih hkeys.2 hrest hmem]

section Keys
variable {f : RiskFacts} (hf : Stored f)
include hf

theorem principal_key {key : String} {p : PrincipalFacts} (h : f.principal key = some p) :
    p.key = key :=
  (hf.principals _ (lookup_mem h)).symm

theorem membership_key {key : String} {m : MembershipFacts} (h : f.membership key = some m) :
    m.groupKey = key :=
  (hf.memberships _ (lookup_mem h)).symm

theorem resources_apart : (f.resources.map (·.resourceKey)).Nodup :=
  (List.nodup_append.mp hf.containers).1

theorem shares_apart : (f.shares.map (·.shareKey)).Nodup :=
  (List.nodup_append.mp hf.containers).2.1

end Keys

/-! ### Lists -/

def resourceOf : Acl → Option ResourceFacts
  | .resource r => some r
  | .share _ => none

def shareOf : Acl → Option ShareFacts
  | .resource _ => none
  | .share s => some s

/-- A list with only the entries that name some trustees. -/
def restricted (trustees : List String) : Acl → Acl
  | .resource r => .resource { r with aces := r.aces.filter fun a => a.trusteeKey ∈ trustees }
  | .share s => .share { s with aces := s.aces.filter fun a => a.trusteeKey ∈ trustees }

section Restricted
variable (trustees : List String) (acl : Acl)

@[simp] theorem restricted_key : (restricted trustees acl).key = acl.key := by
  cases acl <;> rfl

@[simp] theorem restricted_layer : (restricted trustees acl).layer = acl.layer := by
  cases acl <;> rfl

@[simp] theorem restricted_aces :
    (restricted trustees acl).aces = acl.aces.filter fun a => a.trusteeKey ∈ trustees := by
  cases acl <;> rfl

@[simp] theorem restricted_container : (restricted trustees acl).container = acl.container := by
  cases acl <;> rfl

@[simp] theorem restricted_qualifiers : (restricted trustees acl).qualifiers = acl.qualifiers := by
  cases acl <;> rfl

@[simp] theorem restricted_subject (principalKey discriminator : Option String) :
    (restricted trustees acl).subject principalKey discriminator =
      acl.subject principalKey discriminator := by
  cases acl <;> rfl

@[simp] theorem restricted_place : (restricted trustees acl).place = acl.place := by
  cases acl <;> rfl

variable {trustees acl} {t : String} (ht : t ∈ trustees)
include ht

theorem restricted_entries : (restricted trustees acl).entriesNaming t = acl.entriesNaming t := by
  unfold Acl.entriesNaming
  rw [restricted_aces, List.filter_filter]
  apply List.filter_congr
  intro a _
  by_cases hname : a.trusteeKey = t
  · simp [hname, ht]
  · simp [hname]

theorem restricted_evaluates (sid : String) :
    (restricted trustees acl).evaluateFor t sid = acl.evaluateFor t sid := by
  have hlayer : (restricted trustees acl).rightsLayer = acl.rightsLayer := by cases acl <;> rfl
  have hfacts : (restricted trustees acl).facts = acl.facts := by cases acl <;> rfl
  unfold Acl.evaluateFor
  rw [restricted_entries ht, hlayer, hfacts]

theorem restricted_cites : (restricted trustees acl).cite t = acl.cite t := by
  unfold Acl.cite
  rw [restricted_entries ht]

end Restricted

/-! ### The lists of a bundle -/

theorem ntfs_before_smb : AclLayer.ntfs.value < AclLayer.smbShare.value := by decide

/-- Resources come first, in key order, then shares. -/
theorem acls_placed {f : RiskFacts} (hr : (f.resources.map (·.resourceKey)).Nodup)
    (hs : (f.shares.map (·.shareKey)).Nodup) :
    (acls f).Pairwise fun a b => a.place < b.place := by
  unfold acls
  apply List.pairwise_append.mpr
  refine ⟨?_,?_,?_⟩
  · apply List.pairwise_map.mpr
    apply (sortedBy_strict hr).imp
    intro a b hlt
    exact Prod.Lex.toLex_lt_toLex.mpr (.inr ⟨rfl,hlt⟩)
  · apply List.pairwise_map.mpr
    apply ((sortedBy_strict hs).sublist List.filter_sublist).imp
    intro a b hlt
    exact Prod.Lex.toLex_lt_toLex.mpr (.inr ⟨rfl,hlt⟩)
  · intro a ha b hb
    obtain ⟨r,-,rfl⟩ := List.mem_map.mp ha
    obtain ⟨s,-,rfl⟩ := List.mem_map.mp hb
    exact Prod.Lex.toLex_lt_toLex.mpr (.inl ntfs_before_smb)

theorem firstLists_placed {lists : List Acl} (h : lists.Pairwise fun a b => a.place < b.place) :
    firstLists lists = lists := by
  induction lists with
  | nil => rfl
  | cons a rest ih =>
    obtain ⟨ha,hrest⟩ := List.pairwise_cons.mp h
    rw [firstLists, ih hrest]
    congr 1
    apply List.filter_eq_self.mpr
    intro b hb
    simpa using (ha b hb).ne'

/-- The lists that name a trustee stand as they are visited. -/
theorem listsNaming_eq {f : RiskFacts} (h : (acls f).Pairwise fun a b => a.place < b.place)
    (t : String) : listsNaming f t = (acls f).filter (grantsTo t) := by
  have hplaced := h.sublist (List.filter_sublist (p := grantsTo t))
  unfold listsNaming
  rw [firstLists_placed hplaced]
  exact sortedBy_eq_of_perm _ (List.Perm.refl _) hplaced

theorem mem_acls {f : RiskFacts} {acl : Acl} : acl ∈ acls f ↔
    (∃ r ∈ f.resources, acl = .resource r) ∨
      ∃ s ∈ f.shares, s.aclObserved = true ∧ acl = .share s := by
  unfold acls
  rw [List.mem_append, List.mem_map, List.mem_map]
  simp only [List.mem_filter, mem_sortedBy]
  constructor
  · rintro (⟨r,hr,rfl⟩ | ⟨s,⟨hs,hobserved⟩,rfl⟩)
    · exact .inl ⟨r,hr,rfl⟩
    · exact .inr ⟨s,hs,hobserved,rfl⟩
  · rintro (⟨r,hr,rfl⟩ | ⟨s,hs,hobserved,rfl⟩)
    · exact .inl ⟨r,hr,rfl⟩
    · exact .inr ⟨s,⟨hs,hobserved⟩,rfl⟩

theorem list_entries {f : RiskFacts} {acl : Acl} (h : acl ∈ acls f) {a : AceFacts}
    (ha : a ∈ acl.aces) : a ∈ entriesOf f := by
  rcases mem_acls.mp h with ⟨r,hr,rfl⟩ | ⟨s,hs,-,rfl⟩
  · exact List.mem_append_left _ (List.mem_flatMap.mpr ⟨r,hr,ha⟩)
  · exact List.mem_append_right _ (List.mem_flatMap.mpr ⟨s,hs,ha⟩)

section Lists
variable {f : RiskFacts} (hf : Stored f)
include hf

theorem stored_placed : (acls f).Pairwise fun a b => a.place < b.place :=
  acls_placed (resources_apart hf) (shares_apart hf)

theorem stored_list {acl : Acl} (h : acl ∈ acls f) : StoredList acl.key acl.aces := by
  rcases mem_acls.mp h with ⟨r,hr,rfl⟩ | ⟨s,hs,-,rfl⟩
  · exact hf.resourceLists r hr
  · exact hf.shareLists s hs

/-- No two lists have one key. -/
theorem acls_apart : ((acls f).map Acl.key).Nodup := by
  have hperm : ((sortedBy (·.resourceKey) f.resources).map (·.resourceKey) ++
      (sortedBy (·.shareKey) f.shares).map (·.shareKey)).Nodup :=
    (List.Perm.append ((sortedBy_perm _ _).map _) ((sortedBy_perm _ _).map _)).nodup_iff.mpr
      hf.containers
  unfold acls
  rw [List.map_append, List.map_map, List.map_map]
  exact (List.Sublist.append (List.Sublist.refl _)
    (List.Sublist.map _ List.filter_sublist)).nodup hperm

/-- No two entries of the lists have one key. -/
theorem entries_apart : (((acls f).flatMap Acl.aces).map (·.aceKey)).Nodup := by
  have hperm : (((sortedBy (·.resourceKey) f.resources).flatMap (·.aces) ++
      (sortedBy (·.shareKey) f.shares).flatMap (·.aces)).map (·.aceKey)).Nodup :=
    ((List.Perm.append ((sortedBy_perm _ _).flatMap_right _)
      ((sortedBy_perm _ _).flatMap_right _)).map _).nodup_iff.mpr hf.entries
  unfold acls
  rw [List.flatMap_append, List.flatMap_map, List.flatMap_map]
  apply List.Sublist.nodup _ hperm
  apply List.Sublist.map
  exact List.Sublist.append (List.Sublist.refl _)
    (List.Sublist.flatMap List.filter_sublist _)

end Lists

/-! ### Citing some lists -/

/-- The records of some lists that name some trustees, beside other records. -/
def citation (lists : List Acl) (trustees : List String) (principals : List PrincipalFacts)
    (memberships : List MembershipFacts) (settings : List EvidenceItem) : Citation where
  resources := lists.filterMap resourceOf
  shares := lists.filterMap shareOf
  aces := lists.flatMap fun acl => acl.aces.filter fun a => a.trusteeKey ∈ trustees
  principals := principals
  memberships := memberships
  settings := settings

section Cited
variable {f : RiskFacts} {lists : List Acl} {trustees : List String}
  {principals : List PrincipalFacts} {memberships : List MembershipFacts}
  {settings : List EvidenceItem}

theorem mem_cited {i : EvidenceItem} :
    i ∈ (citation lists trustees principals memberships settings).items ↔
      (∃ acl ∈ lists, i = acl.container) ∨
      (∃ acl ∈ lists, ∃ t ∈ trustees, i ∈ acl.cite t) ∨
      (∃ p ∈ principals, i = forPrincipal p) ∨ (∃ m ∈ memberships, i = forMembership m) ∨
      i ∈ settings := by
  have hcontainers : (i ∈ (lists.filterMap resourceOf).map forResource ∨
      i ∈ (lists.filterMap shareOf).map forShare) ↔ ∃ acl ∈ lists, i = acl.container := by
    simp only [List.mem_map, List.mem_filterMap]
    constructor
    · rintro (⟨r,⟨acl,hacl,hr⟩,rfl⟩ | ⟨s,⟨acl,hacl,hs⟩,rfl⟩)
      · refine ⟨acl,hacl,?_⟩
        cases acl <;> cases hr
        rfl
      · refine ⟨acl,hacl,?_⟩
        cases acl <;> cases hs
        rfl
    · rintro ⟨acl,hacl,rfl⟩
      cases acl with
      | resource r => exact .inl ⟨r,⟨_,hacl,rfl⟩,rfl⟩
      | share s => exact .inr ⟨s,⟨_,hacl,rfl⟩,rfl⟩
  have hentries : i ∈ (lists.flatMap fun acl =>
      acl.aces.filter fun a => a.trusteeKey ∈ trustees).map forAce ↔
      ∃ acl ∈ lists, ∃ t ∈ trustees, i ∈ acl.cite t := by
    simp only [List.mem_map, List.mem_flatMap, List.mem_filter, decide_eq_true_eq, Acl.cite,
      Acl.entriesNaming]
    constructor
    · rintro ⟨a,⟨acl,hacl,ha,ht⟩,rfl⟩
      exact ⟨acl,hacl,_,ht,a,⟨ha,rfl⟩,rfl⟩
    · rintro ⟨acl,hacl,t,ht,a,⟨ha,rfl⟩,rfl⟩
      exact ⟨a,⟨acl,hacl,ha,ht⟩,rfl⟩
  have hmap : ∀ {α : Type} (item : α → EvidenceItem) (l : List α),
      i ∈ l.map item ↔ ∃ a ∈ l, i = item a := by
    intro α item l
    simp only [List.mem_map, eq_comm]
  unfold Citation.items citation
  rw [← hcontainers, ← hentries, ← hmap forPrincipal, ← hmap forMembership]
  simp only [List.mem_append, or_assoc]

variable (hlists : lists.Sublist (acls f))
include hlists

/-- Some of the lists, resources first. -/
theorem split_lists : ∃ (rs : List ResourceFacts) (ss : List ShareFacts),
    rs.Sublist (sortedBy (·.resourceKey) f.resources) ∧
    ss.Sublist ((sortedBy (·.shareKey) f.shares).filter (·.aclObserved)) ∧
    lists = rs.map Acl.resource ++ ss.map Acl.share := by
  obtain ⟨front,back,hsplit,hfront,hback⟩ := List.sublist_append_iff.mp hlists
  obtain ⟨rs,hrs,rfl⟩ := List.sublist_map_iff.mp hfront
  obtain ⟨ss,hss,rfl⟩ := List.sublist_map_iff.mp hback
  exact ⟨rs,ss,hrs,hss,hsplit⟩

variable (hf : Stored f)
include hf

/-- The entries of one of the lists are found by its key. -/
theorem acesFor_cited (trustees : List String) {acl : Acl} (hacl : acl ∈ lists) :
    acesFor (lists.flatMap fun acl => acl.aces.filter fun a => a.trusteeKey ∈ trustees) acl.key =
      acl.aces.filter fun a => a.trusteeKey ∈ trustees := by
  have hapart : ((lists.map Acl.key)).Nodup := (hlists.map _).nodup (acls_apart hf)
  have hkept : ∀ other ∈ lists, ∀ a ∈ other.aces.filter (fun a => a.trusteeKey ∈ trustees),
      a.containerKey = other.key := by
    intro other hother a ha
    exact (stored_list hf (hlists.subset hother)).contained a (List.mem_filter.mp ha).1
  unfold acesFor
  rw [flatMap_own hapart hkept hacl]
  apply sortedBy_eq_of_perm _ (List.Perm.refl _)
  exact (stored_list hf (hlists.subset hacl)).ordered.sublist List.filter_sublist

/-- The lists of the bundle that was cited are those lists, restricted. -/
theorem acls_cited : acls (citation lists trustees principals memberships settings).bundle =
    lists.map (restricted trustees) := by
  have hentries := fun acl (hacl : acl ∈ lists) =>
    acesFor_cited hlists hf trustees hacl
  obtain ⟨rs,ss,hrs,hss,rfl⟩ := split_lists hlists
  have hresources : (rs.map Acl.resource ++ ss.map Acl.share).filterMap resourceOf = rs := by
    simp [List.filterMap_append, List.filterMap_map, Function.comp_def, resourceOf]
  have hshares : (rs.map Acl.resource ++ ss.map Acl.share).filterMap shareOf = ss := by
    simp [List.filterMap_append, List.filterMap_map, Function.comp_def, shareOf]
  have hrordered : rs.Pairwise fun a b => a.resourceKey < b.resourceKey :=
    (sortedBy_strict (resources_apart hf)).sublist hrs
  have hsordered : ss.Pairwise fun a b => a.shareKey < b.shareKey :=
    (sortedBy_strict (shares_apart hf)).sublist (hss.trans List.filter_sublist)
  have hobserved : ∀ s ∈ ss, s.aclObserved = true := fun s hs =>
    (List.mem_filter.mp (hss.subset hs)).2
  have hr : ∀ own : String → List AceFacts,
      sortedBy (·.resourceKey) (rs.map fun r => { r with aces := own r.resourceKey }) =
        rs.map fun r => { r with aces := own r.resourceKey } := fun own =>
    sortedBy_eq_of_perm _ (List.Perm.refl _) (List.pairwise_map.mpr hrordered)
  have hs : ∀ own : String → List AceFacts,
      (sortedBy (·.shareKey) (ss.map fun s => { s with aces := own s.shareKey })).filter
        (·.aclObserved) = ss.map fun s => { s with aces := own s.shareKey } := by
    intro own
    have hsorted : sortedBy (·.shareKey) (ss.map fun s => { s with aces := own s.shareKey }) =
        ss.map fun s => { s with aces := own s.shareKey } :=
      sortedBy_eq_of_perm _ (List.Perm.refl _) (List.pairwise_map.mpr hsordered)
    rw [hsorted]
    apply List.filter_eq_self.mpr
    intro s hs
    obtain ⟨s',hs',rfl⟩ := List.mem_map.mp hs
    exact hobserved s' hs'
  unfold acls Citation.bundle citation
  simp only [hresources, hshares, sortedBy_eq_of_perm _ (List.Perm.refl _) hrordered,
    sortedBy_eq_of_perm _ (List.Perm.refl _) hsordered]
  rw [hr, hs, List.map_map, List.map_map, List.map_append, List.map_map, List.map_map]
  congr 1
  · apply List.map_congr_left
    intro r hr
    have hown := hentries (.resource r) (List.mem_append_left _ (List.mem_map_of_mem hr))
    show Acl.resource { r with aces := acesFor _ r.resourceKey } = _
    rw [show acesFor _ r.resourceKey = _ from hown]
    rfl
  · apply List.map_congr_left
    intro s hs
    have hown := hentries (.share s) (List.mem_append_right _ (List.mem_map_of_mem hs))
    show Acl.share { s with aces := acesFor _ s.shareKey } = _
    rw [show acesFor _ s.shareKey = _ from hown]
    rfl

/-- What is cited is apart, where the records beside the lists are. -/
theorem cited_apart (hprincipals : (principals.map (·.key)).Nodup)
    (hmemberships : (memberships.map (·.groupKey)).Nodup)
    (hsettings : (settings.map (·.key)).Nodup) (hkinds : ∀ i ∈ settings, i.kind = .configuration) :
    (citation lists trustees principals memberships settings).Apart where
  resources := by
    obtain ⟨rs,ss,hrs,-,rfl⟩ := split_lists hlists
    have hresources : (rs.map Acl.resource ++ ss.map Acl.share).filterMap resourceOf = rs := by
      simp [List.filterMap_append, List.filterMap_map, Function.comp_def, resourceOf]
    show (((rs.map Acl.resource ++ ss.map Acl.share).filterMap resourceOf).map _).Nodup
    rw [hresources]
    exact List.pairwise_map.mpr (((sortedBy_strict (resources_apart hf)).sublist hrs).imp
      fun h => h.ne)
  shares := by
    obtain ⟨rs,ss,-,hss,rfl⟩ := split_lists hlists
    have hshares : (rs.map Acl.resource ++ ss.map Acl.share).filterMap shareOf = ss := by
      simp [List.filterMap_append, List.filterMap_map, Function.comp_def, shareOf]
    show (((rs.map Acl.resource ++ ss.map Acl.share).filterMap shareOf).map _).Nodup
    rw [hshares]
    exact List.pairwise_map.mpr (((sortedBy_strict (shares_apart hf)).sublist
      (hss.trans List.filter_sublist)).imp fun h => h.ne)
  aces := by
    apply List.Sublist.nodup _ (entries_apart hf)
    apply List.Sublist.map
    exact (List.Sublist.flatMap_right lists fun acl _ => List.filter_sublist).trans
      (hlists.flatMap _)
  principals := hprincipals
  memberships := hmemberships
  settings := hsettings
  settled := hkinds

/-- What is cited in any arrangement is rebuilt as the bundle of the records that were cited. -/
theorem rebuilt {items : List EvidenceItem} (hprincipals : (principals.map (·.key)).Nodup)
    (hmemberships : (memberships.map (·.groupKey)).Nodup)
    (hsettings : (settings.map (·.key)).Nodup) (hkinds : ∀ i ∈ settings, i.kind = .configuration)
    (hsame : ∀ i, i ∈ items ↔ (∃ acl ∈ lists, i = acl.container) ∨
      (∃ acl ∈ lists, ∃ t ∈ trustees, i ∈ acl.cite t) ∨
      (∃ p ∈ principals, i = forPrincipal p) ∨ (∃ m ∈ memberships, i = forMembership m) ∨
      i ∈ settings) :
    rebuildFacts (Evidence.of items) =
      some (citation lists trustees principals memberships settings).bundle := by
  apply Citation.rebuild_cited (cited_apart hlists hf hprincipals hmemberships hsettings hkinds)
  intro i
  rw [hsame, mem_cited]

omit hf hlists

theorem principal_cited (h : (principals.map (·.key)).Nodup) {key : String} {p : PrincipalFacts} :
    (citation lists trustees principals memberships settings).bundle.principal key = some p ↔
      p ∈ principals ∧ p.key = key := by
  have hkeys : (((sortedBy (·.key) principals).map fun p => (p.key,p)).map (·.1)).Nodup := by
    rw [List.map_map]
    exact ((sortedBy_perm _ _).map _).nodup_iff.mpr h
  show ((sortedBy (·.key) principals).map fun p => (p.key,p)).lookup key = some p ↔ _
  rw [lookup_keyed hkeys, List.mem_map]
  simp only [mem_sortedBy, Prod.mk.injEq]
  constructor
  · rintro ⟨q,hq,rfl,rfl⟩
    exact ⟨hq,rfl⟩
  · rintro ⟨hp,rfl⟩
    exact ⟨p,hp,rfl,rfl⟩

theorem membership_cited (h : (memberships.map (·.groupKey)).Nodup) {key : String}
    {m : MembershipFacts} :
    (citation lists trustees principals memberships settings).bundle.membership key = some m ↔
      m ∈ memberships ∧ m.groupKey = key := by
  have hkeys : (((sortedBy (·.groupKey) memberships).map fun m => (m.groupKey,m)).map
      (·.1)).Nodup := by
    rw [List.map_map]
    exact ((sortedBy_perm _ _).map _).nodup_iff.mpr h
  show ((sortedBy (·.groupKey) memberships).map fun m => (m.groupKey,m)).lookup key = some m ↔ _
  rw [lookup_keyed hkeys, List.mem_map]
  simp only [mem_sortedBy, Prod.mk.injEq]
  constructor
  · rintro ⟨q,hq,rfl,rfl⟩
    exact ⟨hq,rfl⟩
  · rintro ⟨hm,rfl⟩
    exact ⟨m,hm,rfl,rfl⟩

end Cited

end Adg.StoredFacts
