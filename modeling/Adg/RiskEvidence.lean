import Adg.FactBundles

/-!
# Evidence of records

A record is cited whole, and a bundle is rebuilt from what was cited and from
nothing else. Where no two cited records of a kind share a key, the bundle that
is rebuilt holds exactly the cited records, each list of entries in the order
it is stored in.
-/

set_option autoImplicit false

namespace Adg.RiskEvidence
open Adg.SortedLists Adg.CanonicalJson Adg.FindingModel Adg.RiskRecords Adg.FactBundles

/-! ### Citing a record -/

def forResource (r : ResourceFacts) : EvidenceItem := ⟨.resource,r.resourceKey,r.toEvidence,r.key_ne⟩

def forShare (s : ShareFacts) : EvidenceItem := ⟨.share,s.shareKey,s.toEvidence,s.key_ne⟩

def forAce (a : AceFacts) : EvidenceItem := ⟨.ace,a.aceKey,a.toEvidence,a.key_ne⟩

def forPrincipal (p : PrincipalFacts) : EvidenceItem := ⟨.principal,p.key,p.toEvidence,p.key_ne⟩

def forMembership (m : MembershipFacts) : EvidenceItem :=
  ⟨.membership,m.groupKey,m.toEvidence,m.key_ne⟩

def forConfiguration (name : String) (value : Json) (h : name ≠ "") : EvidenceItem :=
  ⟨.configuration,name,[("value",value)],h⟩

def ofKind (e : Evidence) (kind : EvidenceKind) : List EvidenceItem :=
  e.items.filter fun item => item.kind = kind

/-- The entries of a container, in stored order. -/
def acesFor (aces : List AceFacts) (containerKey : String) : List AceFacts :=
  sortedBy AceFacts.storedAt (aces.filter fun a => a.containerKey = containerKey)

/-- `rebuild_facts`. -/
def rebuildFacts (e : Evidence) : Option RiskFacts := do
  let aces ← (ofKind e .ace).mapM fun item => AceFacts.fromEvidence item.attributes
  let resources ← (ofKind e .resource).mapM fun item =>
    ResourceFacts.fromEvidence item.attributes (acesFor aces item.key)
  let shares ← (ofKind e .share).mapM fun item =>
    ShareFacts.fromEvidence item.attributes (acesFor aces item.key)
  let principals ← (ofKind e .principal).mapM fun item =>
    (PrincipalFacts.fromEvidence item.attributes).map fun p => (item.key,p)
  let memberships ← (ofKind e .membership).mapM fun item =>
    (MembershipFacts.fromEvidence item.attributes).map fun m => (item.key,m)
  return {
    resources := resources
    shares := shares
    principals := principals
    memberships := memberships }

/-! ### Evidence of consistent items -/

/-- No two different items share a kind and a key. -/
def Consistent (items : List EvidenceItem) : Prop :=
  ∀ i ∈ items, ∀ j ∈ items, i.sortKey = j.sortKey → i = j

theorem mem_firstRecords {items : List EvidenceItem} (h : Consistent items) {i : EvidenceItem} :
    i ∈ firstRecords items ↔ i ∈ items := by
  induction items with
  | nil => rfl
  | cons a rest ih =>
    have hrest : Consistent rest := fun i hi j hj =>
      h i (List.mem_cons_of_mem a hi) j (List.mem_cons_of_mem a hj)
    rw [firstRecords, List.mem_cons, List.mem_cons, List.mem_filter, ih hrest]
    constructor
    · rintro (rfl | hi)
      · exact .inl rfl
      · exact .inr hi.1
    · rintro (rfl | hi)
      · exact .inl rfl
      · by_cases hkey : i.sortKey = a.sortKey
        · exact .inl (h i (List.mem_cons_of_mem a hi) a List.mem_cons_self hkey)
        · exact .inr ⟨hi,by simpa using hkey⟩

/-- Consistent items make one evidence in whatever order and however often they are cited. -/
theorem of_congr {items others : List EvidenceItem} (hsame : ∀ i, i ∈ items ↔ i ∈ others)
    (h : Consistent items) : Evidence.of items = Evidence.of others := by
  have hothers : Consistent others := fun i hi j hj =>
    h i ((hsame i).mpr hi) j ((hsame j).mpr hj)
  have hperm : (firstRecords items).Perm (firstRecords others) := by
    apply (List.perm_ext_iff_of_nodup (List.Nodup.of_map _ (firstRecords_apart items))
      (List.Nodup.of_map _ (firstRecords_apart others))).mpr
    intro i
    rw [mem_firstRecords h, mem_firstRecords hothers, hsame]
  have hsorted : sortedBy EvidenceItem.sortKey (firstRecords items) =
      sortedBy EvidenceItem.sortKey (firstRecords others) :=
    sortedBy_eq_of_perm _ (hperm.trans (sortedBy_perm _ _).symm)
      (sortedBy_strict (firstRecords_apart others))
  unfold Evidence.of
  simp only [hsorted]

theorem of_ne_nil {items : List EvidenceItem} (h : items ≠ []) :
    (Evidence.of items).items ≠ [] := by
  obtain ⟨i,rest,rfl⟩ := List.exists_cons_of_ne_nil h
  apply List.ne_nil_of_mem (a := i)
  exact (mem_sortedBy _).mpr (by rw [firstRecords]; exact List.mem_cons_self)

/-! ### What was cited -/

/-- Cited records, by kind. -/
structure Citation where
  resources : List ResourceFacts := []
  shares : List ShareFacts := []
  aces : List AceFacts := []
  principals : List PrincipalFacts := []
  memberships : List MembershipFacts := []
  settings : List EvidenceItem := []

namespace Citation

def items (c : Citation) : List EvidenceItem :=
  c.resources.map forResource ++ c.shares.map forShare ++ c.aces.map forAce ++
    c.principals.map forPrincipal ++ c.memberships.map forMembership ++ c.settings

/-- No two records of a kind share a key. -/
structure Apart (c : Citation) : Prop where
  resources : (c.resources.map (·.resourceKey)).Nodup
  shares : (c.shares.map (·.shareKey)).Nodup
  aces : (c.aces.map (·.aceKey)).Nodup
  principals : (c.principals.map (·.key)).Nodup
  memberships : (c.memberships.map (·.groupKey)).Nodup
  settings : (c.settings.map (·.key)).Nodup
  settled : ∀ i ∈ c.settings, i.kind = .configuration

/-- The bundle of the cited records. -/
def bundle (c : Citation) : RiskFacts where
  resources := (sortedBy (·.resourceKey) c.resources).map fun r =>
    { r with aces := acesFor c.aces r.resourceKey }
  shares := (sortedBy (·.shareKey) c.shares).map fun s =>
    { s with aces := acesFor c.aces s.shareKey }
  principals := (sortedBy (·.key) c.principals).map fun p => (p.key,p)
  memberships := (sortedBy (·.groupKey) c.memberships).map fun m => (m.groupKey,m)

variable {c : Citation}

theorem sortKey_kind {i j : EvidenceItem} (h : i.sortKey = j.sortKey) : i.kind = j.kind := by
  have hvalue : i.kind.value = j.kind.value := congrArg (fun k => (ofLex k).1) h
  have hread := congrArg EvidenceKind.ofValue hvalue
  simpa using hread

theorem sortKey_key {i j : EvidenceItem} (h : i.sortKey = j.sortKey) : i.key = j.key :=
  congrArg (fun k => (ofLex k).2) h

/-- Items that are apart within every kind are apart. -/
theorem apart_of_kinds {items : List EvidenceItem}
    (h : ∀ kind, ((items.filter fun i => i.kind = kind).map (·.key)).Nodup) :
    (items.map EvidenceItem.sortKey).Nodup := by
  induction items with
  | nil => exact List.nodup_nil
  | cons i rest ih =>
    rw [List.map_cons, List.nodup_cons]
    constructor
    · intro hmem
      obtain ⟨j,hj,hkey⟩ := List.mem_map.mp hmem
      have hi := h i.kind
      rw [List.filter_cons_of_pos (by simp), List.map_cons, List.nodup_cons] at hi
      apply hi.1
      rw [← sortKey_key hkey]
      exact List.mem_map_of_mem (List.mem_filter.mpr ⟨hj,by simpa using sortKey_kind hkey⟩)
    · apply ih
      intro kind
      exact (h kind).sublist (((List.sublist_cons_self i rest).filter _).map _)

section OneKind
variable {α β : Type} (item : α → EvidenceItem) {kind : EvidenceKind}

theorem filter_same (hkind : ∀ a, (item a).kind = kind) (l : List α) :
    (l.map item).filter (fun i => i.kind = kind) = l.map item := by
  apply List.filter_eq_self.mpr
  intro i hi
  obtain ⟨a,-,rfl⟩ := List.mem_map.mp hi
  simpa using hkind a

theorem filter_other {other : EvidenceKind} (hkind : ∀ a, (item a).kind = kind)
    (hne : kind ≠ other) (l : List α) : (l.map item).filter (fun i => i.kind = other) = [] := by
  apply List.filter_eq_nil_iff.mpr
  intro i hi
  obtain ⟨a,-,rfl⟩ := List.mem_map.mp hi
  simpa [hkind a] using hne

theorem sorted_items (key : α → String) (hkind : ∀ a, (item a).kind = kind)
    (hkey : ∀ a, (item a).key = key a) {l : List α} (h : (l.map key).Nodup) :
    sortedBy EvidenceItem.sortKey (l.map item) = (sortedBy key l).map item := by
  apply sortedBy_eq_of_perm _ ((sortedBy_perm key l).map item).symm
  apply List.pairwise_map.mpr
  apply (sortedBy_strict h).imp
  intro a b hlt
  show toLex ((item a).kind.value,(item a).key) < toLex ((item b).kind.value,(item b).key)
  rw [hkind a, hkind b, hkey a, hkey b]
  exact Prod.Lex.toLex_lt_toLex.mpr (.inr ⟨rfl,hlt⟩)

theorem mapM_items (read : EvidenceItem → Option β) (out : α → β)
    (h : ∀ a, read (item a) = some (out a)) (l : List α) :
    (l.map item).mapM read = some (l.map out) := by
  induction l with
  | nil => rfl
  | cons a rest ih =>
    rw [List.map_cons, List.mapM_cons, h a, ih]
    rfl

end OneKind

/-- What was cited of each kind. -/
def ofOne (c : Citation) : EvidenceKind → List EvidenceItem
  | .resource => c.resources.map forResource
  | .share => c.shares.map forShare
  | .ace => c.aces.map forAce
  | .principal => c.principals.map forPrincipal
  | .membership => c.memberships.map forMembership
  | .configuration => c.settings

theorem items_filter (h : c.Apart) (kind : EvidenceKind) :
    c.items.filter (fun i => i.kind = kind) = c.ofOne kind := by
  have hresource : ∀ r, (forResource r).kind = .resource := fun _ => rfl
  have hshare : ∀ s, (forShare s).kind = .share := fun _ => rfl
  have hace : ∀ a, (forAce a).kind = .ace := fun _ => rfl
  have hprincipal : ∀ p, (forPrincipal p).kind = .principal := fun _ => rfl
  have hmembership : ∀ m, (forMembership m).kind = .membership := fun _ => rfl
  have hsettings : ∀ other, other ≠ .configuration →
      c.settings.filter (fun i => i.kind = other) = [] := by
    intro other hne
    apply List.filter_eq_nil_iff.mpr
    intro i hi
    simpa [h.settled i hi] using hne.symm
  have hsettled : c.settings.filter (fun i => i.kind = .configuration) = c.settings :=
    List.filter_eq_self.mpr fun i hi => by simpa using h.settled i hi
  unfold items ofOne
  simp only [List.filter_append]
  cases kind with
  | resource =>
    rw [filter_same _ hresource, filter_other _ hshare (by decide), filter_other _ hace (by decide),
      filter_other _ hprincipal (by decide), filter_other _ hmembership (by decide),
      hsettings _ (by decide)]
    simp
  | share =>
    rw [filter_other _ hresource (by decide), filter_same _ hshare, filter_other _ hace (by decide),
      filter_other _ hprincipal (by decide), filter_other _ hmembership (by decide),
      hsettings _ (by decide)]
    simp
  | ace =>
    rw [filter_other _ hresource (by decide), filter_other _ hshare (by decide), filter_same _ hace,
      filter_other _ hprincipal (by decide), filter_other _ hmembership (by decide),
      hsettings _ (by decide)]
    simp
  | principal =>
    rw [filter_other _ hresource (by decide), filter_other _ hshare (by decide),
      filter_other _ hace (by decide), filter_same _ hprincipal,
      filter_other _ hmembership (by decide), hsettings _ (by decide)]
    simp
  | membership =>
    rw [filter_other _ hresource (by decide), filter_other _ hshare (by decide),
      filter_other _ hace (by decide), filter_other _ hprincipal (by decide),
      filter_same _ hmembership,
      hsettings _ (by decide)]
    simp
  | configuration =>
    rw [filter_other _ hresource (by decide), filter_other _ hshare (by decide),
      filter_other _ hace (by decide), filter_other _ hprincipal (by decide),
      filter_other _ hmembership (by decide), hsettled]
    simp

theorem items_apart (h : c.Apart) : (c.items.map EvidenceItem.sortKey).Nodup := by
  apply apart_of_kinds
  intro kind
  rw [items_filter h]
  cases kind with
  | resource => simpa [ofOne, Function.comp_def, forResource] using h.resources
  | share => simpa [ofOne, Function.comp_def, forShare] using h.shares
  | ace => simpa [ofOne, Function.comp_def, forAce] using h.aces
  | principal => simpa [ofOne, Function.comp_def, forPrincipal] using h.principals
  | membership => simpa [ofOne, Function.comp_def, forMembership] using h.memberships
  | configuration => exact h.settings

theorem items_consistent (h : c.Apart) : Consistent c.items := by
  intro i hi j hj hkey
  exact List.inj_on_of_nodup_map (items_apart h) hi hj hkey

theorem ofKind_cited (h : c.Apart) (kind : EvidenceKind) :
    ofKind (Evidence.of c.items) kind = sortedBy EvidenceItem.sortKey (c.ofOne kind) := by
  show (sortedBy EvidenceItem.sortKey (firstRecords c.items)).filter _ = _
  rw [firstRecords_of_apart (items_apart h), sortedBy_filter, items_filter h]

/-- Entries are put in stored order from any arrangement of them. -/
theorem acesFor_perm {l m : List AceFacts} (hp : m.Perm l) (h : (l.map (·.aceKey)).Nodup)
    (containerKey : String) : acesFor m containerKey = acesFor l containerKey := by
  have hfiltered := hp.filter fun a => decide (a.containerKey = containerKey)
  have hapart : ((l.filter fun a => a.containerKey = containerKey).map
      AceFacts.storedAt).Nodup := by
    apply List.pairwise_map.mpr
    have hkeys := (List.pairwise_map.mp h).sublist
      (List.filter_sublist (p := fun a => decide (a.containerKey = containerKey)))
    apply hkeys.imp
    intro a b hne hsame
    exact hne (congrArg (fun k => (ofLex (ofLex k).2).2) hsame)
  exact sortedBy_eq_of_perm _ (hfiltered.trans (sortedBy_perm _ _).symm) (sortedBy_strict hapart)

/-- What is rebuilt from consistent items is the bundle of the records that were cited. -/
theorem rebuild_cited {items : List EvidenceItem} (h : c.Apart)
    (hsame : ∀ i, i ∈ items ↔ i ∈ c.items) :
    rebuildFacts (Evidence.of items) = some c.bundle := by
  have hevidence : Evidence.of items = Evidence.of c.items :=
    (of_congr (fun i => (hsame i).symm) (items_consistent h)).symm
  have haces := mapM_items forAce (fun item => AceFacts.fromEvidence item.attributes) id
    AceFacts.fromEvidence_toEvidence (sortedBy (·.aceKey) c.aces)
  have hresources := mapM_items forResource
    (fun item => ResourceFacts.fromEvidence item.attributes
      (acesFor (sortedBy (·.aceKey) c.aces) item.key))
    (fun r => { r with aces := acesFor (sortedBy (·.aceKey) c.aces) r.resourceKey })
    (fun r => ResourceFacts.fromEvidence_toEvidence r _) (sortedBy (·.resourceKey) c.resources)
  have hshares := mapM_items forShare
    (fun item => ShareFacts.fromEvidence item.attributes
      (acesFor (sortedBy (·.aceKey) c.aces) item.key))
    (fun s => { s with aces := acesFor (sortedBy (·.aceKey) c.aces) s.shareKey })
    (fun s => ShareFacts.fromEvidence_toEvidence s _) (sortedBy (·.shareKey) c.shares)
  have hprincipals := mapM_items forPrincipal
    (fun item => (PrincipalFacts.fromEvidence item.attributes).map fun p => (item.key,p))
    (fun p => (p.key,p))
    (fun p => by
      show (PrincipalFacts.fromEvidence p.toEvidence).map _ = _
      rw [PrincipalFacts.fromEvidence_toEvidence]
      rfl) (sortedBy (·.key) c.principals)
  have hmemberships := mapM_items forMembership
    (fun item => (MembershipFacts.fromEvidence item.attributes).map fun m => (item.key,m))
    (fun m => (m.groupKey,m))
    (fun m => by
      show (MembershipFacts.fromEvidence m.toEvidence).map _ = _
      rw [MembershipFacts.fromEvidence_toEvidence]
      rfl) (sortedBy (·.groupKey) c.memberships)
  unfold rebuildFacts
  rw [hevidence]
  simp only [ofKind_cited h, ofOne]
  rw [sorted_items forAce (·.aceKey) (fun _ => rfl) (fun _ => rfl) h.aces,
    sorted_items forResource (·.resourceKey) (fun _ => rfl) (fun _ => rfl) h.resources,
    sorted_items forShare (·.shareKey) (fun _ => rfl) (fun _ => rfl) h.shares,
    sorted_items forPrincipal (·.key) (fun _ => rfl) (fun _ => rfl) h.principals,
    sorted_items forMembership (·.groupKey) (fun _ => rfl) (fun _ => rfl) h.memberships, haces]
  simp only [List.map_id, Option.bind_eq_bind, Option.bind_some]
  rw [hresources, hshares, hprincipals, hmemberships]
  simp only [Option.bind_some]
  unfold bundle
  simp only [acesFor_perm (sortedBy_perm _ c.aces) h.aces]
  rfl

end Citation

end Adg.RiskEvidence
