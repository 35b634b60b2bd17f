import Adg.DriftReads
import Adg.Regeneration

/-!
# What a campaign reads

A campaign reads scope by scope the entries on its targets, or those that name its
principal, up to a limit. What it reads of an entry is the same in whatever scope
the entry stands, so its scopes together read a set of entries.
-/

set_option autoImplicit false

namespace Adg.CampaignReading
open Adg.ObjectVersions Adg.VersionTable Adg.VersionReads Adg.SortedLists Adg.ReviewGeneration
open Adg.Regeneration Adg.DriftReads Adg.Fallible

/-- The kind of object the entries of a target are. -/
def aceKind : ReviewTargetKind → ObservationKind
  | .share => .smbAce
  | .resource => .ntfsAce

/-- The versions that answer at an instant, as they are written: one of an object, an entry
under its own key on its container, and a directory under a path. -/
structure Chronicle (t : Table) (moment : Instant) : Prop where
  one : ∀ v ∈ answering t moment, ∀ w ∈ answering t moment, v.object = w.object → v = w
  keyed : ∀ v ∈ answering t moment, v.key ≠ ""
  entry : ∀ v ∈ answering t moment, ∀ kind, v.kind = aceKind kind → ∃ target e,
    entryOf kind v.versionId v.state = .ok (target,e) ∧ e.aceKey = v.key ∧ e.targetKind = kind ∧
      v.containerKey = some target
  path : ∀ v ∈ answering t moment, v.kind = .ntfsResource → treePath v.state ≠ some ""

section Selection
variable (casefold : String → String) (t : Table) (moment : Instant)

/-- The shares a scope selects. -/
def shareTargets (scope : CampaignScope) : List ObjectVersion :=
  select t moment fun v => selectsShare casefold scope (said v)

/-- The directories a scope selects. -/
def resourceTargets (scope : CampaignScope) : List ObjectVersion :=
  select t moment fun v => selectsResource casefold scope (said v)

/-- The entries a scope selects on targets of a kind: those on its targets, or those that
name its principal. -/
def entriesOf (focus : CampaignFocus) (kind : ReviewTargetKind) (scope : CampaignScope) :
    List ObjectVersion :=
  match focus, kind with
  | .principal, _ => relatedAt t (aceKind kind) [scope.key] moment
  | .resource, .share =>
    containedAt t .smbAce ((shareTargets casefold t moment scope).map (·.key)) moment
  | .resource, .resource =>
    containedAt t .ntfsAce ((resourceTargets casefold t moment scope).map (·.key)) moment

/-- Those of them that are read. -/
def reached (focus : CampaignFocus) (kind : ReviewTargetKind) (ceiling : ℕ)
    (scope : CampaignScope) : List ObjectVersion :=
  match focus with
  | .principal => entriesOf casefold t moment focus kind scope
  | .resource => (entriesOf casefold t moment focus kind scope).take (ceiling*8)

/-- The paths of all targets of a kind. -/
def targetPaths : ReviewTargetKind → List (String × Option String)
  | .share => pathsOf sharePath (select t moment fun v => v.kind = .smbShare)
  | .resource => pathsOf resourcePath (select t moment fun v => v.kind = .ntfsResource)

/-- The grant of an entry, whatever scope it is read for. -/
def grantAt (kind : ReviewTargetKind) (v : ObjectVersion) : Except GenerationError ObservedGrant :=
  observedGrant kind moment (targetPaths t moment kind) v

end Selection

/-! ### One grant of an entry -/

section Reading
variable {casefold : String → String} {t : Table} {moment : Instant}

theorem select_objects (h : Chronicle t moment) (p : ObjectVersion → Bool) :
    ((select t moment p).map (·.object)).Nodup := by
  have hrows : (select t moment p).Nodup := by
    unfold select answering
    rw [(sortedBy_perm _ _).nodup_iff]
    exact ((List.Nodup.of_map _ t.ids_nodup).filter _).filter _
  apply List.Nodup.map_on _ hrows
  intro v hv w hw hobj
  exact h.one v (mem_select.mp hv).1 w (mem_select.mp hw).1 hobj

/-- What a dictionary of targets of one kind says of one of them. -/
theorem lookup_path {path : Option State → Option String} {l : List ObjectVersion}
    (hobjects : (l.map (·.object)).Nodup) {kind : ObservationKind}
    (hkind : ∀ v ∈ l, v.kind = kind) {v : ObjectVersion} (hv : v ∈ l) :
    (pathsOf path l).lookup v.key = some (path v.state) := by
  unfold pathsOf
  rw [asDict_self hobjects]
  induction l with
  | nil => cases hv
  | cons w l ih =>
    obtain ⟨hw,hl⟩ := List.nodup_cons.mp hobjects
    rw [List.map_cons, List.lookup_cons]
    rcases List.mem_cons.mp hv with rfl | hv
    · rw [beq_self_eq_true]
    · have hne : v.key ≠ w.key := by
        intro hkey
        have hsame : v.object = w.object :=
          Prod.ext ((hkind v (List.mem_cons_of_mem w hv)).trans
            (hkind w List.mem_cons_self).symm) hkey
        exact hw (List.mem_map.mpr ⟨v,hv,hsame⟩)
      rw [beq_false_of_ne hne]
      exact ih hl (fun u hu => hkind u (List.mem_cons_of_mem w hu)) hv

theorem lookup_no_path {path : Option State → Option String} {l : List ObjectVersion}
    (hobjects : (l.map (·.object)).Nodup) {key : String} (hno : ∀ v ∈ l, v.key ≠ key) :
    (pathsOf path l).lookup key = none := by
  unfold pathsOf
  rw [asDict_self hobjects, List.lookup_eq_none_iff]
  intro p hp
  obtain ⟨v,hv,rfl⟩ := List.mem_map.mp hp
  exact bne_iff_ne.mpr (hno v hv).symm

theorem treePath_spoken {state : Option State} (h : treePath state ≠ some "") :
    treePath state = resourcePath state := by
  unfold treePath at h ⊢
  unfold resourcePath spoken
  split at h
  next s hs =>
    have hne : s ≠ "" := fun he => h (congrArg some he)
    simp [hne]
  next => rfl

/-- Entries whose targets have the same paths in two dictionaries make the same grants. -/
theorem grants_same (kind : ReviewTargetKind) {paths : List (String × Option String)}
    {l : List ObjectVersion}
    (h : ∀ v ∈ l, paths.lookup (v.containerKey.getD "") =
      (targetPaths t moment kind).lookup (v.containerKey.getD "")) :
    l.mapM (observedGrant kind moment paths) = l.mapM (grantAt t moment kind) := by
  apply mapM_same
  intro v hv
  unfold grantAt observedGrant
  rw [h v hv]

theorem pathsOf_fst {path : Option State → Option String} {l : List ObjectVersion}
    (h : (l.map (·.object)).Nodup) : (pathsOf path l).map (·.1) = l.map (·.key) := by
  unfold pathsOf
  rw [asDict_self h, List.map_map]
  rfl

/-- A target has one path, in whatever dictionary it stands. -/
theorem path_of_target (h : Chronicle t moment) {p : ObjectVersion → Bool}
    {kind : ObservationKind} (hkind : ∀ v, p v = true → v.kind = kind)
    {path : Option State → Option String} {v : ObjectVersion} (hv : v ∈ select t moment p) :
    (pathsOf path (select t moment p)).lookup v.key =
      (pathsOf path (select t moment fun w => w.kind = kind)).lookup v.key := by
  obtain ⟨hanswers,hp⟩ := mem_select.mp hv
  have hfull : v ∈ select t moment fun w => w.kind = kind :=
    mem_select.mpr ⟨hanswers,decide_eq_true (hkind v hp)⟩
  rw [lookup_path (select_objects h p) (fun w hw => hkind w (mem_select.mp hw).2) hv,
    lookup_path (select_objects h _) (fun w hw => of_decide_eq_true (mem_select.mp hw).2) hfull]

theorem selectsShare_kind {scope : CampaignScope} {v : ObjectVersion}
    (h : selectsShare casefold scope (said v) = true) : v.kind = .smbShare := by
  unfold selectsShare at h
  cases hk : scope.kind <;> simp only [hk, Bool.and_eq_true, decide_eq_true_eq] at h
  · exact h.1
  · exact h.1
  · cases h
  · cases h

theorem selectsResource_kind {scope : CampaignScope} {v : ObjectVersion}
    (h : selectsResource casefold scope (said v) = true) : v.kind = .ntfsResource := by
  unfold selectsResource at h
  cases hk : scope.kind <;> simp only [hk, Bool.and_eq_true, decide_eq_true_eq] at h
  · exact h.1
  · exact h.1
  · unfold isUnder at h
    rw [Bool.and_eq_true, decide_eq_true_eq] at h
    exact h.1
  · cases h

theorem sharesForScope_eq (scope : CampaignScope) :
    sharesForScope casefold t moment scope = pathsOf sharePath (shareTargets casefold t moment scope) := by
  unfold sharesForScope shareTargets selectsShare
  cases hk : scope.kind with
  | share => rfl
  | server => rfl
  | directoryTree => simp [select, sortedBy]
  | principal => simp [select, sortedBy]

theorem resourcesFound_eq (ceiling : ℕ) (scope : CampaignScope) :
    resourcesFound casefold t moment ceiling scope =
      (resourceTargets casefold t moment scope).take (ceiling+1) := by
  unfold resourcesFound resourceTargets selectsResource
  cases hk : scope.kind with
  | share => rfl
  | server => rfl
  | directoryTree => rfl
  | principal => simp [select, sortedBy]

/-- The directories of a scope with their paths, unless there are too many. -/
theorem resourcesForScope_eq (h : Chronicle t moment) (ceiling : ℕ) (scope : CampaignScope) :
    resourcesForScope casefold t moment ceiling scope =
      if ceiling < (resourceTargets casefold t moment scope).length then
        .error (.scopeTooLarge (ceiling+1))
      else .ok (pathsOf resourcePath (resourceTargets casefold t moment scope)) := by
  have hobjects : ((resourceTargets casefold t moment scope).map (·.object)).Nodup :=
    select_objects h _
  have hpath : ∀ n, pathsOf (if scope.kind = .directoryTree then treePath else resourcePath)
      ((resourceTargets casefold t moment scope).take n) =
      pathsOf resourcePath ((resourceTargets casefold t moment scope).take n) := by
    intro n
    unfold pathsOf
    rw [asDict_self (hobjects.sublist ((List.take_sublist n _).map _))]
    apply List.map_congr_left
    intro v hv
    obtain ⟨hanswers,hp⟩ := mem_select.mp (List.mem_of_mem_take hv)
    split_ifs
    · rw [treePath_spoken (h.path v hanswers (selectsResource_kind hp))]
    · rfl
  have hlength : ∀ n, (pathsOf resourcePath
      ((resourceTargets casefold t moment scope).take n)).length =
      min n (resourceTargets casefold t moment scope).length := by
    intro n
    unfold pathsOf
    rw [asDict_self (hobjects.sublist ((List.take_sublist n _).map _)), List.length_map,
      List.length_take]
  unfold resourcesForScope
  simp only [resourcesFound_eq, hpath, hlength]
  by_cases hlarge : ceiling < (resourceTargets casefold t moment scope).length
  · rw [if_pos hlarge, Nat.min_eq_left hlarge, if_pos (Nat.lt_succ_self ceiling)]
  · rw [if_neg hlarge, if_neg (by omega), List.take_of_length_le (by omega)]

/-- A scope with more targets than one campaign may read. -/
def Oversized (casefold : String → String) (t : Table) (moment : Instant) (focus : CampaignFocus)
    (ceiling : ℕ) (scope : CampaignScope) : Prop :=
  focus = .resource ∧ ceiling < (shareTargets casefold t moment scope).length+
    (resourceTargets casefold t moment scope).length

/-- What a scope is read as, when it is not refused. -/
def readFor (casefold : String → String) (t : Table) (moment : Instant) (focus : CampaignFocus)
    (ceiling : ℕ) (scope : CampaignScope) : Except GenerationError (List ObservedGrant) := do
  let onShares ← (reached casefold t moment focus .share ceiling scope).mapM
    (grantAt t moment .share)
  let onResources ← (reached casefold t moment focus .resource ceiling scope).mapM
    (grantAt t moment .resource)
  return onShares ++ onResources

theorem contained_path (h : Chronicle t moment) {p : ObjectVersion → Bool}
    {kind ace : ObservationKind} (hkind : ∀ v, p v = true → v.kind = kind)
    {path : Option State → Option String} {v : ObjectVersion}
    (hv : v ∈ containedAt t ace ((select t moment p).map (·.key)) moment) :
    (pathsOf path (select t moment p)).lookup (v.containerKey.getD "") =
      (pathsOf path (select t moment fun w => w.kind = kind)).lookup
        (v.containerKey.getD "") := by
  obtain ⟨-,hin⟩ := mem_select.mp hv
  rw [Bool.and_eq_true, Option.any_eq_true] at hin
  obtain ⟨container,hcontainer,hmem⟩ := hin.2
  obtain ⟨w,hw,rfl⟩ := List.mem_map.mp (of_decide_eq_true hmem)
  rw [hcontainer]
  exact path_of_target h hkind hw

theorem grantsOnTargets_eq (h : Chronicle t moment) (ceiling : ℕ) (scope : CampaignScope) :
    (Oversized casefold t moment .resource ceiling scope ∧
      ∃ n, grantsOnTargets casefold t moment ceiling scope = .error (.scopeTooLarge n)) ∨
    (¬ Oversized casefold t moment .resource ceiling scope ∧
      grantsOnTargets casefold t moment ceiling scope =
        readFor casefold t moment .resource ceiling scope) := by
  have hshares : ((shareTargets casefold t moment scope).map (·.object)).Nodup :=
    select_objects h _
  have hresources : ((resourceTargets casefold t moment scope).map (·.object)).Nodup :=
    select_objects h _
  have hlength : ∀ {path : Option State → Option String} {l : List ObjectVersion},
      (l.map (·.object)).Nodup → (pathsOf path l).length = l.length := by
    intro path l hl
    rw [← List.length_map (·.1), pathsOf_fst hl, List.length_map]
  unfold grantsOnTargets
  rw [sharesForScope_eq, resourcesForScope_eq h]
  by_cases hlarge : ceiling < (resourceTargets casefold t moment scope).length
  · left
    rw [if_pos hlarge]
    exact ⟨⟨rfl,by omega⟩,_,rfl⟩
  · rw [if_neg hlarge]
    by_cases hboth : ceiling < (shareTargets casefold t moment scope).length+
        (resourceTargets casefold t moment scope).length
    · left
      refine ⟨⟨rfl,hboth⟩,(shareTargets casefold t moment scope).length+
        (resourceTargets casefold t moment scope).length,?_⟩
      simp only [bind, Except.bind, hlength hshares, hlength hresources, if_pos hboth]
      rfl
    · right
      refine ⟨fun hover => hboth hover.2,?_⟩
      simp only [bind, Except.bind, hlength hshares, hlength hresources, if_neg hboth]
      rw [pathsOf_fst hshares, pathsOf_fst hresources]
      unfold readFor reached entriesOf
      rw [grants_same .share, grants_same .resource]
      · rfl
      · intro v hv
        exact contained_path h (fun _ => selectsResource_kind) (List.mem_of_mem_take hv)
      · intro v hv
        exact contained_path h (fun _ => selectsShare_kind) (List.mem_of_mem_take hv)

theorem mem_entriesOf {focus : CampaignFocus} {kind : ReviewTargetKind} {scope : CampaignScope}
    {v : ObjectVersion} (hv : v ∈ entriesOf casefold t moment focus kind scope) :
    v ∈ answering t moment ∧ v.kind = aceKind kind := by
  cases focus with
  | principal =>
    obtain ⟨hanswers,hp⟩ := mem_select.mp hv
    rw [Bool.and_eq_true, decide_eq_true_eq] at hp
    exact ⟨hanswers,hp.1⟩
  | resource =>
    cases kind with
    | share =>
      obtain ⟨hanswers,hp⟩ := mem_select.mp hv
      rw [Bool.and_eq_true, decide_eq_true_eq] at hp
      exact ⟨hanswers,hp.1⟩
    | resource =>
      obtain ⟨hanswers,hp⟩ := mem_select.mp hv
      rw [Bool.and_eq_true, decide_eq_true_eq] at hp
      exact ⟨hanswers,hp.1⟩

theorem reached_selected {focus : CampaignFocus} {kind : ReviewTargetKind} {ceiling : ℕ}
    {scope : CampaignScope} {v : ObjectVersion}
    (hv : v ∈ reached casefold t moment focus kind ceiling scope) :
    v ∈ entriesOf casefold t moment focus kind scope := by
  cases focus with
  | principal => exact hv
  | resource => exact List.mem_of_mem_take hv

/-- The dictionary of the containers of some entries says of each of them what the whole
record does. -/
theorem container_path (h : Chronicle t moment) {kind : ObservationKind}
    {path : Option State → Option String} {l : List ObjectVersion} {v : ObjectVersion}
    (hv : v ∈ l) :
    (pathsOf path (versionsAt t kind (l.filterMap fun w => w.containerKey.filter (· ≠ ""))
      moment)).lookup (v.containerKey.getD "") =
    (pathsOf path (select t moment fun w => w.kind = kind)).lookup (v.containerKey.getD "") := by
  by_cases hfound : ∃ w ∈ select t moment (fun w => w.kind = kind), w.key = v.containerKey.getD ""
  · obtain ⟨w,hw,hkey⟩ := hfound
    obtain ⟨hanswers,hkind⟩ := mem_select.mp hw
    have hne := h.keyed w hanswers
    have hlisted : w.key ∈ l.filterMap fun w => w.containerKey.filter (· ≠ "") := by
      apply List.mem_filterMap.mpr
      refine ⟨v,hv,?_⟩
      cases hcontainer : v.containerKey with
      | none =>
        rw [hcontainer] at hkey
        exact absurd hkey hne
      | some container =>
        rw [hcontainer, Option.getD_some] at hkey
        rw [← hkey]
        simp [hne]
    have hread : w ∈ versionsAt t kind (l.filterMap fun w => w.containerKey.filter (· ≠ ""))
        moment := by
      apply mem_select.mpr
      exact ⟨hanswers,by rw [hkind, decide_eq_true hlisted]; rfl⟩
    rw [← hkey]
    refine path_of_target h ?_ hread
    intro u hu
    rw [Bool.and_eq_true, decide_eq_true_eq] at hu
    exact hu.1
  · have hno : ∀ w ∈ select t moment (fun w => w.kind = kind), w.key ≠ v.containerKey.getD "" :=
      fun w hw hkey => hfound ⟨w,hw,hkey⟩
    rw [lookup_no_path (select_objects h _) hno]
    apply lookup_no_path (select_objects h _)
    intro w hw
    obtain ⟨hanswers,hp⟩ := mem_select.mp hw
    rw [Bool.and_eq_true] at hp
    exact hno w (mem_select.mpr ⟨hanswers,hp.1⟩)

theorem grantsNamingPrincipal_eq (h : Chronicle t moment) (ceiling : ℕ) (scope : CampaignScope) :
    grantsNamingPrincipal t moment scope = readFor casefold t moment .principal ceiling scope := by
  unfold grantsNamingPrincipal readFor reached entriesOf aceKind
  dsimp only
  rw [grants_same .share, grants_same .resource]
  · intro v hv
    exact container_path h hv
  · intro v hv
    exact container_path h hv

/-- A scope is refused when it has too many targets and is read otherwise. -/
theorem grantsForScope_eq (h : Chronicle t moment) (focus : CampaignFocus) (ceiling : ℕ)
    (scope : CampaignScope) :
    (Oversized casefold t moment focus ceiling scope ∧
      ∃ n, grantsForScope casefold t moment focus ceiling scope = .error (.scopeTooLarge n)) ∨
    (¬ Oversized casefold t moment focus ceiling scope ∧
      grantsForScope casefold t moment focus ceiling scope =
        readFor casefold t moment focus ceiling scope) := by
  cases focus with
  | principal =>
    right
    refine ⟨fun hover => ?_,grantsNamingPrincipal_eq h ceiling scope⟩
    cases hover.1
  | resource => exact grantsOnTargets_eq h ceiling scope

/-- What an entry makes. -/
theorem grantAt_ok (h : Chronicle t moment) {kind : ReviewTargetKind} {v : ObjectVersion}
    (hv : v ∈ answering t moment) (hkind : v.kind = aceKind kind) :
    ∃ g, grantAt t moment kind v = .ok g := by
  obtain ⟨target,e,he,-⟩ := h.entry v hv kind hkind
  exact ⟨_,bind_ok.mpr ⟨(target,e),he,rfl⟩⟩

theorem grantAt_parts (h : Chronicle t moment) {kind : ReviewTargetKind} {v : ObjectVersion}
    (hv : v ∈ answering t moment) (hkind : v.kind = aceKind kind) {g : ObservedGrant}
    (hg : grantAt t moment kind v = .ok g) :
    g.targetKind = kind ∧ g.evidence.entry.targetKind = kind ∧
      g.evidence.entry.aceKey = v.key := by
  obtain ⟨target,e,he,hkey,htarget,-⟩ := h.entry v hv kind hkind
  obtain ⟨⟨target',e'⟩,he',hmade⟩ := bind_ok.mp hg
  rw [he] at he'
  obtain ⟨-,rfl⟩ := Prod.mk.inj (Except.ok.inj he')
  rw [← Except.ok.inj hmade]
  exact ⟨rfl,htarget,hkey⟩

/-- An entry that some scope reaches, and what it makes. -/
def Reaches (casefold : String → String) (t : Table) (moment : Instant) (focus : CampaignFocus)
    (ceiling : ℕ) (scopes : List CampaignScope) (g : ObservedGrant) : Prop :=
  ∃ scope ∈ scopes, ∃ kind, ∃ v ∈ reached casefold t moment focus kind ceiling scope,
    grantAt t moment kind v = .ok g

/-- An entry that some scope selects, and what it makes. -/
def Selects (casefold : String → String) (t : Table) (moment : Instant) (focus : CampaignFocus)
    (scopes : List CampaignScope) (g : ObservedGrant) : Prop :=
  ∃ scope ∈ scopes, ∃ kind, ∃ v ∈ entriesOf casefold t moment focus kind scope,
    grantAt t moment kind v = .ok g

theorem Reaches.selects {focus : CampaignFocus} {ceiling : ℕ} {scopes : List CampaignScope}
    {g : ObservedGrant} (h : Reaches casefold t moment focus ceiling scopes g) :
    Selects casefold t moment focus scopes g := by
  obtain ⟨scope,hscope,kind,v,hv,hg⟩ := h
  exact ⟨scope,hscope,kind,v,reached_selected hv,hg⟩

/-- Grants of one key are one grant. -/
theorem selects_keyed (h : Chronicle t moment) {focus : CampaignFocus}
    {scopes scopes' : List CampaignScope} {g o : ObservedGrant}
    (hg : Selects casefold t moment focus scopes g) (ho : Selects casefold t moment focus scopes' o)
    (hkind : g.evidence.entry.targetKind = o.evidence.entry.targetKind)
    (hkey : g.evidence.entry.aceKey = o.evidence.entry.aceKey) : g = o := by
  obtain ⟨scope,-,kind,v,hv,hgv⟩ := hg
  obtain ⟨scope',-,kind',w,hw,how⟩ := ho
  obtain ⟨hva,hvk⟩ := mem_entriesOf hv
  obtain ⟨hwa,hwk⟩ := mem_entriesOf hw
  obtain ⟨-,hgkind,hgkey⟩ := grantAt_parts h hva hvk hgv
  obtain ⟨-,hokind,hokey⟩ := grantAt_parts h hwa hwk how
  have hsame : kind' = kind := hokind.symm.trans (hkind.symm.trans hgkind)
  subst hsame
  have hobj : v.object = w.object :=
    Prod.ext (hvk.trans hwk.symm) (hgkey.symm.trans (hkey.trans hokey))
  rw [h.one v hva w hwa hobj, how] at hgv
  exact (Except.ok.inj hgv).symm

theorem readFor_ok (casefold : String → String) (h : Chronicle t moment) (focus : CampaignFocus) (ceiling : ℕ)
    (scope : CampaignScope) :
    ∃ gs, readFor casefold t moment focus ceiling scope = .ok gs ∧
      ∀ g, g ∈ gs ↔ Reaches casefold t moment focus ceiling [scope] g := by
  have hmade : ∀ kind, ∀ v ∈ reached casefold t moment focus kind ceiling scope,
      ∃ g, grantAt t moment kind v = .ok g := by
    intro kind v hv
    obtain ⟨hanswers,hkind⟩ := mem_entriesOf (reached_selected hv)
    exact grantAt_ok h hanswers hkind
  obtain ⟨onShares,hshares,hinShares⟩ := mapM_succeeds (hmade .share)
  obtain ⟨onResources,hresources,hinResources⟩ := mapM_succeeds (hmade .resource)
  refine ⟨onShares ++ onResources,?_,?_⟩
  · unfold readFor
    rw [hshares, hresources]
    rfl
  · intro g
    rw [List.mem_append, hinShares, hinResources]
    constructor
    · rintro (⟨v,hv,hg⟩ | ⟨v,hv,hg⟩)
      · exact ⟨scope,List.mem_cons_self,.share,v,hv,hg⟩
      · exact ⟨scope,List.mem_cons_self,.resource,v,hv,hg⟩
    · rintro ⟨other,hother,kind,v,hv,hg⟩
      rw [List.mem_singleton.mp hother] at hv
      cases kind with
      | share => exact .inl ⟨v,hv,hg⟩
      | resource => exact .inr ⟨v,hv,hg⟩

theorem mem_firstByKey {α κ : Type} [DecidableEq κ] {key : α → κ} {l : List α}
    (hkeys : ∀ a ∈ l, ∀ b ∈ l, key a = key b → a = b) {a : α} :
    a ∈ firstByKey key l ↔ a ∈ l := by
  induction l with
  | nil => exact Iff.rfl
  | cons b l ih =>
    have hrest := ih fun c hc d hd => hkeys c (List.mem_cons_of_mem b hc) d
      (List.mem_cons_of_mem b hd)
    rw [firstByKey, List.mem_cons, List.mem_cons, List.mem_filter, hrest]
    constructor
    · rintro (hab | ⟨ha,-⟩)
      · exact .inl hab
      · exact .inr ha
    · rintro (hab | ha)
      · exact .inl hab
      · by_cases hsame : key a = key b
        · exact .inl (hkeys a (List.mem_cons_of_mem b ha) b List.mem_cons_self hsame)
        · exact .inr ⟨ha,decide_eq_true hsame⟩

theorem kind_value_injective : Function.Injective ReviewTargetKind.value := by
  intro a b h
  cases a <;> cases b <;> first | rfl | (revert h; decide)

/-- The key of a grant that some entry makes. -/
theorem selects_grantKey (h : Chronicle t moment) {focus : CampaignFocus}
    {scopes scopes' : List CampaignScope} {g o : ObservedGrant}
    (hg : Selects casefold t moment focus scopes g) (ho : Selects casefold t moment focus scopes' o)
    (hkey : grantKey g.grant = grantKey o.grant) : g = o := by
  have htarget : ∀ {scopes : List CampaignScope} {g : ObservedGrant},
      Selects casefold t moment focus scopes g → g.evidence.entry.targetKind = g.targetKind := by
    rintro scopes g ⟨scope,-,kind,v,hv,hgv⟩
    obtain ⟨hanswers,hkind⟩ := mem_entriesOf hv
    obtain ⟨hone,hother,-⟩ := grantAt_parts h hanswers hkind hgv
    rw [hone, hother]
  apply selects_keyed h hg ho
  · rw [htarget hg, htarget ho]
    exact kind_value_injective (congrArg (fun k : String ×ₗ String => (ofLex k).1) hkey)
  · exact congrArg (fun k : String ×ₗ String => (ofLex k).2) hkey

theorem grantsAt_refused (h : Chronicle t moment) {focus : CampaignFocus} {ceiling : ℕ}
    {scopes : List CampaignScope}
    (hover : ∃ scope ∈ scopes, Oversized casefold t moment focus ceiling scope) :
    ∃ n, grantsAt casefold t focus scopes moment ceiling = .error (.scopeTooLarge n) := by
  have hread : ∃ n, scopes.mapM (grantsForScope casefold t moment focus ceiling) =
      .error (.scopeTooLarge n) := by
    induction scopes with
    | nil =>
      obtain ⟨scope,hscope,-⟩ := hover
      cases hscope
    | cons scope scopes ih =>
      rw [List.mapM_cons]
      rcases grantsForScope_eq h focus ceiling scope with ⟨-,n,hn⟩ | ⟨hfits,hone⟩
      · rw [hn]
        exact ⟨n,rfl⟩
      · obtain ⟨gs,hgs,-⟩ := readFor_ok casefold h focus ceiling scope
        obtain ⟨other,hother,hlarge⟩ := hover
        rcases List.mem_cons.mp hother with rfl | hother
        · exact absurd hlarge hfits
        · obtain ⟨n,hn⟩ := ih ⟨other,hother,hlarge⟩
          rw [hone, hgs, hn]
          exact ⟨n,rfl⟩
  obtain ⟨n,hn⟩ := hread
  refine ⟨n,?_⟩
  unfold grantsAt
  rw [hn]
  rfl

/-- What is reached, each once and in the order of the keys. -/
theorem grantsAt_ok (h : Chronicle t moment) {focus : CampaignFocus} {ceiling : ℕ}
    {scopes : List CampaignScope}
    (hfits : ∀ scope ∈ scopes, ¬ Oversized casefold t moment focus ceiling scope) :
    ∃ gs, grantsAt casefold t focus scopes moment ceiling = .ok gs ∧
      (∀ g, g ∈ gs ↔ Reaches casefold t moment focus ceiling scopes g) ∧
      gs.Pairwise fun g o => grantKey g.grant < grantKey o.grant := by
  have hread : ∃ found, scopes.mapM (grantsForScope casefold t moment focus ceiling) = .ok found ∧
      ∀ gs, gs ∈ found ↔ ∃ scope ∈ scopes,
        grantsForScope casefold t moment focus ceiling scope = .ok gs := by
    apply mapM_succeeds
    intro scope hscope
    rcases grantsForScope_eq h focus ceiling scope with ⟨hover,-⟩ | ⟨-,hone⟩
    · exact absurd hover (hfits scope hscope)
    · obtain ⟨gs,hgs,-⟩ := readFor_ok casefold h focus ceiling scope
      exact ⟨gs,hone.trans hgs⟩
  obtain ⟨found,hfound,hin⟩ := hread
  have hflat : ∀ g, g ∈ found.flatten ↔ Reaches casefold t moment focus ceiling scopes g := by
    intro g
    rw [List.mem_flatten]
    constructor
    · rintro ⟨gs,hgs,hg⟩
      obtain ⟨scope,hscope,hone⟩ := (hin gs).mp hgs
      obtain ⟨os,hos,hmem⟩ := readFor_ok casefold h focus ceiling scope
      rcases grantsForScope_eq h focus ceiling scope with ⟨-,n,hn⟩ | ⟨-,hread⟩
      · rw [hn] at hone
        cases hone
      · rw [hread, hos] at hone
        rw [← Except.ok.inj hone] at hg
        obtain ⟨other,hother,hreach⟩ := (hmem g).mp hg
        rw [List.mem_singleton.mp hother] at hreach
        exact ⟨scope,hscope,hreach⟩
    · rintro ⟨scope,hscope,hreach⟩
      obtain ⟨gs,hgs,hmem⟩ := readFor_ok casefold h focus ceiling scope
      rcases grantsForScope_eq h focus ceiling scope with ⟨hover,-⟩ | ⟨-,hread⟩
      · exact absurd hover (hfits scope hscope)
      · exact ⟨gs,(hin gs).mpr ⟨scope,hscope,hread.trans hgs⟩,
          (hmem g).mpr ⟨scope,List.mem_cons_self,hreach⟩⟩
  have hkeys : ∀ g ∈ found.flatten, ∀ o ∈ found.flatten,
      grantKey g.grant = grantKey o.grant → g = o := by
    intro g hg o ho hkey
    exact selects_grantKey h ((hflat g).mp hg).selects ((hflat o).mp ho).selects hkey
  have hkeyed := firstByKey_keyed (fun g : ObservedGrant => grantKey g.grant) found.flatten
  refine ⟨sortedBy (fun g => grantKey g.grant)
    (firstByKey (fun g => grantKey g.grant) found.flatten),?_,?_,sortedBy_strict hkeyed⟩
  · unfold grantsAt
    rw [hfound]
    rfl
  · intro g
    rw [mem_sortedBy, mem_firstByKey hkeys, hflat]

end Reading

end Adg.CampaignReading
