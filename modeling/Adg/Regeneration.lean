import Adg.ReviewGeneration

/-!
# Generating again

What a campaign generates is a function of the versions that cover its baseline
and lie in its scopes. How long these were watched, and everything else in the
record, has no part in the keys and the digests of its items.
-/

set_option autoImplicit false

namespace Adg.Regeneration
open Adg.Observation Adg.ObjectVersions Adg.VersionTable Adg.VersionReads Adg.SortedLists
open Adg.ReviewGeneration

/-! ### Computations with one image -/

section Images
variable {ε α β γ : Type}

/-- Two computations that agree after their values are reduced. -/
def Agree (f : α → γ) (g : β → γ) (x : Except ε α) (y : Except ε β) : Prop := x.map f = y.map g

theorem Agree.bind {δ : Type} {f : α → γ} {x y : Except ε α} {k l : α → Except ε β} {g : β → δ}
    (h : Agree f f x y) (hk : ∀ a b, f a = f b → Agree g g (k a) (l b)) :
    Agree g g (x >>= k) (y >>= l) := by
  cases x with
  | error e =>
    cases y with
    | error e' =>
      obtain rfl : e = e' := Except.error.inj h
      rfl
    | ok b => cases h
  | ok a =>
    cases y with
    | error e' => cases h
    | ok b => exact hk a b (Except.ok.inj h)

/-- A list of computations is reduced value by value. -/
theorem mapM_map (f : α → Except ε β) (g : β → γ) (l : List α) :
    (l.mapM f).map (List.map g) = l.mapM fun a => (f a).map g := by
  induction l with
  | nil => rfl
  | cons a l ih =>
    rw [List.mapM_cons, List.mapM_cons, ← ih]
    cases f a with
    | error e => rfl
    | ok b => cases l.mapM f <;> rfl

theorem mapM_of_map (f : β → Except ε γ) (g : α → β) (l : List α) :
    (l.map g).mapM f = l.mapM fun a => f (g a) := by
  induction l with
  | nil => rfl
  | cons a l ih => rw [List.map_cons, List.mapM_cons, List.mapM_cons, ih]

end Images

/-! ### What a campaign reads -/

section Reads
variable (casefold : String → String)

/-- The shares a scope selects. -/
def selectsShare (scope : CampaignScope) (s : Said) : Bool :=
  match scope.kind with
  | .share => s.kind = .smbShare && s.key ∈ [casefold scope.key]
  | .server => s.kind = .smbShare && s.containerKey.any (· ∈ [casefold scope.key])
  | .directoryTree | .principal => false

/-- The directories a scope selects. -/
def selectsResource (scope : CampaignScope) (s : Said) : Bool :=
  match scope.kind with
  | .directoryTree => isUnder (casefold scope.key) s.kind s.key
  | .share => s.kind = .ntfsResource && s.containerKey.any (· ∈ [casefold scope.key])
  | .server => s.kind = .ntfsResource && s.relatedKey.any (· ∈ [casefold scope.key])
  | .principal => false

/-- The entries on some targets. -/
def entryOn (kind : ObservationKind) (targets : List String) (s : Said) : Bool :=
  s.kind = kind && s.containerKey.any (· ∈ targets)

/-- The entries that name a principal. -/
def entryNaming (kind : ObservationKind) (principal : String) (s : Said) : Bool :=
  s.kind = kind && s.relatedKey.any (· ∈ [principal])

variable (t : Table) (moment : Instant)

/-- The directories a scope finds. -/
def resourceKeys (ceiling : ℕ) (scope : CampaignScope) : List String :=
  (pathsOf (fun _ => none) (resourcesFound casefold t moment ceiling scope)).map (·.1)

/-- What a scope has a campaign read, given what its targets are. -/
def scopeReads (focus : CampaignFocus) (ceiling : ℕ) (scope : CampaignScope) (s : Said) : Bool :=
  match focus with
  | .principal => entryNaming .smbAce scope.key s || entryNaming .ntfsAce scope.key s
  | .resource => selectsShare casefold scope s || selectsResource casefold scope s ||
      entryOn .smbAce ((sharesForScope casefold t moment scope).map (·.1)) s ||
      entryOn .ntfsAce (resourceKeys casefold t moment ceiling scope) s

/-- What a campaign reads. -/
def reads (plan : CampaignPlan) (s : Said) : Bool :=
  plan.scopes.any fun scope =>
    scopeReads casefold t plan.baselineAt plan.focus maxScopeTargets scope s

/-- What is read is decided by where a version belongs. -/
theorem reads_congr {plan : CampaignPlan} {s s' : Said} (hkind : s.kind = s'.kind)
    (hkey : s.key = s'.key) (hcontainer : s.containerKey = s'.containerKey)
    (hrelated : s.relatedKey = s'.relatedKey) :
    reads casefold t plan s = reads casefold t plan s' := by
  cases s
  cases s'
  dsimp only at hkind hkey hcontainer hrelated
  subst hkind hkey hcontainer hrelated
  rfl

end Reads

section SameScope
variable {casefold : String → String} {t t' : Table} {moment : Instant} {scope : CampaignScope}
  {ceiling : ℕ}

theorem pathsOf_said {path : Option State → Option String} {l l' : List ObjectVersion}
    (h : l'.map said = l.map said) : pathsOf path l' = pathsOf path l := by
  have hpaths : ∀ l : List ObjectVersion,
      pathsOf path l = ((asDict l).map said).map fun s => (s.key,path s.state) := fun l => by
    rw [List.map_map]
    rfl
  rw [hpaths, hpaths, asDict_said h]

theorem pathsOf_keys (path path' : Option State → Option String) (l : List ObjectVersion) :
    (pathsOf path l).map (·.1) = (pathsOf path' l).map (·.1) := by
  unfold pathsOf
  rw [List.map_map, List.map_map]
  rfl

theorem shares_alike (h : AnswerAlike t t' moment (selectsShare casefold scope)) :
    sharesForScope casefold t' moment scope = sharesForScope casefold t moment scope := by
  have hread := select_said h
  unfold sharesForScope
  refine pathsOf_said ?_
  unfold selectsShare at hread
  cases hk : scope.kind <;> simp only [hk] at hread
  · exact hread
  · exact hread
  · rfl
  · rfl

theorem resources_alike (h : AnswerAlike t t' moment (selectsResource casefold scope)) :
    (resourcesFound casefold t' moment ceiling scope).map said =
      (resourcesFound casefold t moment ceiling scope).map said := by
  have hread := select_said h
  unfold resourcesFound
  unfold selectsResource at hread
  cases hk : scope.kind <;> simp only [hk] at hread ⊢
  · rw [List.map_take, List.map_take]
    exact congrArg (List.take _) hread
  · rw [List.map_take, List.map_take]
    exact congrArg (List.take _) hread
  · rw [List.map_take, List.map_take]
    exact congrArg (List.take _) hread

/-- The grant a version makes. -/
def saidGrant (targetKind : ReviewTargetKind) (s : Said) : Except GenerationError Grant := do
  let (targetKey,entry) ← entryOf targetKind s.versionId s.state
  return { targetKind := targetKind
           targetKey := targetKey
           entry := entry }

theorem observedGrant_said (targetKind : ReviewTargetKind) (paths : List (String × Option String))
    (v : ObjectVersion) : (observedGrant targetKind moment paths v).map (·.grant) =
      saidGrant targetKind (said v) := by
  unfold observedGrant saidGrant said
  dsimp only
  cases entryOf targetKind v.versionId v.state <;> rfl

theorem grants_said {targetKind : ReviewTargetKind} {paths paths' : List (String × Option String)}
    {l l' : List ObjectVersion} (h : l'.map said = l.map said) :
    Agree (List.map ObservedGrant.grant) (List.map ObservedGrant.grant)
      (l'.mapM (observedGrant targetKind moment paths'))
      (l.mapM (observedGrant targetKind moment paths)) := by
  have hsaid : ∀ (l : List ObjectVersion) (paths : List (String × Option String)),
      (l.mapM (observedGrant targetKind moment paths)).map (List.map ObservedGrant.grant) =
        (l.map said).mapM (saidGrant targetKind) := by
    intro l paths
    rw [mapM_map, mapM_of_map]
    exact congrArg (l.mapM ·) (funext fun v => observedGrant_said targetKind paths v)
  unfold Agree
  rw [hsaid, hsaid, h]

end SameScope

/-! ### The same grants -/

section SameGrants
variable {casefold : String → String} {t t' : Table} {moment : Instant} {scope : CampaignScope}
  {ceiling : ℕ}

/-- Tables that answer alike in a scope give it the same grants. -/
theorem grantsOnTargets_alike (h : AnswerAlike t t' moment
      (scopeReads casefold t moment .resource ceiling scope)) :
    Agree (List.map ObservedGrant.grant) (List.map ObservedGrant.grant)
      (grantsOnTargets casefold t' moment ceiling scope)
      (grantsOnTargets casefold t moment ceiling scope) := by
  have hshares : sharesForScope casefold t' moment scope =
      sharesForScope casefold t moment scope :=
    shares_alike (h.mono fun s hs => by simp [scopeReads, hs])
  have hfound : (resourcesFound casefold t' moment ceiling scope).map said =
      (resourcesFound casefold t moment ceiling scope).map said :=
    resources_alike (h.mono fun s hs => by simp [scopeReads, hs])
  have hresources : resourcesForScope casefold t' moment ceiling scope =
      resourcesForScope casefold t moment ceiling scope := by
    unfold resourcesForScope
    simp only [pathsOf_said hfound]
  have hentries : ∀ kind targets, (∀ s, entryOn kind targets s = true →
      scopeReads casefold t moment .resource ceiling scope s = true) →
      ((containedAt t' kind targets moment).take (ceiling*8)).map said =
        ((containedAt t kind targets moment).take (ceiling*8)).map said := by
    intro kind targets hin
    rw [List.map_take, List.map_take]
    exact congrArg (List.take _) (select_said (h.mono hin))
  unfold grantsOnTargets
  rw [hshares, hresources]
  cases hr : resourcesForScope casefold t moment ceiling scope with
  | error e => rfl
  | ok resources =>
    have hkeys : resources.map (·.1) = resourceKeys casefold t moment ceiling scope := by
      unfold resourcesForScope at hr
      dsimp only at hr
      split_ifs at hr <;> cases hr <;> exact pathsOf_keys _ _ _
    by_cases hlarge : ceiling < (sharesForScope casefold t moment scope).length+resources.length
    · simp only [bind, Except.bind, if_pos hlarge]
      rfl
    · simp only [bind, Except.bind, if_neg hlarge]
      refine Agree.bind (grants_said (hentries _ _ fun s hs => ?_)) fun a b hab => ?_
      · simp [scopeReads, hs]
      · refine Agree.bind (grants_said (hentries _ _ fun s hs => ?_)) fun c d hcd => ?_
        · rw [hkeys] at hs
          simp [scopeReads, hs]
        · unfold Agree
          simp [pure, Except.pure, Except.map, hab, hcd]

theorem grantsNamingPrincipal_alike (h : AnswerAlike t t' moment
      (scopeReads casefold t moment .principal ceiling scope)) :
    Agree (List.map ObservedGrant.grant) (List.map ObservedGrant.grant)
      (grantsNamingPrincipal t' moment scope) (grantsNamingPrincipal t moment scope) := by
  have hentries : ∀ kind, (∀ s, entryNaming kind scope.key s = true →
      scopeReads casefold t moment .principal ceiling scope s = true) →
      (relatedAt t' kind [scope.key] moment).map said =
        (relatedAt t kind [scope.key] moment).map said :=
    fun kind hin => select_said (h.mono hin)
  unfold grantsNamingPrincipal
  refine Agree.bind (grants_said (hentries _ fun s hs => ?_)) fun a b hab => ?_
  · simp [scopeReads, hs]
  · refine Agree.bind (grants_said (hentries _ fun s hs => ?_)) fun c d hcd => ?_
    · simp [scopeReads, hs]
    · unfold Agree
      simp [pure, Except.pure, Except.map, hab, hcd]

theorem grantsForScope_alike {focus : CampaignFocus}
    (h : AnswerAlike t t' moment (scopeReads casefold t moment focus ceiling scope)) :
    Agree (List.map ObservedGrant.grant) (List.map ObservedGrant.grant)
      (grantsForScope casefold t' moment focus ceiling scope)
      (grantsForScope casefold t moment focus ceiling scope) := by
  unfold grantsForScope
  cases focus with
  | principal => exact grantsNamingPrincipal_alike h
  | resource => exact grantsOnTargets_alike h

/-- Scope by scope. -/
theorem scopes_alike {focus : CampaignFocus} {scopes : List CampaignScope}
    (h : ∀ scope ∈ scopes,
      AnswerAlike t t' moment (scopeReads casefold t moment focus ceiling scope)) :
    Agree (fun l : List (List ObservedGrant) => l.flatten.map (·.grant))
      (fun l : List (List ObservedGrant) => l.flatten.map (·.grant))
      (scopes.mapM (grantsForScope casefold t' moment focus ceiling))
      (scopes.mapM (grantsForScope casefold t moment focus ceiling)) := by
  induction scopes with
  | nil => rfl
  | cons scope scopes ih =>
    rw [List.mapM_cons, List.mapM_cons]
    have hhead := grantsForScope_alike (h scope List.mem_cons_self)
    have htail := ih fun s hs => h s (List.mem_cons_of_mem scope hs)
    refine Agree.bind hhead fun a b hab => Agree.bind htail fun c d hcd => ?_
    unfold Agree
    simp only [pure, Except.pure, Except.map, List.flatten_cons, List.map_append]
    rw [hab, hcd]

theorem firstByKey_map {α β κ : Type} [DecidableEq κ] {f : α → β} {key : α → κ} {k : β → κ}
    (h : ∀ a, k (f a) = key a) (l : List α) :
    (firstByKey key l).map f = firstByKey k (l.map f) := by
  induction l with
  | nil => rfl
  | cons a l ih =>
    rw [List.map_cons, firstByKey, firstByKey, List.map_cons, ← ih, List.filter_map, h]
    refine congrArg (f a :: ·) (congrArg (List.map f) (List.filter_congr fun b _ => ?_))
    simp only [Function.comp, h]

/-- The grants of all scopes, each once and in order. -/
theorem grantsAt_alike {focus : CampaignFocus} {scopes : List CampaignScope}
    (h : ∀ scope ∈ scopes,
      AnswerAlike t t' moment (scopeReads casefold t moment focus ceiling scope)) :
    Agree (List.map ObservedGrant.grant) (List.map ObservedGrant.grant)
      (grantsAt casefold t' focus scopes moment ceiling)
      (grantsAt casefold t focus scopes moment ceiling) := by
  refine Agree.bind (scopes_alike h) fun a b hab => ?_
  have hone : ∀ l : List ObservedGrant,
      (sortedBy (fun g => grantKey g.grant) (firstByKey (fun g => grantKey g.grant) l)).map
          ObservedGrant.grant =
        sortedBy grantKey (firstByKey grantKey (l.map ObservedGrant.grant)) := by
    intro l
    rw [sortedBy_map (k := grantKey) _ (fun _ => rfl),
      firstByKey_map (k := grantKey) (fun _ => rfl)]
  unfold Agree
  simp only [pure, Except.pure, Except.map]
  rw [hone, hone, hab]

end SameGrants

/-! ### The same items -/

section SameItems
variable {sha256 : String → String} {focus : CampaignFocus} {options : GenerationOptions}
  {names names' : List (String × Option String)} {grants grants' : List ObservedGrant}

/-- What the keys and the digests of the items are taken from. -/
def itemPrints (sha256 : String → String) (grants : List Grant) : List (NaturalKey × String) :=
  (naturalKeys grants).filterMap fun key =>
    let members := grants.filter fun g => itemNaturalKey g = key
    members.head?.map fun first =>
      (itemNaturalKey first,evidenceDigest sha256 (sortedBy (·.aceKey) (members.map (·.entry))))

theorem fingerprints_buildItems (names : List (String × Option String))
    (grants : List ObservedGrant) :
    fingerprints (buildItems sha256 focus names grants) =
      itemPrints sha256 (grants.map (·.grant)) := by
  unfold fingerprints buildItems itemPrints
  rw [List.map_filterMap]
  refine List.filterMap_congr fun key _ => ?_
  have hmembers : (grants.map (·.grant)).filter (fun g => itemNaturalKey g = key) =
      (grants.filter fun g => itemNaturalKey g.grant = key).map (·.grant) := by
    rw [List.filter_map]
    rfl
  have hsorted : ∀ members : List ObservedGrant,
      (sortedBy (·.entry.aceKey) (members.map (·.evidence))).map (·.entry) =
        sortedBy (·.aceKey) ((members.map (·.grant)).map (·.entry)) := by
    intro members
    rw [sortedBy_map (f := GrantEvidence.entry) (k := ReviewedEntry.aceKey) _ (fun _ => rfl),
      List.map_map, List.map_map]
    rfl
  simp only [hmembers, ← hsorted, List.head?_map, Option.map_map]
  rfl

/-- What is reproduced of a generation: its items by key and digest, and its digest. -/
def prints (r : GenerationResult) : List (NaturalKey × String) × String :=
  (fingerprints r.items,r.digest)

theorem generateItems_alike (h : grants'.map (·.grant) = grants.map (·.grant)) (ceiling : ℕ) :
    Agree prints prints (generateItems sha256 focus options names' grants' ceiling)
      (generateItems sha256 focus options names grants ceiling) := by
  have hincluded : ∀ grants : List ObservedGrant, (included options grants).map (·.grant) =
      (grants.map (·.grant)).filter fun g => (exclusionReason options g.entry).isNone := by
    intro grants
    unfold included
    rw [List.filter_map]
    rfl
  have hsame : (included options grants').map (·.grant) =
      (included options grants).map (·.grant) := by
    rw [hincluded, hincluded, h]
  unfold Agree generateItems
  dsimp only
  rw [hsame]
  split_ifs
  · rfl
  · simp only [Except.map, prints, fingerprints_buildItems, hsame]

end SameItems

/-- A table that answers alike at the baseline, where the campaign reads,
generates the same items. -/
theorem generate_alike {casefold sha256 : String → String} {t t' : Table} {plan : CampaignPlan}
    (h : AnswerAlike t t' plan.baselineAt (reads casefold t plan)) :
    Agree prints prints (generateFromBaseline casefold sha256 t' plan)
      (generateFromBaseline casefold sha256 t plan) := by
  have hscope : ∀ scope ∈ plan.scopes, AnswerAlike t t' plan.baselineAt
      (scopeReads casefold t plan.baselineAt plan.focus maxScopeTargets scope) :=
    fun scope hs => h.mono fun s hr => List.any_eq_true.mpr ⟨scope,hs,hr⟩
  unfold generateFromBaseline
  exact Agree.bind (grantsAt_alike hscope) fun a b hab => generateItems_alike hab _

end Adg.Regeneration
