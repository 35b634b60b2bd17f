import Adg.AlertPasses

/-!
# One event for each watch

A pass reads every change once for each watch whose scope selects it, and
matches every copy with all the watches by their folded keys. So a watch is told
of a change once where its stored key is the folded key of the object its scope
resolves to, and no other watch selects the change.
-/

set_option autoImplicit false

namespace Adg.WatchedChanges
open Adg.Observation Adg.ObjectVersions Adg.VersionTable Adg.SortedLists Adg.ChangeRules
open Adg.ChangeClassification Adg.ChangeScopes Adg.ChangeReads Adg.ChangeFeed Adg.AlertModel
open Adg.AlertDetection Adg.AlertRecords Adg.AlertPasses Adg.NamedHistories
open Adg.Fallible (bind_ok map_ok mapError_ok mem_flatten_mapM mapM_forall₂ toOption_some)

/-! ### What the claim says of a pass -/

section Statement
variable {p : Platform}

/-- The trigger a change of some kind is told under. -/
def triggerFor (kind : ObservationKind) : Option AlertTrigger :=
  if kind ∈ membershipChangeKinds then some .watchedGroupMembershipChanged
  else if kind ∈ aclChangeKinds then some .watchedResourceAclChanged
  else none

/-- The kind of watch a change of some kind is matched with. -/
def watchKind (kind : ObservationKind) : WatchKind :=
  if kind ∈ membershipChangeKinds then .group else placeKind kind

/-- The group or the place a version is about. -/
def watchedPlace (v : ObjectVersion) : Option String :=
  if v.kind ∈ membershipChangeKinds then v.containerKey else placeOf v

/-- The key a watch's scope resolves to, where the feed accepts the scope. -/
def resolvesTo (p : Platform) (w : Watch) : Option String :=
  (ChangeScope.build (scopeForWatch w.kind) (scopeKey w)).toOption.bind fun scope =>
    (predicatesFor p.casefold scope).toOption.bind fun _ => (normalize p.casefold scope).toOption

/-- A version of exactly the object a watch's scope resolves to. -/
def ofObject (p : Platform) (w : Watch) (v : ObjectVersion) : Bool :=
  w.kind = watchKind v.kind && (resolvesTo p w).isSome && resolvesTo p w = watchedPlace v

/-- The scope of a watch selects a version. -/
def selects (p : Platform) (w : Watch) (v : ObjectVersion) : Bool :=
  ((ChangeScope.build (scopeForWatch w.kind) (scopeKey w)).toOption.bind fun scope =>
    (predicatesFor p.casefold scope).toOption).any fun predicates =>
      restrict (some (kindsForWatch w.kind)) (some predicates) v

/-- A version that opened in the window of a pass. -/
def inWindow (pass : Pass) (v : ObjectVersion) : Bool :=
  pass.windowFrom ≤ v.validFrom && v.validFrom < pass.windowTo

/-- A watch subscribes to a change of some kind, under a policy that raises it. -/
def subscribed (pass : Pass) (w : Watch) (v : ObjectVersion) : Bool :=
  (triggerFor v.kind).any fun trigger =>
    w.watches trigger && trigger ∈ pass.policy.enabledTriggers

/-- An occurrence tells one watch of one version. -/
def tellsOf (w : Watch) (v : ObjectVersion) (watchId : Option String) (trigger : AlertTrigger)
    (payload : Payload) (occurredAt : Instant) : Bool :=
  watchId = some w.watchId && triggerFor v.kind = some trigger &&
    cause payload = (some v.kind.value,some v.key) && occurredAt = v.validFrom

/-- How many events a pass recorded for a watch and a version. -/
def eventsAbout (e : AlertEvaluation) (w : Watch) (v : ObjectVersion) : ℕ :=
  e.recorded.countP fun r => tellsOf w v r.watchId r.trigger r.payload r.occurredAt

/-- Every watch is told once of a change of its object, and of no other change. -/
def ToldOnce (ws : WatchTable p) (t : Table) (pass : Pass) (e : AlertEvaluation) : Prop :=
  ∀ w ∈ ws.enabled, ∀ v ∈ t.rows, inWindow pass v = true → subscribed pass w v = true →
    eventsAbout e w v = if ofObject p w v then 1 else 0

/-- The folded key of the place of a version is the key of a watch of its kind. -/
def named (p : Platform) (w : Watch) (v : ObjectVersion) : Bool :=
  w.kind = watchKind v.kind && (watchedPlace v).any fun place => fold p place = w.key

/-- A change of a watch's object is found under the watch's key, and no other watch selects
it. A change of another object that is found under the key is selected by no watch. -/
def KeysAgree (ws : WatchTable p) (t : Table) (pass : Pass) : Prop :=
  ∀ w ∈ ws.enabled, ∀ v ∈ t.rows, inWindow pass v = true → subscribed pass w v = true →
    if ofObject p w v then named p w v = true ∧ ∀ w' ∈ ws.enabled, selects p w' v = true → w' = w
    else named p w v = true → ∀ w' ∈ ws.enabled, selects p w' v = false

end Statement

/-! ### A feed that is not cut -/

section Whole
variable {sha256 : String → String} {t : Table}

theorem classifyTwice_after (pairs : List (Option ObjectVersion × ObjectVersion))
    (surroundings : Option ObjectVersion × ObjectVersion → Surroundings) :
    (classifyTwice sha256 t pairs surroundings).map (·.after) = pairs.map (·.2) := by
  unfold classifyTwice
  dsimp only
  split_ifs
  · rw [List.map_map]
    rfl
  · rw [List.map_map]
    rfl

/-- A page of a batch holds its versions, each of them once. -/
theorem classifyAll_after (page : List ObjectVersion) :
    (classifyAll sha256 t page).map (·.after) = page := by
  unfold classifyAll
  rw [classifyTwice_after, List.map_map]
  exact List.map_id _

variable {f : ChangeFilter}

/-- A page that does not fill takes every change that is admitted. -/
theorem absorb_all (hadmits : ∀ c, f.admits c = true) {cs : List ObjectChange} {s : Scan}
    (hroom : s.collected.length < f.limit) :
    ((absorb f s cs).2 = false → (absorb f s cs).1.collected = s.collected ++ cs) ∧
      ((absorb f s cs).2 = false ↔ s.collected.length+cs.length < f.limit) := by
  induction cs generalizing s with
  | nil => simp [absorb, hroom]
  | cons c cs ih =>
    unfold absorb
    rw [if_pos (hadmits c)]
    dsimp only
    split_ifs with hfull
    · rw [List.length_append, List.length_singleton] at hfull
      simp only [false_implies, false_iff, List.length_cons, true_and]
      omega
    · rw [List.length_append, List.length_singleton, not_le] at hfull
      have hlen : (s.collected ++ [c]).length < f.limit := by
        rw [List.length_append, List.length_singleton]
        exact hfull
      obtain ⟨hall,hiff⟩ := @ih { s with
        collected := s.collected ++ [c]
        cursor := some ⟨c.after.validFrom,c.after.versionId⟩ } hlen
      refine ⟨fun h => ?_,?_⟩
      · rw [hall h]
        exact List.append_cons .. |>.symm
      · rw [hiff, List.length_append, List.length_singleton, List.length_cons]
        omega

/-- A loop that a turn ends. -/
theorem scan_ended {inside : ObjectVersion → Bool} {s : Scan}
    (hstep : scanStep sha256 t f inside {} = some s) (hdone : s.running = false) :
    scan sha256 t f inside none = s := by
  have hfinished : Loop.Finished (scanStep sha256 t f inside) s := by
    unfold Loop.Finished scanStep
    rw [if_pos (Or.inl hdone)]
  exact (Loop.iterate_step hstep scanBudget).trans (Loop.iterate_finished hfinished scanBudget)

/-- A feed that has no more holds one change for each version of its window, in their order. -/
theorem scan_whole {inside : ObjectVersion → Bool} (hadmits : ∀ c, f.admits c = true)
    (hlow : 50 ≤ f.limit) (hhigh : f.limit ≤ maxPage)
    (hmore : (scan sha256 t f inside none).hasMore = false) :
    (scan sha256 t f inside none).collected.map (·.after) =
      opening t f.windowFrom f.windowTo inside none := by
  let rows := opening t f.windowFrom f.windowTo inside none
  have hbounded : max 1 (min (max f.limit 50) maxPage) = f.limit := by
    rw [Nat.max_eq_left hlow, Nat.min_eq_left hhigh]
    exact Nat.max_eq_right (by omega)
  have hversions : (batch t f inside {}).versions = rows.take f.limit := by
    show rows.take (max 1 (min (max f.limit 50) maxPage)) = _
    rw [hbounded]
  have hpage : (batch t f inside {}).hasMore = decide (f.limit < rows.length) := by
    show decide (max 1 (min (max f.limit 50) maxPage) < rows.length) = _
    rw [hbounded]
  have hgo : ¬ (({} : Scan).running = false ∨ f.limit ≤ ({} : Scan).collected.length) := by
    intro hstop
    rcases hstop with hstop | hstop
    · cases hstop
    · have hzero : f.limit ≤ 0 := hstop
      omega
  by_cases hempty : (batch t f inside {}).versions = []
  · have hstep : scanStep sha256 t f inside {} = some { hasMore := false, running := false } := by
      unfold scanStep
      rw [if_neg hgo, if_pos hempty]
    rw [scan_ended hstep rfl]
    rw [hversions, List.take_eq_nil_iff] at hempty
    exact (hempty.resolve_left (by omega)).symm
  · let took := taken sha256 t f inside {}
    have hroom : ({ examined := 0+(batch t f inside {}).versions.length } : Scan).collected.length <
        f.limit := by
      show 0 < f.limit
      omega
    obtain ⟨hall,hiff⟩ := @absorb_all f hadmits
      (classifyAll sha256 t (batch t f inside {}).versions) _ hroom
    have hcount : (classifyAll sha256 t (batch t f inside {}).versions).length =
        (rows.take f.limit).length := by
      rw [← hversions]
      exact (List.length_map _).symm.trans (congrArg List.length (classifyAll_after _))
    by_cases hfilled : took.2 = true
    · have hstep : scanStep sha256 t f inside {} = some { took.1 with
          hasMore := true
          running := false } := by
        unfold scanStep
        rw [if_neg hgo, if_neg hempty]
        exact if_pos hfilled
      rw [scan_ended hstep rfl] at hmore
      cases hmore
    · have hnot : took.2 = false := Bool.not_eq_true _ ▸ hfilled
      have hshort := hiff.mp hnot
      rw [hcount, List.length_take] at hshort
      have hrows : rows.length < f.limit := by
        have hzero : 0+min f.limit rows.length < f.limit := hshort
        omega
      have hlast : ¬ (batch t f inside {}).hasMore = true := by
        rw [hpage, decide_eq_true_eq]
        omega
      have hstep : scanStep sha256 t f inside {} = some { took.1 with
          cursor := (batch t f inside {}).nextCursor
          hasMore := (batch t f inside {}).hasMore
          running := false } := by
        unfold scanStep
        rw [if_neg hgo, if_neg hempty]
        exact (if_neg hfilled).trans (if_pos hlast)
      rw [scan_ended hstep rfl]
      show took.1.collected.map (·.after) = rows
      have htook : took.1.collected = classifyAll sha256 t (batch t f inside {}).versions :=
        (hall hnot).trans (List.nil_append _)
      rw [htook, classifyAll_after, hversions]
      exact List.take_of_length_le hrows.le

end Whole

/-! ### The copies of a change -/

section Copies
variable {p : Platform} {t : Table} {pass : Pass}

theorem rows_nodup (t : Table) : t.rows.Nodup := List.Nodup.of_map _ t.ids_nodup

theorem count_opening {windowFrom windowTo : Instant} {inside : ObjectVersion → Bool}
    {v : ObjectVersion} (hv : v ∈ t.rows) (hfrom : windowFrom ≤ v.validFrom)
    (hto : v.validFrom < windowTo) :
    (opening t windowFrom windowTo inside none).count v = if inside v then 1 else 0 := by
  unfold opening
  rw [List.count_reverse, (sortedBy_perm position _).count_eq]
  by_cases hin : inside v = true
  · rw [if_pos hin, List.count_filter (by simp [hfrom, hto, hin])]
    exact List.count_eq_one_of_mem (rows_nodup t) hv
  · rw [if_neg hin]
    apply List.count_eq_zero.mpr
    intro hmem
    obtain ⟨-,hp⟩ := List.mem_filter.mp hmem
    simp only [Bool.and_eq_true] at hp
    exact hin hp.1.2

/-- The filter of a pass over the scope of a watch. -/
def filterFor (pass : Pass) (w : Watch) (scope : ChangeScope) : ChangeFilter where
  windowFrom := pass.windowFrom
  windowTo := pass.windowTo
  scope := some scope
  kinds := some (kindsForWatch w.kind)
  actions := [.added,.modified,.removed,.firstObserved]
  significance := [.security,.metadata,.noise,.undetermined]
  minSeverity := .info
  limit := changesPerWatch

theorem filterFor_admits (w : Watch) (scope : ChangeScope) (c : ObjectChange) :
    (filterFor pass w scope).admits c = true := by
  have hsignificance : ∀ x : ChangeSignificance,
      x ∈ [.security,.metadata,.noise,.undetermined] := by
    intro x
    cases x <;> decide
  have haction : ∀ x : ChangeAction, x ∈ [.added,.modified,.removed,.firstObserved] := by
    intro x
    cases x <;> decide
  have hseverity : ∀ x : ChangeSeverity, atLeast x .info = true := by
    intro x
    cases x <;> decide
  show (decide (c.action ∈ [.added,.modified,.removed,.firstObserved]) &&
    decide (c.significance ∈ [.security,.metadata,.noise,.undetermined]) &&
      atLeast c.severity .info) = true
  rw [decide_eq_true (haction _), decide_eq_true (hsignificance _), hseverity]
  rfl

theorem filterFor_built (isoformat : Instant → String) (w : Watch) (scope : ChangeScope)
    (hopen : pass.windowFrom < pass.windowTo) :
    ChangeFilter.build isoformat (filterFor pass w scope) = .ok (filterFor pass w scope) := by
  have hwindow : ¬ (filterFor pass w scope).windowTo ≤ (filterFor pass w scope).windowFrom :=
    not_le_of_gt hopen
  unfold ChangeFilter.build
  rw [if_neg hwindow, if_neg (by simp [filterFor]), if_neg (by simp [filterFor]),
    if_neg (by simp [filterFor])]

/-- What the feed of a watch is, by its scope. -/
theorem feedFor_eq (w : Watch) (hopen : pass.windowFrom < pass.windowTo) :
    feedFor p t pass w = (ChangeScope.build (scopeForWatch w.kind) (scopeKey w)).bind fun scope =>
      (predicatesFor p.casefold scope).bind fun predicates =>
        let s := scan p.sha256 t (filterFor pass w scope)
          (restrict (some (kindsForWatch w.kind)) (some predicates)) none
        .ok { changes := s.collected
              hasMore := s.hasMore
              nextCursor := s.cursor
              scanned := s.examined
              scanExhausted := s.exhausted } := by
  unfold feedFor
  cases hscope : ChangeScope.build (scopeForWatch w.kind) (scopeKey w) with
  | error e => rfl
  | ok scope =>
    show (ChangeFilter.build p.isoformat (filterFor pass w scope)).bind
      (fun f => feed p.casefold p.sha256 t f none) = _
    rw [filterFor_built p.isoformat w scope hopen]
    show feed p.casefold p.sha256 t (filterFor pass w scope) none = _
    unfold feed
    have hread : scopePredicates p.casefold (filterFor pass w scope) =
        (predicatesFor p.casefold scope).map some := by
      have hroom : ¬ (filterFor pass w scope).limit = 0 := by
        show ¬ changesPerWatch = 0
        decide
      unfold scopePredicates
      rw [if_neg hroom]
      rfl
    rw [hread]
    show _ = (predicatesFor p.casefold scope).bind _
    cases predicatesFor p.casefold scope with
    | error e => rfl
    | ok predicates => rfl

/-- A watch that is not cut brings one copy of each version its scope selects. -/
theorem readWatch_copies {w : Watch} (hwhole : .moreChanges w ∉ (readWatch p t pass w).2.2)
    {v : ObjectVersion} (hv : v ∈ t.rows) (hin : inWindow pass v = true) :
    (readWatch p t pass w).1.countP (fun r => r.2.after = v) =
      if selects p w v then 1 else 0 := by
  obtain ⟨hfrom,hto⟩ := Bool.and_eq_true_iff.mp hin
  have hfrom : pass.windowFrom ≤ v.validFrom := of_decide_eq_true hfrom
  have hto : v.validFrom < pass.windowTo := of_decide_eq_true hto
  have hfeed := feedFor_eq (p := p) (t := t) w (lt_of_le_of_lt hfrom hto)
  unfold readWatch at hwhole ⊢
  unfold selects
  cases hscope : ChangeScope.build (scopeForWatch w.kind) (scopeKey w) with
  | error e =>
    rw [hscope] at hfeed
    rw [show feedFor p t pass w = .error e from hfeed]
    rfl
  | ok scope =>
    rw [hscope] at hfeed
    cases hpredicates : predicatesFor p.casefold scope with
    | error e =>
      have hfailed : feedFor p t pass w = .error e := by
        rw [hfeed]
        show (predicatesFor p.casefold scope).bind _ = _
        rw [hpredicates]
        rfl
      rw [hfailed]
      simp [Except.toOption, hpredicates]
    | ok predicates =>
      let inside := restrict (some (kindsForWatch w.kind)) (some predicates)
      let s := scan p.sha256 t (filterFor pass w scope) inside none
      have hread : feedFor p t pass w = .ok ⟨s.collected,s.hasMore,s.cursor,s.examined,
          s.exhausted⟩ := by
        rw [hfeed]
        show (predicatesFor p.casefold scope).bind _ = _
        rw [hpredicates]
        rfl
      rw [hread] at hwhole ⊢
      have hmore : s.hasMore = false := by
        cases hm : s.hasMore with
        | false => rfl
        | true => exact absurd (by simp [hm]) hwhole
      have hlow : 50 ≤ (filterFor pass w scope).limit := by
        show 50 ≤ changesPerWatch
        decide
      have hhigh : (filterFor pass w scope).limit ≤ maxPage := by
        show changesPerWatch ≤ maxPage
        decide
      have hall := scan_whole (filterFor_admits w scope) hlow hhigh hmore
      have hcount : (s.collected.map fun c => (w,c)).countP (fun r => r.2.after = v) =
          (s.collected.map (·.after)).count v := by
        rw [List.countP_map, List.count, List.countP_map]
        congr 1
      have hselects : (predicatesFor p.casefold scope).toOption = some predicates := by
        rw [hpredicates]
        rfl
      show (s.collected.map fun c => (w,c)).countP (fun r => r.2.after = v) =
        if (predicatesFor p.casefold scope).toOption.any (fun predicates =>
          restrict (some (kindsForWatch w.kind)) (some predicates) v) then 1 else 0
      rw [hselects, hcount, hall]
      exact count_opening hv hfrom hto

end Copies

/-! ### The events of a change -/

section Events
variable {p : Platform} {sentence : ObjectChange → String} {ws : WatchTable p} {H : ChangeHistory}
  {pass : Pass}

/-- An event tells a watch of a version. -/
def tells (w : Watch) (v : ObjectVersion) (e : AlertEvent) : Bool :=
  tellsOf w v e.watchId e.trigger e.payload e.occurredAt

theorem countP_forall₂ {α β : Type} {R : α → β → Prop} {P : α → Bool} {Q : β → Bool}
    (hR : ∀ a b, R a b → Q b = P a) {l : List α} {m : List β} (h : List.Forall₂ R l m) :
    m.countP Q = l.countP P := by
  induction h with
  | nil => rfl
  | cons hab _ ih => rw [List.countP_cons, List.countP_cons, ih, hR _ _ hab]

/-- Each watch gets one event, and all of them tell the same. -/
theorem eventsFor_tells {watches : List Watch} {r s q : Option String}
    {parts : Watch → AlertSubject → EventParts} {trigger : AlertTrigger}
    {about : Option String × Option String} {moment : Instant}
    (hwatch : ∀ x y, (parts x y).watchId = some x.watchId)
    (htrigger : ∀ x y, (parts x y).trigger = trigger)
    (hcause : ∀ x y, cause (parts x y).payload = about)
    (hmoment : ∀ x y, (parts x y).occurredAt = moment) {es : List AlertEvent}
    (h : eventsFor p watches r s q parts = .ok es) (w : Watch) (v : ObjectVersion) :
    es.countP (tells w v) = watches.countP fun x =>
      some x.watchId = some w.watchId && triggerFor v.kind = some trigger &&
        about = (some v.kind.value,some v.key) && moment = v.validFrom := by
  unfold eventsFor at h
  split_ifs at h with hnone
  · cases h
    rw [hnone]
    rfl
  · obtain ⟨subject,-,hm⟩ := bind_ok.mp h
    apply countP_forall₂ _ (mapM_forall₂.mp hm)
    intro x e he
    have hfrom := AlertEvent.build_from he
    unfold tells tellsOf
    rw [hfrom.watchId, hwatch, hfrom.trigger, htrigger, hfrom.payload, hcause, hfrom.occurredAt,
      hmoment]

theorem mem_matching_iff {kind : WatchKind} {key : Option String} {trigger : AlertTrigger}
    {w : Watch} (hw : w ∈ ws.enabled) (hwatches : w.watches trigger = true) :
    w ∈ matching p ws.enabled kind key trigger ↔
      w.kind = kind ∧ key.any (fun k => fold p k = w.key) = true := by
  cases key with
  | none =>
    show w ∈ ([] : List Watch) ↔ w.kind = kind ∧ false = true
    simp
  | some key =>
    have hfolded := ws.folded w (enabled_row hw).1
    have hkey : w.key = fold p key ↔ (some key).any (fun k => fold p k = w.key) = true := by
      show _ ↔ decide (fold p key = w.key) = true
      rw [decide_eq_true_iff]
      exact eq_comm
    unfold matching
    rw [List.mem_filter, hfolded, hwatches, ← hkey]
    simp only [Bool.and_eq_true, decide_eq_true_eq, hw, true_and, and_true]

theorem enabled_ids (ws : WatchTable p) : (ws.enabled.map (·.watchId)).Nodup := by
  have hperm := (sortedBy_perm (fun w : Watch => toLex (w.kind.value,w.key))
    (ws.rows.filter (·.enabled))).map (·.watchId)
  exact hperm.nodup_iff.mpr (ws.ids_nodup.sublist (List.filter_sublist.map _))

theorem matching_sublist (index : List Watch) (kind : WatchKind) (key : Option String)
    (trigger : AlertTrigger) : (matching p index kind key trigger).Sublist index := by
  cases key with
  | none => exact List.nil_sublist _
  | some key => exact List.filter_sublist

/-- A watch is once among those that match. -/
theorem count_matching {kind : WatchKind} {key : Option String} {trigger : AlertTrigger}
    {w : Watch} (hw : w ∈ ws.enabled) (hwatches : w.watches trigger = true) :
    (matching p ws.enabled kind key trigger).countP (fun x => some x.watchId = some w.watchId) =
      if w.kind = kind && key.any (fun k => fold p k = w.key) then 1 else 0 := by
  have hsub := matching_sublist (p := p) ws.enabled kind key trigger
  have hids := (enabled_ids ws).sublist (hsub.map (·.watchId))
  have hcount : (matching p ws.enabled kind key trigger).countP
      (fun x => some x.watchId = some w.watchId) =
        ((matching p ws.enabled kind key trigger).map (·.watchId)).count w.watchId := by
    rw [List.count, List.countP_map]
    apply List.countP_congr
    intro x _
    rw [decide_eq_true_iff, Option.some_inj]
    exact beq_iff_eq.symm
  rw [hcount, hids.count]
  have hmem : w.watchId ∈ (matching p ws.enabled kind key trigger).map (·.watchId) ↔
      w ∈ matching p ws.enabled kind key trigger := by
    constructor
    · intro h
      obtain ⟨x,hx,hid⟩ := List.mem_map.mp h
      have hsame : x = w := List.inj_on_of_nodup_map (enabled_ids ws) (hsub.subset hx) hw hid
      exact hsame ▸ hx
    · intro h
      exact List.mem_map_of_mem h
  simp only [hmem, mem_matching_iff hw hwatches, Bool.and_eq_true, decide_eq_true_eq]

/-- A change and a version are the same opening when an event tells of both. -/
theorem opening_told {c : ObjectChange} {v : ObjectVersion} (hread : Read H pass c)
    (hnames : Names c) (hv : v ∈ H.table.rows) :
    ((some c.kind.value,some c.key) = (some v.kind.value,some v.key) ∧ c.openedAt = v.validFrom) ↔
      c.after = v := by
  constructor
  · intro h
    apply row_of_opening hread.1 hv
    · rw [← hnames.kind]
      exact value_injective (Option.some.inj (congrArg Prod.fst h.1))
    · rw [← hnames.key]
      exact Option.some.inj (congrArg Prod.snd h.1)
    · exact h.2
  · intro h
    rw [hnames.kind, hnames.key, ← h]
    exact ⟨rfl,rfl⟩

/-- The events of a change under the trigger of its kind. -/
theorem matched_tells {c : ObjectChange} (hread : Read H pass c) (hnames : Names c)
    {trigger : AlertTrigger} (htrigger : triggerFor c.after.kind = some trigger)
    {kind : WatchKind} (hkind : watchKind c.after.kind = kind) {place : Option String}
    (hplace : watchedPlace c.after = place) {r s q : Option String}
    {parts : Watch → AlertSubject → EventParts}
    (hwatch : ∀ x y, (parts x y).watchId = some x.watchId)
    (hparts : ∀ x y, (parts x y).trigger = trigger)
    (hcause : ∀ x y, cause (parts x y).payload = (some c.kind.value,some c.key))
    (hmoment : ∀ x y, (parts x y).occurredAt = c.openedAt) {es : List AlertEvent}
    (h : eventsFor p (matching p ws.enabled kind place trigger) r s q parts = .ok es)
    {w : Watch} (hw : w ∈ ws.enabled) {v : ObjectVersion} (hv : v ∈ H.table.rows)
    (hsubscribed : subscribed pass w v = true) :
    es.countP (tells w v) = if c.after = v ∧ named p w v = true then 1 else 0 := by
  rw [eventsFor_tells hwatch hparts hcause hmoment h w v]
  by_cases hsame : c.after = v
  · have htold := (opening_told hread hnames hv).mpr hsame
    subst hsame
    have hwatches : w.watches trigger = true := by
      unfold subscribed at hsubscribed
      rw [htrigger] at hsubscribed
      exact (Bool.and_eq_true_iff.mp hsubscribed).1
    have hall : ∀ x ∈ matching p ws.enabled kind place trigger,
        (some x.watchId = some w.watchId && triggerFor c.after.kind = some trigger &&
          (some c.kind.value,some c.key) = (some c.after.kind.value,some c.after.key) &&
            c.openedAt = c.after.validFrom : Bool) = true ↔
          (decide (some x.watchId = some w.watchId)) = true := by
      intro x _
      simp [htrigger, htold.1, htold.2]
    rw [List.countP_congr hall, count_matching hw hwatches]
    unfold named
    rw [hkind, hplace]
    simp
  · rw [if_neg fun hc => hsame hc.1, List.countP_eq_zero]
    intro x _ htold
    simp only [Bool.and_eq_true, decide_eq_true_eq] at htold
    exact hsame ((opening_told hread hnames hv).mp ⟨htold.1.2,htold.2⟩)

theorem subscribed_enabled {w : Watch} {v : ObjectVersion} (h : subscribed pass w v = true)
    {trigger : AlertTrigger} (htrigger : triggerFor v.kind = some trigger) :
    trigger ∈ pass.policy.enabledTriggers := by
  unfold subscribed at h
  rw [htrigger] at h
  exact of_decide_eq_true (Bool.and_eq_true_iff.mp h).2

theorem rawChanges_kind {r : Watch × ObjectChange} (h : r ∈ rawChanges ws H.table pass) :
    r.2.kind = r.2.after.kind := by
  obtain ⟨w,-,hr⟩ := List.mem_flatMap.mp h
  unfold readWatch at hr
  cases hfeed : feedFor p H.table pass w with
  | error e =>
    rw [hfeed] at hr
    cases hr
  | ok page =>
    rw [hfeed] at hr
    obtain ⟨c,hc,rfl⟩ := List.mem_map.mp hr
    obtain ⟨scope,-,hfeed⟩ := bind_ok.mp hfeed
    obtain ⟨f,-,hfeed⟩ := bind_ok.mp hfeed
    obtain ⟨predicates,hopens⟩ := feed_opens hfeed
    obtain ⟨page,s,hclassified,-⟩ := hopens c hc
    show c.kind = c.after.kind
    rw [hclassified]
    rfl

/-- A change tells a watch of a version when the version is its own and named by the watch. -/
theorem change_tells {c : ObjectChange} (hread : Read H pass c) (hkind : c.kind = c.after.kind)
    {es : List AlertEvent}
    (h : eventsForChange p ws.enabled pass.policy.enabledTriggers (noticeOf sentence pass c) =
      .ok es) {w : Watch} (hw : w ∈ ws.enabled) {v : ObjectVersion} (hv : v ∈ H.table.rows)
    (hsubscribed : subscribed pass w v = true) :
    es.countP (tells w v) = if c.after = v ∧ named p w v = true then 1 else 0 := by
  have hquiet : ∀ trigger, triggerFor c.after.kind = some trigger →
      trigger ∉ pass.policy.enabledTriggers → ¬ (c.after = v ∧ named p w v = true) := by
    intro trigger htrigger hoff hc
    rw [hc.1] at htrigger
    exact hoff (subscribed_enabled hsubscribed htrigger)
  obtain ⟨joined,hjoined,h⟩ := bind_ok.mp h
  obtain ⟨moved,hmoved,h⟩ := bind_ok.mp h
  cases h
  by_cases hgroup : c.kind ∈ membershipChangeKinds
  · have hnames := hread.2.2.2 (List.mem_append_left _ hgroup)
    have hafter : c.after.kind ∈ membershipChangeKinds := hkind ▸ hgroup
    have htrigger : triggerFor c.after.kind = some .watchedGroupMembershipChanged := if_pos hafter
    have hacl : ¬ c.kind ∈ aclChangeKinds := by
      rw [List.mem_singleton.mp hgroup]
      decide
    have hnone : moved = [] := by
      have hskip : (Except.ok [] : Except DomainError (List AlertEvent)) = .ok moved :=
        (if_neg hacl).symm.trans hmoved
      exact (Except.ok.inj hskip).symm
    have hevents : membershipEvents p ws.enabled pass.policy.enabledTriggers
        (noticeOf sentence pass c) = .ok joined := (if_pos hgroup).symm.trans hjoined
    rw [hnone, List.append_nil]
    unfold membershipEvents at hevents
    by_cases hoff : AlertTrigger.watchedGroupMembershipChanged ∉ pass.policy.enabledTriggers
    · rw [if_pos hoff] at hevents
      cases hevents
      exact (if_neg (hquiet _ htrigger hoff)).symm
    · rw [if_neg hoff] at hevents
      have hplace : watchedPlace c.after = (noticeOf sentence pass c).containerKey :=
        (if_pos hafter).trans hnames.container.symm
      exact matched_tells hread hnames htrigger (if_pos hafter) hplace (fun _ _ => rfl)
        (fun _ _ => rfl) (fun _ _ => cause_changePayload _ _) (fun _ _ => rfl) hevents hw hv
        hsubscribed
  · have hafter : ¬ c.after.kind ∈ membershipChangeKinds := hkind ▸ hgroup
    have hnone : joined = [] := by
      have hskip : (Except.ok [] : Except DomainError (List AlertEvent)) = .ok joined :=
        (if_neg hgroup).symm.trans hjoined
      exact (Except.ok.inj hskip).symm
    rw [hnone, List.nil_append]
    by_cases hacl : c.kind ∈ aclChangeKinds
    · have hnames := hread.2.2.2 (List.mem_append_right _ hacl)
      have htrigger : triggerFor c.after.kind = some .watchedResourceAclChanged :=
        (if_neg hafter).trans (if_pos (hkind ▸ hacl))
      have hevents : aclEvents p ws.enabled pass.policy.enabledTriggers
          (noticeOf sentence pass c) = .ok moved := (if_pos hacl).symm.trans hmoved
      unfold aclEvents at hevents
      by_cases hoff : AlertTrigger.watchedResourceAclChanged ∉ pass.policy.enabledTriggers
      · rw [if_pos hoff] at hevents
        cases hevents
        exact (if_neg (hquiet _ htrigger hoff)).symm
      · rw [if_neg hoff] at hevents
        have hwatched : watchKind c.after.kind = placeKind (noticeOf sentence pass c).kind := by
          rw [← hkind]
          exact if_neg hgroup
        have hplace : watchedPlace c.after = placeKey (noticeOf sentence pass c) := by
          unfold watchedPlace placeOf
          rw [if_neg hafter, ← hkind, ← hnames.container, ← hnames.key]
          rfl
        exact matched_tells hread hnames htrigger hwatched hplace (fun _ _ => rfl)
          (fun _ _ => rfl) (fun _ _ => cause_changePayload _ _) (fun _ _ => rfl) hevents hw hv
          hsubscribed
    · have hskip : (Except.ok [] : Except DomainError (List AlertEvent)) = .ok moved :=
        (if_neg hacl).symm.trans hmoved
      rw [← Except.ok.inj hskip, if_neg]
      · rfl
      · intro hc
        have hplain : triggerFor v.kind = none := by
          rw [← hc.1, ← hkind]
          exact (if_neg hgroup).trans (if_neg hacl)
        unfold subscribed at hsubscribed
        rw [hplain] at hsubscribed
        cases hsubscribed

end Events

/-! ### The scope of a watch selects its object -/

section Selecting
variable {p : Platform}

theorem build_target {target : ScopeTarget} {key : String} {scope : ChangeScope}
    (h : ChangeScope.build target key = .ok scope) : scope.target = target := by
  unfold ChangeScope.build at h
  split_ifs at h
  cases h
  rfl

/-- The rule of a watch for one kind of change takes the object itself. -/
theorem rule_takes {kind : WatchKind} {key : String} {v : ObjectVersion}
    (htold : (triggerFor v.kind).isSome = true) (hkind : kind = watchKind v.kind)
    (hplace : watchedPlace v = some key) :
    v.kind ∈ kindsForWatch kind ∧ ∃ rule, rule v = true ∧
      ruleFor p.casefold (scopeForWatch kind) key v.kind = .ok (some rule) := by
  subst hkind
  unfold watchedPlace placeOf at hplace
  cases hv : v.kind with
  | membershipEdge =>
    rw [hv] at hplace
    exact ⟨by decide,containerIs key,decide_eq_true hplace,rfl⟩
  | ntfsAce =>
    rw [hv] at hplace
    refine ⟨by decide,under (·.containerKey) key "\\",?_,rfl⟩
    exact Bool.or_eq_true_iff.mpr (Or.inl (decide_eq_true hplace))
  | ntfsResource =>
    rw [hv] at hplace
    refine ⟨by decide,under keyColumn key "\\",?_,rfl⟩
    exact Bool.or_eq_true_iff.mpr (Or.inl (decide_eq_true hplace))
  | smbAce =>
    rw [hv] at hplace
    exact ⟨by decide,containerIs key,decide_eq_true hplace,rfl⟩
  | smbShare =>
    rw [hv] at hplace
    exact ⟨by decide,keyIs key,decide_eq_true (Option.some.inj hplace),rfl⟩
  | _ =>
    rw [hv] at htold
    cases htold

theorem predicatesFor_rule {scope : ChangeScope} {predicates : ObservationKind → Option Predicate}
    (h : predicatesFor p.casefold scope = .ok predicates) {key : String}
    (hkey : normalize p.casefold scope = .ok key) {kind : ObservationKind} {rule : Predicate}
    (hrule : ruleFor p.casefold scope.target key kind = .ok (some rule)) :
    predicates kind = some rule := by
  obtain ⟨key',hkey',h⟩ := bind_ok.mp h
  obtain ⟨ace,hace,h⟩ := bind_ok.mp h
  rw [hkey] at hkey'
  cases hkey'
  cases h
  show (if kind = .ntfsAce then ace
    else ((ruleFor p.casefold scope.target key kind).toOption).join) = some rule
  split_ifs with hentry
  · rw [hentry, hace] at hrule
    exact Except.ok.inj hrule
  · rw [hrule]
    rfl

/-- A change of the very object is selected. -/
theorem ofObject_selects {w : Watch} {v : ObjectVersion}
    (htold : (triggerFor v.kind).isSome = true) (h : ofObject p w v = true) :
    selects p w v = true := by
  unfold ofObject at h
  rw [Bool.and_eq_true, Bool.and_eq_true, decide_eq_true_iff, decide_eq_true_iff] at h
  obtain ⟨⟨hkind,hsome⟩,hplace⟩ := h
  obtain ⟨key,hresolved⟩ := Option.isSome_iff_exists.mp hsome
  rw [hresolved] at hplace
  obtain ⟨scope,hscope,hrest⟩ := Option.bind_eq_some_iff.mp hresolved
  obtain ⟨predicates,hpredicates,hkey⟩ := Option.bind_eq_some_iff.mp hrest
  have hbuilt := toOption_some.mp hscope
  obtain ⟨hin,rule,htakes,hrule⟩ := rule_takes (p := p) htold hkind hplace.symm
  rw [← build_target hbuilt] at hrule
  have hkindRule := predicatesFor_rule (toOption_some.mp hpredicates) (toOption_some.mp hkey) hrule
  unfold selects
  rw [hscope, Option.bind_some, hpredicates]
  show (decide (v.kind ∈ kindsForWatch w.kind) && (predicates v.kind).any (· v)) = true
  rw [decide_eq_true hin, hkindRule]
  exact htakes

end Selecting

/-! ### What a pass tells -/

section Telling
variable {p : Platform} {sentence : ObjectChange → String} {ws : WatchTable p} {H : ChangeHistory}
  {pass : Pass}

/-- Each change that was read tells of its own version. -/
theorem moved_tells {w : Watch} (hw : w ∈ ws.enabled) {v : ObjectVersion} (hv : v ∈ H.table.rows)
    (hsubscribed : subscribed pass w v = true) {raw : List (Watch × ObjectChange)}
    (hraw : ∀ r ∈ raw, r ∈ rawChanges ws H.table pass) {moved : List AlertEvent}
    (h : eventsForChanges p ws.enabled pass.policy.enabledTriggers
      (raw.map fun r => noticeOf sentence pass r.2) = .ok moved) :
    moved.countP (tells w v) =
      if named p w v then raw.countP (fun r => r.2.after = v) else 0 := by
  obtain ⟨ess,hess,rfl⟩ := map_ok.mp h
  have heach := mapM_forall₂.mp hess
  clear h hess
  induction raw generalizing ess with
  | nil =>
    cases heach
    simp
  | cons r raw ih =>
    rw [List.map_cons] at heach
    cases heach with
    | @cons _ es _ ess hes hrest =>
      have hr := hraw r List.mem_cons_self
      have hone := change_tells (rawChanges_read hr).2 (rawChanges_kind hr) hes hw hv hsubscribed
      have hall := ih (fun x hx => hraw x (List.mem_cons_of_mem r hx)) ess hrest
      rw [List.flatten_cons, List.countP_append, hone, hall, List.countP_cons]
      by_cases hnamed : named p w v = true
      · simp only [hnamed, and_true, if_true, decide_eq_true_eq]
        omega
      · simp only [hnamed, and_false, if_false, Bool.false_eq_true, Nat.add_zero]

/-- What was gained is told under another trigger. -/
theorem gained_tells {xs : List AccessExpansion} {gained : List AlertEvent}
    (h : eventsForAccessExpansions p ws.enabled pass.policy.enabledTriggers xs = .ok gained)
    (w : Watch) (v : ObjectVersion) : gained.countP (tells w v) = 0 := by
  rw [List.countP_eq_zero]
  intro e he htold
  unfold eventsForAccessExpansions at h
  split at h
  · cases h
    cases he
  · obtain ⟨x,-,es,hes,he⟩ := mem_flatten_mapM h he
    obtain ⟨x',-,hraised,-,-⟩ := eventsForExpansion_tell hes he
    unfold tells tellsOf at htold
    rw [hraised.trigger] at htold
    have htrigger : triggerFor v.kind = some .watchedAccessExpanded := by
      simp only [Bool.and_eq_true, decide_eq_true_eq] at htold
      exact htold.1.1.2
    unfold triggerFor at htrigger
    split_ifs at htrigger
    · cases htrigger
    · cases htrigger

/-- Recording keeps what an event tells, and to whom. -/
theorem recordAll_tells (watches : List Watch) (policy : AlertPolicy) (now : Instant)
    (events : List AlertEvent) (s : AlertStore) (w : Watch) (v : ObjectVersion) :
    (recordAll watches policy now s events).2.countP
      (fun r => tellsOf w v r.watchId r.trigger r.payload r.occurredAt) =
        events.countP (tells w v) := by
  induction events generalizing s with
  | nil => rfl
  | cons e es ih =>
    unfold recordAll
    rw [List.countP_cons, List.countP_cons, ih]
    rfl

/-- A pass that is not cut reads one copy of a version for each watch that selects it. -/
theorem rawChanges_copies (ws : WatchTable p)
    (hwhole : ∀ w ∈ ws.enabled, .moreChanges w ∉ (readWatch p H.table pass w).2.2)
    {v : ObjectVersion} (hv : v ∈ H.table.rows) (hin : inWindow pass v = true) :
    (rawChanges ws H.table pass).countP (fun r => r.2.after = v) =
      ws.enabled.countP (selects p · v) := by
  unfold rawChanges
  revert hwhole
  induction ws.enabled with
  | nil => exact fun _ => rfl
  | cons w watches ih =>
    intro hwhole
    have hfirst := readWatch_copies (hwhole w List.mem_cons_self) hv hin
    have hrest := ih fun x hx => hwhole x (List.mem_cons_of_mem w hx)
    rw [List.flatMap_cons, List.countP_append, hfirst, hrest, List.countP_cons, Nat.add_comm]

/-- An event for each watch that selects a version, where the key of a watch names it. -/
theorem pass_tells {s s' : AlertStore} {e : AlertEvaluation}
    (h : evaluateWindow sentence ws H.table pass s = .ok (s',e))
    (hwhole : ∀ w, .moreChanges w ∉ e.truncated) {w : Watch} (hw : w ∈ ws.enabled)
    {v : ObjectVersion} (hv : v ∈ H.table.rows) (hin : inWindow pass v = true)
    (hsubscribed : subscribed pass w v = true) :
    eventsAbout e w v = if named p w v then ws.enabled.countP (selects p · v) else 0 := by
  unfold evaluateWindow at h
  rw [if_neg (List.ne_nil_of_mem hw)] at h
  obtain ⟨⟨events,note⟩,hevents,h⟩ := bind_ok.mp h
  cases h
  obtain ⟨moved,hmoved,hevents⟩ := bind_ok.mp hevents
  obtain ⟨found,hfound,hevents⟩ := bind_ok.mp hevents
  obtain ⟨gained,hgained,hevents⟩ := bind_ok.mp hevents
  cases hevents
  have hread : ∀ x ∈ ws.enabled, .moreChanges x ∉ (readWatch p H.table pass x).2.2 := by
    intro x hx hcut
    apply hwhole x
    apply List.mem_append_left
    exact List.mem_flatMap.mpr ⟨_,List.mem_map_of_mem hx,hcut⟩
  unfold eventsAbout
  show (recordAll ws.enabled pass.policy pass.windowTo s (moved ++ gained)).2.countP _ = _
  rw [recordAll_tells, List.countP_append, gained_tells (mapError_ok.mp hgained), Nat.add_zero,
    moved_tells hw hv hsubscribed (fun _ hr => hr) (mapError_ok.mp hmoved),
    rawChanges_copies ws hread hv hin]

/-- One watch selects a version, and it is the only one. -/
theorem sole_selector {w : Watch} (hw : w ∈ ws.enabled) {v : ObjectVersion}
    (hselects : selects p w v = true) :
    ws.enabled.countP (selects p · v) = 1 ↔ ∀ w' ∈ ws.enabled, selects p w' v = true → w' = w := by
  have hnodup : ws.enabled.Nodup := (enabled_ids ws).of_map _
  rw [List.countP_eq_length_filter]
  constructor
  · intro hone w' hw' hsel
    obtain ⟨x,hx⟩ := List.length_eq_one_iff.mp hone
    have hmem : ∀ y ∈ ws.enabled, selects p y v = true → y = x := by
      intro y hy hysel
      have hin : y ∈ ws.enabled.filter (selects p · v) := List.mem_filter.mpr ⟨hy,hysel⟩
      rw [hx] at hin
      exact List.mem_singleton.mp hin
    rw [hmem w' hw' hsel, hmem w hw hselects]
  · intro hsole
    have hperm : (ws.enabled.filter (selects p · v)).Perm [w] := by
      apply (List.perm_ext_iff_of_nodup (hnodup.filter _) (List.nodup_singleton w)).mpr
      intro x
      rw [List.mem_filter, List.mem_singleton]
      constructor
      · intro hx
        exact hsole x hx.1 hx.2
      · intro hx
        exact hx ▸ ⟨hw,hselects⟩
    exact hperm.length_eq

/-- A pass that is not cut tells every watch once of the changes of its object, and of no
others, exactly when the stored keys and the scopes agree and do not overlap. -/
theorem told_once_iff {s s' : AlertStore} {e : AlertEvaluation}
    (h : evaluateWindow sentence ws H.table pass s = .ok (s',e))
    (hwhole : ∀ w, .moreChanges w ∉ e.truncated) :
    ToldOnce ws H.table pass e ↔ KeysAgree ws H.table pass := by
  unfold ToldOnce KeysAgree
  apply forall₂_congr
  intro w hw
  apply forall₂_congr
  intro v hv
  apply forall₂_congr
  intro hin hsubscribed
  rw [pass_tells h hwhole hw hv hin hsubscribed]
  have htold : (triggerFor v.kind).isSome = true := by
    unfold subscribed at hsubscribed
    cases htrigger : triggerFor v.kind with
    | none =>
      rw [htrigger] at hsubscribed
      cases hsubscribed
    | some trigger => rfl
  by_cases hobject : ofObject p w v = true
  · have hselects := ofObject_selects htold hobject
    rw [if_pos hobject, if_pos hobject, ← sole_selector hw hselects]
    by_cases hnamed : named p w v = true
    · rw [if_pos hnamed]
      exact (and_iff_right hnamed).symm
    · rw [if_neg hnamed]
      constructor
      · intro hzero
        omega
      · intro hboth
        exact absurd hboth.1 hnamed
  · rw [if_neg hobject, if_neg hobject]
    by_cases hnamed : named p w v = true
    · rw [if_pos hnamed, List.countP_eq_zero]
      simp only [hnamed, forall_const, Bool.not_eq_true]
    · rw [if_neg hnamed]
      exact iff_of_true rfl fun hc => absurd hc hnamed

end Telling

/-! ### Two watches on one folder -/

namespace Sample
open Adg.AlertPasses.Sample

/-- The folder, typed with the other slashes. -/
def slashed : Watch where
  watchId := "slashes"
  kind := .resource
  key := "//fs01/finance"
  label := "Finance"
  triggers := [.watchedResourceAclChanged]
  cooldown := 60000000

theorem both_folded : ∀ w ∈ [watch,slashed], fold platform w.key = w.key := by decide +kernel

theorem both_ids : ([watch,slashed].map (·.watchId)).Nodup := by decide

theorem both_targets : ([watch,slashed].map fun w => (w.kind,w.key)).Nodup := by decide +kernel

def both : WatchTable platform := ⟨[watch,slashed],both_ids,both_targets,both_folded⟩

end Sample

open Sample Adg.AlertPasses.Sample in
/-- An entry of the folder is told twice to the watch with the stored key, and never to the
watch with the other slashes. -/
theorem overlapping_told_twice : ∃ s' e,
    evaluateWindow sentence both history.table (pass 0 20 "Ann") AlertStore.blank = .ok (s',e) ∧
      e.truncated.length = 0 ∧ eventsAbout e watch entry = 2 ∧ eventsAbout e slashed entry = 0 ∧
        ¬ ToldOnce both history.table (pass 0 20 "Ann") e := by
  have hcounts : (evaluateWindow sentence both history.table (pass 0 20 "Ann")
      AlertStore.blank).toOption.map (fun x => (x.2.truncated.length,
        eventsAbout x.2 watch entry,eventsAbout x.2 slashed entry)) = some (0,2,0) := by
    decide +kernel
  obtain ⟨⟨s',e⟩,hrun,hcount⟩ := Option.map_eq_some_iff.mp hcounts
  have hfirst := congrArg (·.1) hcount
  have htwice := congrArg (·.2.1) hcount
  have hnever := congrArg (·.2.2) hcount
  refine ⟨s',e,toOption_some.mp hrun,hfirst,htwice,hnever,?_⟩
  intro honce
  have hone := honce watch (by decide +kernel) entry List.mem_cons_self (by decide) (by decide)
  rw [if_pos (by decide +kernel)] at hone
  exact absurd (htwice.symm.trans hone) (by decide)

open Sample Adg.AlertPasses.Sample in
/-- One watch on the folder is told once. -/
theorem one_watch_told : ∃ s' e,
    evaluateWindow sentence watches history.table (pass 0 20 "Ann") AlertStore.blank = .ok (s',e) ∧
      ToldOnce watches history.table (pass 0 20 "Ann") e := by
  have hcounts : (evaluateWindow sentence watches history.table (pass 0 20 "Ann")
      AlertStore.blank).toOption.map (fun x => x.2.truncated.length) = some 0 := by
    decide +kernel
  obtain ⟨⟨s',e⟩,hrun,hcount⟩ := Option.map_eq_some_iff.mp hcounts
  have hagree : KeysAgree watches history.table (pass 0 20 "Ann") := by
    unfold KeysAgree
    decide +kernel
  have hwhole : ∀ w, .moreChanges w ∉ e.truncated := by
    intro w hcut
    rw [List.length_eq_zero_iff.mp hcount] at hcut
    cases hcut
  exact ⟨s',e,toOption_some.mp hrun,
    (told_once_iff (toOption_some.mp hrun) hwhole).mpr hagree⟩

end Adg.WatchedChanges
