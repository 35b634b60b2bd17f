import Adg.AlertDetection
import Adg.AlertRecords
import Adg.ChangeFeed
import Adg.NamedHistories
import Adg.NoticeLogs

/-!
# Passes over a window

A pass reads the changes of a window watch by watch, turns them into candidate
alerts and records every candidate at the end of the window. Windows may
overlap, nest or come out of order. What a pass notifies has happened before
the instant it is notified at, so a change that is met again always falls into
the quiet that its own notification began.
-/

set_option autoImplicit false

namespace Adg.AlertPasses
open Adg.Observation Adg.ObjectVersions Adg.VersionTable Adg.CurrentState Adg.SortedLists
open Adg.ChangeFields Adg.ChangeRules Adg.ChangeClassification Adg.ChangeScopes Adg.ChangeFeed
open Adg.KeyedTables Adg.CanonicalJson Adg.AlertModel Adg.AlertDetection Adg.AlertRecords
open Adg.NoticeLogs Adg.NamedHistories
open Adg.Fallible (bind_ok map_ok mapError_ok mem_mapM mem_flatten_mapM)

/-- `CHANGES_PER_WATCH`. -/
def changesPerWatch : ℕ := 200

/-- `MAX_IMPACT_CHECKS`. -/
def maxImpactChecks : ℕ := 25

/-- `_KINDS_FOR_WATCH`. -/
def kindsForWatch : WatchKind → List ObservationKind
  | .resource => [.ntfsAce,.ntfsResource]
  | .share => [.smbAce,.smbShare]
  | .group => [.membershipEdge,.principal]

/-- `_SCOPE_FOR_WATCH`. -/
def scopeForWatch : WatchKind → ScopeTarget
  | .resource => .directoryTree
  | .share => .share
  | .group => .group

/-- `_scope_key`: a group scope wants what follows the last bar of a principal key. -/
def scopeKey (w : Watch) : String :=
  if w.kind = .group ∧ "principal|".toList.isPrefixOf w.key.toList then (rpartitionBar w.key).2
  else w.key

/-- The rows of `alert_watches`. `_watch_values` stores a folded key, and
folding leaves that alone. -/
structure WatchTable (p : Platform) where
  rows : List Watch
  ids_nodup : (rows.map (·.watchId)).Nodup
  targets_nodup : (rows.map fun w => (w.kind,w.key)).Nodup
  folded : ∀ w ∈ rows, fold p w.key = w.key

/-- `WatchRepository.enabled`. -/
def WatchTable.enabled {p : Platform} (ws : WatchTable p) : List Watch :=
  sortedBy (fun w => toLex (w.kind.value,w.key)) (ws.rows.filter (·.enabled))

/-- What `impact_of` resolved for a principal and a place, as `_rights_text` writes it. -/
structure Gain where
  gained : String
  before : String
  after : String

structure AlertPolicy where
  enabledTriggers : List AlertTrigger
  defaultCooldown : Instant

/-- One call of `evaluate_window`. The display names and the answers about
impact are those of the moment; an impact without a gain is no answer. -/
structure Pass where
  windowFrom : Instant
  windowTo : Instant
  names : String → Option String
  impact : Object → Instant → String → Option String → Option Gain
  policy : AlertPolicy

inductive CoverageNote where
  | unscopeable (watch : Watch) (error : DomainError)
  | moreChanges (watch : Watch)
  | impactsLeft (found : ℕ)

structure AlertEvaluation where
  startedAt : Instant
  windowFrom : Instant
  windowTo : Instant
  watchesConsidered : ℕ
  changesExamined : ℕ
  recorded : List RecordedAlert
  truncated : List CoverageNote

def AlertEvaluation.notified (e : AlertEvaluation) : List RecordedAlert :=
  e.recorded.filter (·.notified)

inductive PassError where
  | invalid (error : DomainError)
  | value (message : String)

section Reading
variable (p : Platform) (t : Table) (pass : Pass)

/-- The feed of one watch. -/
def feedFor (w : Watch) : Except DomainError Feed := do
  let scope ← ChangeScope.build (scopeForWatch w.kind) (scopeKey w)
  let filter ← ChangeFilter.build p.isoformat
    { windowFrom := pass.windowFrom
      windowTo := pass.windowTo
      scope := some scope
      kinds := some (kindsForWatch w.kind)
      actions := [.added,.modified,.removed,.firstObserved]
      significance := [.security,.metadata,.noise,.undetermined]
      minSeverity := .info
      limit := changesPerWatch }
  feed p.casefold p.sha256 t filter none

/-- What one watch brings to a pass: its changes, how many versions were
examined and a note when it was skipped or cut. -/
def readWatch (w : Watch) : List (Watch × ObjectChange) × ℕ × List CoverageNote :=
  match feedFor p t pass w with
  | .error e => ([],0,[.unscopeable w e])
  | .ok page => (page.changes.map fun c => (w,c),page.scanned,
      if page.hasMore || page.scanExhausted then [.moreChanges w] else [])

end Reading

section Noticing
variable (sentence : ObjectChange → String) (pass : Pass)

/-- `_labels`, for one key. -/
def labelFor (key : Option String) : Option String :=
  key.bind fun k => if "principal|".toList.isPrefixOf k.toList then pass.names k else none

/-- `_notice`. -/
def noticeOf (c : ObjectChange) : ChangeNotice where
  kind := c.kind
  key := c.key
  action := c.action
  containerKey := c.subject.containerKey
  relatedKey := c.subject.relatedKey
  severity := c.severity
  direction := c.direction
  at' := c.openedAt
  reasons := [sentence c]
  containerLabel := labelFor pass c.subject.containerKey
  relatedLabel := labelFor pass c.subject.relatedKey
  window := c.window

/-- The changes `_expansions` could resolve, the newest first. -/
def candidates (raw : List (Watch × ObjectChange)) : List (Watch × ObjectChange) :=
  sortedBy (fun r => OrderDual.toDual r.2.openedAt) (raw.filter fun r =>
    (r.1.kind = .resource || r.1.kind = .share) && r.1.watches .watchedAccessExpanded &&
      r.2.subject.relatedKey.isSome && (r.2.kind = .ntfsAce || r.2.kind = .smbAce))

/-- The directory of a candidate. -/
def resourceOf (r : Watch × ObjectChange) : Option String :=
  if r.2.kind = .ntfsAce then r.2.subject.containerKey else none

/-- The share of a candidate without a directory. -/
def shareOf (r : Watch × ObjectChange) : Option String :=
  if given (resourceOf r) then none else some r.1.key

/-- The expansion of one candidate, when its impact is a gain. -/
def expansionOf (r : Watch × ObjectChange) : Except PassError (List AccessExpansion) :=
  let principalKey := orBlank r.2.subject.relatedKey
  match pass.impact r.2.object r.2.openedAt principalKey (resourceOf r) with
  | none => .ok []
  | some gain =>
    if h : given (resourceOf r) || given (shareOf r) then .ok
      [{ principalKey := principalKey
         resourceKey := resourceOf r
         shareKey := shareOf r
         gained := gain.gained
         before := gain.before
         after := gain.after
         at' := r.2.openedAt
         causeKind := r.2.kind
         causeKey := r.2.key
         principalLabel := labelFor pass (some principalKey)
         placeLabel := some r.1.label
         placed := h }]
    else .error (.value "An access expansion must name the place access was gained to.")

/-- `_expansions`. -/
def expansions (raw : List (Watch × ObjectChange)) :
    Except PassError (List AccessExpansion × List CoverageNote) :=
  let found := candidates raw
  let note := if maxImpactChecks < found.length then [.impactsLeft found.length] else []
  (fun xs => (xs.flatten,note)) <$> (found.take maxImpactChecks).mapM (expansionOf pass)

end Noticing

/-- The watch an event came through. -/
def watchOf (watches : List Watch) (e : AlertEvent) : Option Watch :=
  e.watchId.bind fun id => watches.find? (·.watchId = id)

/-- `_record_all`. -/
def recordAll (watches : List Watch) (policy : AlertPolicy) (now : Instant) :
    AlertStore → List AlertEvent → AlertStore × List RecordedAlert
  | s, [] => (s,[])
  | s, e :: es =>
    let watch := watchOf watches e
    let (s',r) := record e now (watch.elim policy.defaultCooldown (·.cooldown))
      (watch.elim true (·.enabled)) (watch.map (·.label)) s
    let (s'',rs) := recordAll watches policy now s' es
    (s'',r :: rs)

section Evaluating
variable {p : Platform} (sentence : ObjectChange → String) (ws : WatchTable p) (t : Table)
  (pass : Pass)

/-- Everything the watches of a pass read. -/
def rawChanges : List (Watch × ObjectChange) := ws.enabled.flatMap fun w => (readWatch p t pass w).1

/-- The candidates of a pass: what moved, then who gained. -/
def candidateEvents : Except PassError (List AlertEvent × List CoverageNote) := do
  let raw := rawChanges ws t pass
  let moved ← (eventsForChanges p ws.enabled pass.policy.enabledTriggers
    (raw.map fun r => noticeOf sentence pass r.2)).mapError .invalid
  let (xs,note) ← expansions pass raw
  let gained ← (eventsForAccessExpansions p ws.enabled pass.policy.enabledTriggers xs).mapError
    .invalid
  return (moved ++ gained,note)

/-- `evaluate_window`. -/
def evaluateWindow (s : AlertStore) : Except PassError (AlertStore × AlertEvaluation) :=
  if ws.enabled = [] then .ok (s,
    { startedAt := pass.windowTo
      windowFrom := pass.windowFrom
      windowTo := pass.windowTo
      watchesConsidered := 0
      changesExamined := 0
      recorded := []
      truncated := [] })
  else do
    let (events,note) ← candidateEvents sentence ws t pass
    let (s',recorded) := recordAll ws.enabled pass.policy pass.windowTo s events
    let read := ws.enabled.map (readWatch p t pass)
    return (s',
      { startedAt := pass.windowTo
        windowFrom := pass.windowFrom
        windowTo := pass.windowTo
        watchesConsidered := ws.enabled.length
        changesExamined := (read.map (·.2.1)).sum
        recorded := recorded
        truncated := read.flatMap (·.2.2) ++ note })

/-- A notification beside the instant it was given at. -/
structure Told where
  recorded : RecordedAlert
  notifiedAt : Instant

/-- A pass that raises is rolled back. -/
def runPass (s : AlertStore) : AlertStore × List Told :=
  match evaluateWindow sentence ws t pass s with
  | .error _ => (s,[])
  | .ok (s',e) => (s',e.notified.map fun r => ⟨r,pass.windowTo⟩)

/-- Passes one after another, and everything they notified. -/
def runPasses : AlertStore → List Pass → AlertStore × List Told
  | s, [] => (s,[])
  | s, pass :: passes =>
    let (s',told) := runPass sentence ws t pass s
    let (s'',later) := runPasses s' passes
    (s'',told ++ later)

end Evaluating

/-! ### The change an event is about -/

section Sources
variable {p : Platform} {sentence : ObjectChange → String} {ws : WatchTable p} {H : ChangeHistory}
  {pass : Pass}

/-- A key a kind has is there, and a key it has not is nowhere. -/
theorem firstKey_filled {column : Option String} (key : ObjectVersion → Option String)
    {v : ObjectVersion} {before : Option ObjectVersion} (hv : filled column (key v) = true)
    (hbefore : ∀ w, before = some w → filled column (key w) = true) :
    firstKey key v before = key v := by
  unfold filled at hv hbefore
  unfold firstKey
  cases column with
  | none =>
    have hnone : key v = none := Option.isNone_iff_eq_none.mp hv
    rw [hnone]
    cases before with
    | none => rfl
    | some w =>
      have hw : key w = none := Option.isNone_iff_eq_none.mp (hbefore w rfl)
      simp only [Option.bind_some, hw]
      rfl
  | some name =>
    cases hk : key v with
    | none =>
      rw [hk] at hv
      cases hv
    | some k =>
      rw [hk] at hv
      have hne : decide (k ≠ "") = true := hv
      rw [Option.filter_some, if_pos hne]
      rfl

/-- What a change is about is read from the version that opened. -/
structure Names (c : ObjectChange) : Prop where
  kind : c.kind = c.after.kind
  key : c.key = c.after.key
  container : c.subject.containerKey = c.after.containerKey
  related : c.subject.relatedKey = c.after.relatedKey

theorem opens_names {f : ChangeFilter} {inside : ObjectVersion → Bool} {c : ObjectChange}
    (h : Opens H.table f inside c) (hkind : c.kind ∈ membershipChangeKinds ++ aclChangeKinds) :
    Names c := by
  obtain ⟨page,s,hc,hrow,-⟩ := h
  have hk : c.kind = c.after.kind := by
    rw [hc]
    rfl
  rw [hk] at hkind
  have hnamed := H.named c.after hrow hkind
  have hprev : ∀ w, predecessor H.table page c.after = some w →
      filled (containerColumn c.after.kind) w.containerKey = true ∧
        filled (relatedColumn c.after.kind) w.relatedKey = true := by
    intro w hw
    obtain ⟨hwrow,hobj⟩ := predecessor_row hw
    have hwkind : w.kind = c.after.kind := congrArg Prod.fst hobj
    rw [← hwkind] at hkind ⊢
    exact H.named w hwrow hkind
  constructor
  · exact hk
  · rw [hc]
    rfl
  · have := firstKey_filled (·.containerKey) hnamed.1 fun w hw => (hprev w hw).1
    rw [hc]
    exact this
  · have := firstKey_filled (·.relatedKey) hnamed.2 fun w hw => (hprev w hw).2
    rw [hc]
    exact this

/-- A change a pass reads opened in its window. -/
def Read (H : ChangeHistory) (pass : Pass) (c : ObjectChange) : Prop :=
  c.after ∈ H.table.rows ∧ pass.windowFrom ≤ c.after.validFrom ∧ c.after.validFrom < pass.windowTo ∧
    (c.kind ∈ membershipChangeKinds ++ aclChangeKinds → Names c)

theorem build_filter {isoformat : Instant → String} {f g : ChangeFilter}
    (h : ChangeFilter.build isoformat f = .ok g) : g = f := by
  simp only [ChangeFilter.build] at h
  split_ifs at h
  cases h
  rfl

theorem feedFor_read {w : Watch} {page : Feed} (h : feedFor p H.table pass w = .ok page) :
    ∀ c ∈ page.changes, Read H pass c := by
  obtain ⟨scope,-,h⟩ := bind_ok.mp h
  obtain ⟨f,hf,h⟩ := bind_ok.mp h
  obtain ⟨predicates,hopens⟩ := feed_opens h
  intro c hc
  obtain ⟨-,-,-,hrow,hfrom,hto,-⟩ := hopens c hc
  rw [build_filter hf] at hfrom hto
  exact ⟨hrow,hfrom,hto,opens_names (hopens c hc)⟩

theorem rawChanges_read {r : Watch × ObjectChange} (h : r ∈ rawChanges ws H.table pass) :
    r.1 ∈ ws.enabled ∧ Read H pass r.2 := by
  obtain ⟨w,hw,hr⟩ := List.mem_flatMap.mp h
  unfold readWatch at hr
  cases hfeed : feedFor p H.table pass w with
  | error e =>
    rw [hfeed] at hr
    cases hr
  | ok page =>
    rw [hfeed] at hr
    obtain ⟨c,hc,rfl⟩ := List.mem_map.mp hr
    exact ⟨hw,feedFor_read hfeed c hc⟩

/-- The place a version is about. -/
def placeOf (v : ObjectVersion) : Option String :=
  if v.kind = .ntfsAce ∨ v.kind = .smbAce then v.containerKey else some v.key

/-- The key of the alert a version raises, by the trigger and the watch alone. -/
def noticeKey (p : Platform) (trigger : AlertTrigger) (w : Watch) (v : ObjectVersion) : String :=
  match trigger with
  | .watchedGroupMembershipChanged => keyAbout p trigger none none v.containerKey v.relatedKey
  | .watchedResourceAclChanged => keyAbout p trigger
      (if placeKind v.kind = .share then none else placeOf v)
      (if placeKind v.kind = .share then placeOf v else none) none v.relatedKey
  | .watchedAccessExpanded => keyAbout p trigger
      (if v.kind = .ntfsAce then v.containerKey else none)
      (if v.kind = .ntfsAce then none else some w.key) v.relatedKey none
  | .criticalRiskFindingOpened => ""

/-- An event about one version opening, through one watch. -/
structure Reports (p : Platform) (e : AlertEvent) (w : Watch) (v : ObjectVersion) : Prop where
  tells : Tells e w e.trigger v.kind v.key v.validFrom
  key : e.key = noticeKey p e.trigger w v

theorem eventsForChange_report {index : List Watch} {enabled : List AlertTrigger} {c : ObjectChange}
    (hread : Read H pass c) {es : List AlertEvent}
    (h : eventsForChange p index enabled (noticeOf sentence pass c) = .ok es) {e : AlertEvent}
    (he : e ∈ es) : ∃ w ∈ index, Reports p e w c.after := by
  obtain ⟨joined,hjoined,h⟩ := bind_ok.mp h
  obtain ⟨moved,hmoved,h⟩ := bind_ok.mp h
  cases h
  rcases List.mem_append.mp he with he | he
  · split_ifs at hjoined with hkind
    · have hnames := hread.2.2.2 (List.mem_append_left _ hkind)
      obtain ⟨w,hw,htells,hkey⟩ := membershipEvents_tell hjoined he
      refine ⟨w,hw,⟨?_,?_⟩⟩
      · rw [htells.trigger, ← hnames.kind, ← hnames.key]
        exact htells
      · rw [hkey, htells.trigger]
        unfold noticeKey
        rw [← hnames.container, ← hnames.related]
        rfl
    · cases hjoined
      cases he
  · split_ifs at hmoved with hkind
    · have hnames := hread.2.2.2 (List.mem_append_right _ hkind)
      obtain ⟨w,hw,htells,hkey⟩ := aclEvents_tell hmoved he
      refine ⟨w,hw,⟨?_,?_⟩⟩
      · rw [htells.trigger, ← hnames.kind, ← hnames.key]
        exact htells
      · rw [hkey, htells.trigger]
        unfold noticeKey placeOf
        rw [← hnames.container, ← hnames.related, ← hnames.kind, ← hnames.key]
        rfl
    · cases hmoved
      cases he

theorem mem_candidates {raw : List (Watch × ObjectChange)} {r : Watch × ObjectChange}
    (h : r ∈ candidates raw) : r ∈ raw ∧ (r.2.kind = .ntfsAce ∨ r.2.kind = .smbAce) := by
  obtain ⟨hraw,hp⟩ := List.mem_filter.mp ((sortedBy_perm _ _).mem_iff.mp h)
  simp only [Bool.and_eq_true, Bool.or_eq_true, decide_eq_true_eq] at hp
  exact ⟨hraw,hp.2⟩

/-- The watches keep one spelling of a key. -/
theorem same_key {w w' : Watch} (hw : w ∈ ws.enabled) (hw' : w' ∈ ws.enabled)
    (h : fold p w.key = fold p w'.key) : w.key = w'.key := by
  have hrow : ∀ x ∈ ws.enabled, x ∈ ws.rows := fun x hx =>
    List.mem_of_mem_filter ((sortedBy_perm _ _).mem_iff.mp hx)
  rw [← ws.folded w (hrow w hw), ← ws.folded w' (hrow w' hw'), h]

/-- What an expansion takes from its candidate. -/
structure Expands (r : Watch × ObjectChange) (x : AccessExpansion) : Prop where
  principal : x.principalKey = orBlank r.2.subject.relatedKey
  resource : x.resourceKey = if r.2.kind = .ntfsAce then r.2.subject.containerKey else none
  share : given x.resourceKey = false → x.shareKey = some r.1.key
  moment : x.at' = r.2.openedAt
  causeKind : x.causeKind = r.2.kind
  causeKey : x.causeKey = r.2.key

theorem expansionOf_expands {r : Watch × ObjectChange} {xs : List AccessExpansion}
    (h : expansionOf pass r = .ok xs) {x : AccessExpansion} (hx : x ∈ xs) : Expands r x := by
  unfold expansionOf at h
  dsimp only at h
  split at h
  · cases h
    cases hx
  · split at h
    · cases h
      rw [List.mem_singleton.mp hx]
      exact ⟨rfl,rfl,fun hnone => if_neg (Bool.eq_false_iff.mp hnone),rfl,rfl,rfl⟩
    · cases h

theorem eventsForExpansion_report {r : Watch × ObjectChange} (hwatch : r.1 ∈ ws.enabled)
    (hread : Read H pass r.2) (hkind : r.2.kind = .ntfsAce ∨ r.2.kind = .smbAce)
    {x : AccessExpansion} (hx : Expands r x) {es : List AlertEvent}
    (h : eventsForExpansion p ws.enabled x = .ok es) {e : AlertEvent} (he : e ∈ es) :
    ∃ w ∈ ws.enabled, Reports p e w r.2.after := by
  have hnames : Names r.2 := by
    apply hread.2.2.2
    rcases hkind with hk | hk <;> rw [hk] <;> decide
  have hrelated : orBlank (some x.principalKey) = orBlank r.2.after.relatedKey := by
    rw [hx.principal, hnames.related]
    rfl
  obtain ⟨w,hw,htells,⟨k,hplace,hfold⟩,hkey⟩ := eventsForExpansion_tell h he
  refine ⟨w,hw,⟨?_,?_⟩⟩
  · rw [hx.causeKind, hx.causeKey, hx.moment, hnames.kind, hnames.key] at htells
    rw [htells.trigger]
    exact htells
  · rw [hkey, htells.trigger]
    unfold noticeKey
    rcases hkind with hk | hk
    · have hentry : r.2.after.kind = .ntfsAce := hnames.kind ▸ hk
      have hresource : x.resourceKey = r.2.after.containerKey := by
        rw [hx.resource, if_pos hk, hnames.container]
      have hgiven : given x.resourceKey = true := by
        have hnamed := (H.named _ hread.1 (by rw [hentry]; decide)).1
        rw [hentry] at hnamed
        rw [hresource]
        exact hnamed
      have hresources : x.kind = .resource := if_pos hgiven
      rw [if_pos hresources, if_pos hresources, if_pos hentry, if_pos hentry, hresource]
      unfold keyAbout
      rw [hrelated]
    · have hentry : r.2.after.kind = .smbAce := hnames.kind ▸ hk
      have hnone : x.resourceKey = none := by
        rw [hx.resource, if_neg (by rw [hk]; decide)]
      have hshare : x.shareKey = some r.1.key := hx.share (by rw [hnone]; rfl)
      have hshares : ¬ x.kind = .resource := by
        unfold AccessExpansion.kind
        rw [hnone]
        decide
      have hother : ¬ r.2.after.kind = .ntfsAce := by
        rw [hentry]
        decide
      rw [hnone, hshare] at hplace
      cases hplace
      rw [if_neg hshares, if_neg hshares, if_neg hother, if_neg hother, hshare,
        same_key hw hwatch hfold]
      unfold keyAbout
      rw [hrelated]

/-- What an event of a pass is about: a version of its window, seen through a watch. -/
def Sourced (ws : WatchTable p) (H : ChangeHistory) (pass : Pass) (e : AlertEvent) : Prop :=
  ∃ w ∈ ws.enabled, ∃ v ∈ H.table.rows, v.validFrom < pass.windowTo ∧ Reports p e w v

theorem moved_sourced {moved : List AlertEvent}
    (h : eventsForChanges p ws.enabled pass.policy.enabledTriggers
      ((rawChanges ws H.table pass).map fun r => noticeOf sentence pass r.2) = .ok moved) :
    ∀ e ∈ moved, Sourced ws H pass e := by
  intro e he
  obtain ⟨n,hn,es,hes,he⟩ := mem_flatten_mapM h he
  obtain ⟨r,hr,rfl⟩ := List.mem_map.mp hn
  have hread := (rawChanges_read hr).2
  obtain ⟨w,hw,hreport⟩ := eventsForChange_report hread hes he
  exact ⟨w,hw,r.2.after,hread.1,hread.2.2.1,hreport⟩

theorem gained_sourced {found : List AccessExpansion × List CoverageNote}
    (hx : expansions pass (rawChanges ws H.table pass) = .ok found) {gained : List AlertEvent}
    (h : eventsForAccessExpansions p ws.enabled pass.policy.enabledTriggers found.1 = .ok gained) :
    ∀ e ∈ gained, Sourced ws H pass e := by
  intro e he
  unfold eventsForAccessExpansions at h
  split at h
  · cases h
    cases he
  · obtain ⟨x,hxs,es,hes,he⟩ := mem_flatten_mapM h he
    obtain ⟨xss,hm,rfl⟩ := map_ok.mp hx
    obtain ⟨xs,hxs',hin⟩ := List.mem_flatten.mp hxs
    obtain ⟨r,hr,hex⟩ := mem_mapM hm hxs'
    obtain ⟨hraw,hkind⟩ := mem_candidates (List.mem_of_mem_take hr)
    obtain ⟨hwatch,hread⟩ := rawChanges_read hraw
    obtain ⟨w,hw,hreport⟩ := eventsForExpansion_report hwatch hread hkind
      (expansionOf_expands hex hin) hes he
    exact ⟨w,hw,r.2.after,hread.1,hread.2.2.1,hreport⟩

theorem candidateEvents_sourced {events : List AlertEvent} {note : List CoverageNote}
    (h : candidateEvents sentence ws H.table pass = .ok (events,note)) :
    ∀ e ∈ events, Sourced ws H pass e := by
  obtain ⟨moved,hmoved,h⟩ := bind_ok.mp h
  obtain ⟨found,hfound,h⟩ := bind_ok.mp h
  obtain ⟨gained,hgained,h⟩ := bind_ok.mp h
  cases h
  intro e he
  rcases List.mem_append.mp he with he | he
  · exact moved_sourced (mapError_ok.mp hmoved) e he
  · exact gained_sourced hfound (mapError_ok.mp hgained) e he

end Sources

/-! ### What passes notify -/

section Notifying
variable {p : Platform} {sentence : ObjectChange → String} {ws : WatchTable p} {H : ChangeHistory}

theorem enabled_row {w : Watch} (hw : w ∈ ws.enabled) : w ∈ ws.rows ∧ w.enabled = true :=
  List.mem_filter.mp ((sortedBy_perm _ _).mem_iff.mp hw)

/-- The watch a notification came through is the one its number names. -/
theorem watch_found {w : Watch} (hw : w ∈ ws.enabled) :
    ws.enabled.find? (·.watchId = w.watchId) = some w := by
  have hnodup : (ws.enabled.map (·.watchId)).Nodup := by
    have hperm := (sortedBy_perm (fun w : Watch => toLex (w.kind.value,w.key))
      (ws.rows.filter (·.enabled))).map (·.watchId)
    exact hperm.nodup_iff.mpr (ws.ids_nodup.sublist (List.filter_sublist.map _))
  exact find_keyed hnodup hw

/-- How long the watch of a notification keeps quiet. -/
def quietOf (ws : WatchTable p) (watchId : Option String) : Instant :=
  (watchId.bind fun id => ws.enabled.find? (·.watchId = id)).elim 0 (·.cooldown)

theorem quietOf_watch {w : Watch} (hw : w ∈ ws.enabled) :
    quietOf ws (some w.watchId) = w.cooldown := by
  unfold quietOf
  rw [Option.bind_some, watch_found hw]
  rfl

/-- A notification as a notice about its alert. -/
def Told.notice (ws : WatchTable p) (x : Told) : Notice String Instant where
  topic := x.recorded.alertKey
  occurred := x.recorded.occurredAt
  given := x.notifiedAt
  quiet := quietOf ws x.recorded.watchId

/-- One version opening, seen through one watch and one trigger. -/
structure Seen (ws : WatchTable p) (H : ChangeHistory) (x : Told) : Prop where
  source : ∃ w ∈ ws.enabled, ∃ v ∈ H.table.rows, x.recorded.watchId = some w.watchId ∧
    cause x.recorded.payload = (some v.kind.value,some v.key) ∧
    x.recorded.occurredAt = v.validFrom ∧
    x.recorded.alertKey = noticeKey p x.recorded.trigger w v

/-- What a run has told so far, and what it remembers of it. -/
structure Faithful (ws : WatchTable p) (H : ChangeHistory) (s : AlertStore) (told : List Told) :
    Prop where
  unresolved : Unresolved s
  spaced : Spaced (lastNotified s) (told.map (Told.notice ws))
  seen : ∀ x ∈ told, Seen ws H x

/-- What `_record_all` does with one event: the notification it makes, if it makes one. -/
def toldOf (now : Instant) (r : RecordedAlert) : List Told := if r.notified then [⟨r,now⟩] else []

theorem told_filter (now : Instant) (rs : List RecordedAlert) :
    rs.flatMap (toldOf now) = (rs.filter (·.notified)).map fun r => ⟨r,now⟩ := by
  induction rs with
  | nil => rfl
  | cons r rs ih =>
    rw [List.flatMap_cons, List.filter_cons, ih]
    unfold toldOf
    split_ifs <;> rfl

/-- No watch has a negative cooldown. -/
def Patient (ws : WatchTable p) : Prop := ∀ w ∈ ws.rows, 0 ≤ w.cooldown

theorem record_faithful (hcool : Patient ws) {s : AlertStore} {told : List Told}
    (h : Faithful ws H s told) {pass : Pass} {e : AlertEvent} (he : Sourced ws H pass e)
    (label : Option String) {cooldown : Instant}
    (hquiet : ∀ w ∈ ws.enabled, e.watchId = some w.watchId → cooldown = w.cooldown) :
    let out := record e pass.windowTo cooldown true label s
    Onward (lastNotified s) (lastNotified out.1) ∧
      Faithful ws H out.1 (told ++ toldOf pass.windowTo out.2) := by
  intro out
  obtain ⟨w,hw,v,hv,hbefore,hreport⟩ := he
  have hwatch := hreport.tells.watch
  have hwaits : ∀ m, (decisionFor s e cooldown true).notifies = true →
      lastNotified s e.key = some m → m+cooldown ≤ e.occurredAt :=
    fun m hn hm => record_waits h.unresolved hn hm
  have hpatient : 0 ≤ cooldown := by
    rw [hquiet w hw hwatch]
    exact hcool w (enabled_row hw).1
  have hpast : e.occurredAt < pass.windowTo := by
    rw [hreport.tells.occurred]
    exact hbefore
  have hlast : ∀ key, lastNotified out.1 key =
      if key = e.key ∧ (decisionFor s e cooldown true).notifies = true then some pass.windowTo
      else lastNotified s key := record_lastNotified
  have honward : Onward (lastNotified s) (lastNotified out.1) := by
    intro key m hm
    rw [hlast key]
    split_ifs with hkey
    · refine ⟨pass.windowTo,rfl,?_⟩
      calc m ≤ m+cooldown := le_add_of_nonneg_right hpatient
        _ ≤ e.occurredAt := hwaits m hkey.2 (hkey.1 ▸ hm)
        _ ≤ pass.windowTo := hpast.le
    · exact ⟨m,hm,le_rfl⟩
  refine ⟨honward,record_unresolved h.unresolved,?_,?_⟩
  · unfold toldOf
    split_ifs with hn
    · rw [List.map_append]
      have hkey : (Told.notice ws ⟨out.2,pass.windowTo⟩).quiet = cooldown := by
        show quietOf ws e.watchId = cooldown
        rw [hwatch, quietOf_watch hw, hquiet w hw hwatch]
      apply h.spaced.snoc
      · exact ⟨hpast,hkey ▸ hpatient⟩
      · intro m hm
        rw [hkey]
        exact hwaits m hn hm
      · exact honward
      · have := hlast e.key
        rw [if_pos ⟨rfl,hn⟩] at this
        exact this
    · rw [List.append_nil]
      exact h.spaced.onward honward
  · intro x hx
    rcases List.mem_append.mp hx with hx | hx
    · exact h.seen x hx
    · unfold toldOf at hx
      split_ifs at hx
      · rw [List.mem_singleton.mp hx]
        exact ⟨w,hw,v,hv,hwatch,hreport.tells.cause,hreport.tells.occurred,hreport.key⟩
      · cases hx

theorem recordAll_faithful (hcool : Patient ws) {pass : Pass} {events : List AlertEvent}
    (hsource : ∀ e ∈ events, Sourced ws H pass e) {s : AlertStore} {told : List Told}
    (h : Faithful ws H s told) :
    let out := recordAll ws.enabled pass.policy pass.windowTo s events
    Onward (lastNotified s) (lastNotified out.1) ∧
      Faithful ws H out.1 (told ++ out.2.flatMap (toldOf pass.windowTo)) := by
  induction events generalizing s told with
  | nil =>
    refine ⟨Onward.refl _,?_⟩
    simpa [recordAll] using h
  | cons e es ih =>
    have he := hsource e List.mem_cons_self
    obtain ⟨w,hw,v,hv,hbefore,hreport⟩ := he
    have hfound : watchOf ws.enabled e = some w := by
      unfold watchOf
      rw [hreport.tells.watch]
      exact watch_found hw
    have hquiet : ∀ w' ∈ ws.enabled, e.watchId = some w'.watchId → w.cooldown = w'.cooldown := by
      intro w' hw' hid
      rw [hreport.tells.watch] at hid
      rw [← quietOf_watch hw, hid, quietOf_watch hw']
    obtain ⟨hon,hone⟩ := record_faithful hcool h (hsource e List.mem_cons_self)
      (some w.label) hquiet
    obtain ⟨hrest,hall⟩ := ih (fun e he => hsource e (List.mem_cons_of_mem _ he)) hone
    simp only [recordAll, hfound, Option.elim_some, Option.map_some, (enabled_row hw).2]
    refine ⟨hon.trans hrest,?_⟩
    rw [List.flatMap_cons, ← List.append_assoc]
    exact hall

theorem runPass_faithful (sentence : ObjectChange → String) (hcool : Patient ws) {s : AlertStore} {told : List Told} (h : Faithful ws H s told)
    (pass : Pass) :
    let out := runPass sentence ws H.table pass s
    Onward (lastNotified s) (lastNotified out.1) ∧ Faithful ws H out.1 (told ++ out.2) := by
  have hstay : Onward (lastNotified s) (lastNotified s) ∧ Faithful ws H s (told ++ []) := by
    rw [List.append_nil]
    exact ⟨Onward.refl _,h⟩
  unfold runPass evaluateWindow
  split_ifs
  · exact hstay
  · cases hev : candidateEvents sentence ws H.table pass with
    | error d => exact hstay
    | ok found =>
      have hall := recordAll_faithful hcool (candidateEvents_sourced hev) h
      dsimp only at hall
      rw [told_filter] at hall
      exact hall

theorem runPasses_append (t : Table) (earlier later : List Pass) (s : AlertStore) :
    (runPasses sentence ws t s (earlier ++ later)).1 =
      (runPasses sentence ws t (runPasses sentence ws t s earlier).1 later).1 := by
  induction earlier generalizing s with
  | nil => rfl
  | cons pass earlier ih => exact ih _

theorem runPasses_faithful (sentence : ObjectChange → String) (hcool : Patient ws) (passes : List Pass) {s : AlertStore} {told : List Told}
    (h : Faithful ws H s told) :
    let out := runPasses sentence ws H.table s passes
    Onward (lastNotified s) (lastNotified out.1) ∧ Faithful ws H out.1 (told ++ out.2) := by
  induction passes generalizing s told with
  | nil =>
    refine ⟨Onward.refl _,?_⟩
    simpa [runPasses] using h
  | cons pass passes ih =>
    obtain ⟨hon,hone⟩ := runPass_faithful sentence hcool h pass
    obtain ⟨hrest,hall⟩ := ih hone
    refine ⟨hon.trans hrest,?_⟩
    simp only [runPasses]
    rw [← List.append_assoc]
    exact hall

/-- What a notification is about: one version opening, seen through one watch and trigger. -/
structure About (x : Told) (trigger : AlertTrigger) (w : Watch) (v : ObjectVersion) : Prop where
  trigger : x.recorded.trigger = trigger
  watch : x.recorded.watchId = some w.watchId
  cause : cause x.recorded.payload = (some v.kind.value,some v.key)
  occurred : x.recorded.occurredAt = v.validFrom

theorem value_injective : Function.Injective ObservationKind.value := by
  intro a b h
  cases a <;> cases b <;> first | rfl | exact absurd h (by decide)

/-- A version is known by its object and the instant it opened. -/
theorem row_of_opening {t : Table} {v v' : ObjectVersion} (hv : v ∈ t.rows) (hv' : v' ∈ t.rows)
    (hkind : v.kind = v'.kind) (hkey : v.key = v'.key) (hfrom : v.validFrom = v'.validFrom) :
    v = v' := by
  by_contra hne
  exact (t.compatible_of_ne hv hv' hne (Prod.ext hkind hkey)).1 hfrom

theorem topic_of_about {x : Told} (hx : Seen ws H x) {trigger : AlertTrigger} {w : Watch}
    (hw : w ∈ ws.rows) {v : ObjectVersion} (hv : v ∈ H.table.rows) (h : About x trigger w v) :
    x.recorded.alertKey = noticeKey p trigger w v := by
  obtain ⟨w',hw',v',hv',hwatch,hcause,hoccurred,hkey⟩ := hx.source
  have hsame : w' = w := by
    rw [h.watch] at hwatch
    exact List.inj_on_of_nodup_map ws.ids_nodup (enabled_row hw').1 hw
      (Option.some.inj hwatch).symm
  rw [h.cause] at hcause
  rw [h.occurred] at hoccurred
  have hrow : v' = v := by
    apply row_of_opening hv' hv
    · exact value_injective (Option.some.inj (congrArg Prod.fst hcause)).symm
    · exact (Option.some.inj (congrArg Prod.snd hcause)).symm
    · exact hoccurred.symm
  rw [hkey, hsame, hrow, h.trigger]

theorem blank_faithful (ws : WatchTable p) (H : ChangeHistory) :
    Faithful ws H AlertStore.blank [] := by
  constructor
  · intro key a ha
    cases ha
  · exact spaced_nil _
  · intro x hx
    cases hx

/-- Whatever the windows are: every notification is about one version opening,
no two are about the same one through the same watch and trigger, the instant
of the last notification of an alert only moves on, and between two
notifications of one alert lies the cooldown. -/
theorem notified_once (sentence : ObjectChange → String) {ws : WatchTable p} (hcool : Patient ws)
    (H : ChangeHistory) (passes : List Pass) :
    let told := (runPasses sentence ws H.table AlertStore.blank passes).2
    (∀ x ∈ told, ∃ w ∈ ws.rows, ∃ v ∈ H.table.rows, About x x.recorded.trigger w v) ∧
    (told.Pairwise fun a b => ∀ trigger, ∀ w ∈ ws.rows, ∀ v ∈ H.table.rows,
      ¬ (About a trigger w v ∧ About b trigger w v)) ∧
    (∀ earlier later, passes = earlier ++ later →
      Onward (lastNotified (runPasses sentence ws H.table AlertStore.blank earlier).1)
        (lastNotified (runPasses sentence ws H.table AlertStore.blank passes).1)) ∧
    told.Pairwise fun a b => a.recorded.alertKey = b.recorded.alertKey →
      ∃ w ∈ ws.rows, b.recorded.watchId = some w.watchId ∧
        a.notifiedAt+w.cooldown ≤ b.recorded.occurredAt := by
  intro told
  have hrun := (runPasses_faithful sentence hcool passes
    (blank_faithful ws H)).2
  rw [List.nil_append] at hrun
  have hincreasing := List.pairwise_map.mp hrun.spaced.increasing
  have hapart := List.pairwise_map.mp hrun.spaced.apart
  refine ⟨?_,?_,?_,?_⟩
  · intro x hx
    obtain ⟨w,hw,v,hv,hwatch,hcause,hoccurred,-⟩ := (hrun.seen x hx).source
    exact ⟨w,(enabled_row hw).1,v,hv,rfl,hwatch,hcause,hoccurred⟩
  · apply hincreasing.imp_of_mem
    intro a b ha hb hlt trigger w hw v hv habout
    have htopic : a.recorded.alertKey = b.recorded.alertKey := by
      rw [topic_of_about (hrun.seen a ha) hw hv habout.1,
        topic_of_about (hrun.seen b hb) hw hv habout.2]
    have hsame : a.recorded.occurredAt = b.recorded.occurredAt := by
      rw [habout.1.occurred, habout.2.occurred]
    exact (hlt htopic).ne hsame
  · intro earlier later hpasses
    subst hpasses
    rw [runPasses_append]
    exact (runPasses_faithful sentence hcool later
      (runPasses_faithful sentence hcool earlier
        (blank_faithful ws H)).2).1
  · apply hapart.imp_of_mem
    intro a b ha hb hspace htopic
    obtain ⟨w,hw,v,hv,hwatch,-⟩ := (hrun.seen b hb).source
    refine ⟨w,(enabled_row hw).1,hwatch,?_⟩
    rw [← quietOf_watch hw, ← hwatch]
    exact hspace htopic

end Notifying

namespace Sample

def platform : Platform := ⟨id,id,fun _ => "2026-03-09T08:30:00+00:00"⟩

def folder : String := "\\\\fs01\\finance"

/-- An entry of the folder, first read at the instant 10. -/
def entry : ObjectVersion where
  versionId := 0
  kind := .ntfsAce
  key := folder ++ "|principal|S-1-5-21-1-2-3-1104|allow|2032127|3"
  containerKey := some folder
  relatedKey := some "principal|S-1-5-21-1-2-3-1104"
  isPresent := true
  state := some []
  stateHash := some ""
  validFrom := 10
  lastSeenAt := 10
  openedByRunId := "run"
  lastSeenRunId := "run"

theorem entry_ids : ∀ v ∈ [entry], v.versionId < 1 := by decide

theorem entry_checks : ∀ v ∈ [entry], checks v = true := by decide

theorem entry_named : ∀ v ∈ [entry], Named v := by
  intro v hv
  rw [List.mem_singleton.mp hv]
  exact fun _ => ⟨by decide,by decide⟩

def history : ChangeHistory where
  table := ⟨[entry],1,entry_ids,List.nodup_singleton _,entry_checks,List.pairwise_singleton _ _⟩
  named := entry_named

def watch : Watch where
  watchId := "finance"
  kind := .resource
  key := folder
  label := "Finance"
  triggers := [.watchedResourceAclChanged]
  cooldown := 60000000

theorem watch_folded : ∀ w ∈ [watch], fold platform w.key = w.key := by decide +kernel

def watches : WatchTable platform :=
  ⟨[watch],List.nodup_singleton _,List.nodup_singleton _,watch_folded⟩

theorem watches_patient : Patient watches := by
  intro w hw
  rw [List.mem_singleton.mp hw]
  decide

/-- A pass that finds the trustee under a name. -/
def pass (windowFrom windowTo : Instant) (name : String) : Pass where
  windowFrom := windowFrom
  windowTo := windowTo
  names := fun _ => some name
  impact := fun _ _ _ _ => none
  policy := ⟨[.watchedResourceAclChanged],900000000⟩

def sentence (c : ObjectChange) : String := c.ruleId

/-- Two overlapping passes, between which the trustee was renamed. -/
def passes : List Pass := [pass 0 20 "Ann", pass 5 40 "Anna"]

def told : List Told := (runPasses sentence watches history.table AlertStore.blank passes).2

end Sample

open Sample in
/-- An entry read again under another display name is not told of again. -/
theorem renamed_trustee_told_once :
    told.Pairwise fun a b => ∀ trigger, ∀ w ∈ watches.rows, ∀ v ∈ history.table.rows,
      ¬ (About a trigger w v ∧ About b trigger w v) :=
  (notified_once sentence watches_patient history passes).2.1

end Adg.AlertPasses
