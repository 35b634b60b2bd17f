import Adg.LiveEstate
import Adg.RunObservations
import Adg.ScopeBoundary

/-!
# What a reconciliation hides

Closing scopes one after another hides the objects whose open version is lost to
one of them, and no others. It reaches outside the scopes when a domain run
reported principals of a domain it did not enumerate.
-/

set_option autoImplicit false

namespace Adg.Reconciliation
open Adg.Observation Adg.ObjectVersions Adg.KeyedTables Adg.VersionTable Adg.CurrentState
open Adg.ScopeClosure Adg.HistoryWriter Adg.HistorySteps Adg.ClosureSteps Adg.HistoryRuns
open Adg.Ingestion Adg.LiveEstate Adg.ScopeBoundary
open Adg.Fallible (bind_ok map_ok)

/-- An open tombstone hides the object. -/
def Hidden (t : Table) (kind : ObservationKind) (key : String) : Prop :=
  ∃ v, openVersion t kind key = some v ∧ v.isPresent = false

section Closing
variable {casefold : String → String} {db db' : Database} {runId : RunId}
  {collector : CollectorKind} {completedAt : Instant} {kind : ObservationKind} {key : String}

/-- Lost to one of the scopes. -/
def LostTo (casefold : String → String) (db : Database) (runId : RunId)
    (collector : CollectorKind) (completedAt : Instant) (scopes : List Scope)
    (v : ObjectVersion) : Prop :=
  ∃ scope ∈ scopes, lostToScope casefold db runId collector scope.1 scope.2 completedAt v = true

/-- Which versions are lost does not depend on what was closed before. -/
theorem lostToScope_versions (t : Table) (scope : Scope) (v : ObjectVersion) :
    lostToScope casefold { db with versions := t } runId collector scope.1 scope.2 completedAt v =
      lostToScope casefold db runId collector scope.1 scope.2 completedAt v := by
  rw [Bool.eq_iff_iff, lostToScope_iff, lostToScope_iff]
  exact Iff.rfl

section Scope
variable {scope : Scope} {t' : Table} {o : ClosureOutcome}

/-- The present versions that stay open are the ones the scope does not lose. -/
theorem closeAbsent_open
    (h : closeAbsent casefold db runId collector scope.1 scope.2 completedAt = .ok (t',o))
    {v : ObjectVersion} : openVersion t' kind key = some v ∧ v.isPresent = true ↔
      openVersion db.versions kind key = some v ∧ v.isPresent = true ∧
        lostToScope casefold db runId collector scope.1 scope.2 completedAt v = false := by
  obtain ⟨news,hrows,hnews⟩ := closeAbsent_rows h
  rw [openVersion_some, openVersion_some]
  constructor
  · rintro ⟨⟨hv,hobj,hopen⟩,hp⟩
    rcases mem_moved hrows v hv with ⟨w,hw,rfl⟩ | ⟨x,hx,m,-,rfl⟩
    · rw [absented_object] at hobj
      rcases absented_cases w with ⟨hl,hw'⟩ | ⟨-,-,hw'⟩ | ⟨-,hwp,hw'⟩ <;> rw [hw'] at hopen hp ⊢
      · exact ⟨⟨hw,hobj,hopen⟩,hp,hl⟩
      · cases hopen
      · rw [show ((reaffirmation w completedAt runId).2 w).isPresent = w.isPresent from rfl,
          hwp] at hp
        cases hp
    · obtain ⟨w,-,-,-,rfl⟩ := (hnews x).mp hx
      cases hp
  · rintro ⟨⟨hv,hobj,hopen⟩,hp,hl⟩
    have hsame : absented casefold db runId collector scope.1 scope.2 completedAt v = v := by
      unfold absented
      rw [hl]
      rfl
    exact ⟨⟨hsame ▸ moved_stored hrows v hv,hobj,hopen⟩,hp⟩

/-- What is hidden afterwards was hidden before or lost to the scope. -/
theorem closeAbsent_hidden
    (h : closeAbsent casefold db runId collector scope.1 scope.2 completedAt = .ok (t',o)) :
    Hidden t' kind key ↔ ∃ v, openVersion db.versions kind key = some v ∧ (v.isPresent = false ∨
      lostToScope casefold db runId collector scope.1 scope.2 completedAt v = true) := by
  obtain ⟨news,hrows,hnews⟩ := closeAbsent_rows h
  constructor
  · rintro ⟨w,hw,hp⟩
    obtain ⟨hw,hobj,hopen⟩ := openVersion_some.mp hw
    rcases mem_moved hrows w hw with ⟨v,hv,rfl⟩ | ⟨x,hx,m,-,rfl⟩
    · rw [absented_object] at hobj
      rcases absented_cases v with ⟨-,hv'⟩ | ⟨-,-,hv'⟩ | ⟨-,hvp,hv'⟩ <;> rw [hv'] at hopen hp
      · exact ⟨v,openVersion_some.mpr ⟨hv,hobj,hopen⟩,.inl hp⟩
      · cases hopen
      · exact ⟨v,openVersion_some.mpr ⟨hv,hobj,hopen⟩,.inl hvp⟩
    · obtain ⟨v,hv,hl,-,rfl⟩ := (hnews x).mp hx
      exact ⟨v,openVersion_some.mpr ⟨hv,hobj,(lostToScope_open hl).1⟩,.inr hl⟩
  · rintro ⟨v,hv,hp⟩
    obtain ⟨hm,hobj,hopen⟩ := openVersion_some.mp hv
    cases hvp : v.isPresent with
    | true =>
      have hl := hp.resolve_left (by simp [hvp])
      obtain ⟨m,hm⟩ := moved_added hrows (tombstone v completedAt runId)
        ((hnews _).mpr ⟨v,hm,hl,hvp,rfl⟩)
      exact ⟨_,openVersion_some.mpr ⟨hm,hobj,rfl⟩,rfl⟩
    | false =>
      refine ⟨_,openVersion_some.mpr ⟨moved_stored hrows v hm,(absented_object v).trans hobj,?_⟩,?_⟩
      · rcases absented_cases v with ⟨-,hv'⟩ | ⟨-,hvt,-⟩ | ⟨-,-,hv'⟩
        · rw [hv', hopen]
        · rw [hvp] at hvt
          cases hvt
        · rw [hv']
          exact hopen
      · rcases absented_cases v with ⟨-,hv'⟩ | ⟨-,hvt,-⟩ | ⟨-,-,hv'⟩
        · rw [hv', hvp]
        · rw [hvp] at hvt
          cases hvt
        · rw [hv']
          exact hvp

end Scope

/-- What a completion hides. -/
theorem closeReconciled_hidden {scopes : List Scope} {o : List ClosureOutcome}
    (h : closeReconciled casefold runId collector completedAt scopes db = .ok (db',o)) :
    Hidden db'.versions kind key ↔ ∃ v, openVersion db.versions kind key = some v ∧
      (v.isPresent = false ∨ LostTo casefold db runId collector completedAt scopes v) := by
  induction scopes generalizing db o with
  | nil =>
    obtain rfl : db = db' := (Prod.mk.inj (Except.ok.inj h)).1
    exact exists_congr fun v => and_congr_right fun _ =>
      ⟨.inl,fun hv => hv.resolve_right fun ⟨s,hs,_⟩ => List.not_mem_nil hs⟩
  | cons scope scopes ih =>
    obtain ⟨⟨t1,o1⟩,h1,h⟩ := bind_ok.mp h
    obtain ⟨⟨db2,o2⟩,h2,h⟩ := bind_ok.mp h
    obtain rfl : db2 = db' := (Prod.mk.inj (Except.ok.inj h)).1
    rw [ih h2]
    have hlost : ∀ v, LostTo casefold { db with versions := t1 } runId collector completedAt scopes v ↔
        LostTo casefold db runId collector completedAt scopes v := fun v =>
      exists_congr fun s => and_congr_right fun _ => by rw [lostToScope_versions]
    simp only [hlost]
    show (∃ v, openVersion t1 kind key = some v ∧ _) ↔ _
    constructor
    · rintro ⟨v,hv,hp⟩
      cases hvp : v.isPresent with
      | false =>
        obtain ⟨w,hw,hwl⟩ := (closeAbsent_hidden h1).mp ⟨v,hv,hvp⟩
        exact ⟨w,hw,hwl.imp_right fun hl => ⟨scope,List.mem_cons_self,hl⟩⟩
      | true =>
        obtain ⟨s,hs,hl⟩ := hp.resolve_left (by simp [hvp])
        exact ⟨v,((closeAbsent_open h1).mp ⟨hv,hvp⟩).1,.inr ⟨s,List.mem_cons_of_mem _ hs,hl⟩⟩
    · rintro ⟨v,hv,hp⟩
      by_cases hhead : v.isPresent = false ∨
          lostToScope casefold db runId collector scope.1 scope.2 completedAt v = true
      · obtain ⟨w,hw,hwp⟩ := (closeAbsent_hidden h1).mpr ⟨v,hv,hhead⟩
        exact ⟨w,hw,.inl hwp⟩
      · obtain ⟨hvp,hl⟩ := not_or.mp hhead
        rw [Bool.not_eq_false] at hvp
        rw [Bool.not_eq_true] at hl
        refine ⟨v,((closeAbsent_open h1).mpr ⟨hv,hvp,hl⟩).1,.inr ?_⟩
        obtain ⟨s,hs,hsl⟩ := hp.resolve_left (by simp [hvp])
        rcases List.mem_cons.mp hs with rfl | hs
        · rw [hl] at hsl
          cases hsl
        · exact ⟨s,hs,hsl⟩

end Closing

/-! ### Nothing outside the boundary -/

section Boundary
variable (casefold : String → String) (enumerated : List String) (db : Database) (c : Completion)

/-- A completion tombstones an object whose open version was present. -/
def Tombstoned (db' : Database) (kind : ObservationKind) (key : String) : Prop :=
  (∃ v, openVersion db.versions kind key = some v ∧ v.isPresent = true) ∧
    Hidden db'.versions kind key

/-- What entitles a completion to tombstone an object, where `enumerated` are the
domains its run enumerated. -/
structure Entitled (kind : ObservationKind) (key : String) : Prop where
  inside : ∃ scope ∈ c.scopes, kind ∈ (closureRulesFor c.collector scope.1).map (·.kind) ∧
    ∃ r, db.row kind key = some r ∧ Inside casefold enumerated db scope kind (key,r)
  unobserved : db.observed c.runId kind key = false
  unconfirmed : ∀ v ∈ db.versions.rows, v.object = (kind,key) → v.lastSeenAt ≤ c.completedAt

/-- A present object that the run did not observe and nothing newer confirmed. -/
def Unseen (kind : ObservationKind) (key : String) : Prop :=
  db.observed c.runId kind key = false ∧ ∃ v, openVersion db.versions kind key = some v ∧
    v.isPresent = true ∧ v.lastSeenAt ≤ c.completedAt

/-- A principal, not of a host, of a domain that the run reported a principal of but
did not enumerate. -/
def Foreign (key : String) : Prop :=
  ∃ r, db.row .principal key = some r ∧ Database.column .principal (key,r) "host_key" = none ∧
    ∃ d, Database.column .principal (key,r) "domain_sid" = some d ∧ d ∉ enumerated ∧
      d ∈ domainsObservedBy db c.runId

/-- A domain run that reconciles its domain has seen every present foreign principal
and every present edge of one. -/
def NoForeignLoss : Prop :=
  c.collector = .activeDirectory → (∃ scope ∈ c.scopes, scope.1 = .domain) →
    (∀ key, Unseen db c .principal key → ¬ Foreign enumerated db c key) ∧
    ∀ key r, Unseen db c .membershipEdge key → db.row .membershipEdge key = some r →
      Database.column .membershipEdge (key,r) "host_key" = none → ∀ g,
        Database.column .membershipEdge (key,r) "group_key" = some g → ¬ Foreign enumerated db c g

end Boundary

section Bounded
variable {casefold : String → String} {enumerated domains : List String} {db db' : Database}
  {c : Completion} {kind : ObservationKind} {key : String}

/-- The domains matter in a domain scope only. -/
theorem ownInside_domains {scope : Scope} {entry : String × StoredRow} (hs : scope.1 ≠ .domain)
    (h : OwnInside casefold domains scope kind entry) :
    OwnInside casefold enumerated scope kind entry := by
  obtain ⟨scopeKind,scopeKey⟩ := scope
  cases scopeKind with
  | domain => exact absurd rfl hs
  | server | share | directoryTree | localGroupsHost => cases kind <;> exact h

theorem inside_domains {scope : Scope} {entry : String × StoredRow} (hs : scope.1 ≠ .domain)
    (h : Inside casefold domains db scope kind entry) :
    Inside casefold enumerated db scope kind entry := by
  cases kind with
  | smbAce | ntfsAce =>
    obtain ⟨e,he,hcol,hin⟩ := h
    exact ⟨e,he,hcol,ownInside_domains hs hin⟩
  | membershipEdge => exact .inl (ownInside_domains hs (h.resolve_right fun hd => hs hd.1))
  | principal | server | smbShare | ntfsResource => exact ownInside_domains hs h

theorem domain_rules {collector : CollectorKind}
    (h : kind ∈ (closureRulesFor collector .domain).map (·.kind)) :
    collector = .activeDirectory ∧ (kind = .principal ∨ kind = .membershipEdge) := by
  cases collector with
  | activeDirectory => exact ⟨rfl,List.mem_pair.mp h⟩
  | smb | ntfs | localGroups => cases h

/-- What a completion tombstones was lost to one of its scopes. -/
theorem tombstoned_iff {o : List ClosureOutcome}
    (h : closeReconciled casefold c.runId c.collector c.completedAt c.scopes db = .ok (db',o)) :
    Tombstoned db db' kind key ↔ Unseen db c kind key ∧ ∃ scope ∈ c.scopes,
      kind ∈ (closureRulesFor c.collector scope.1).map (·.kind) ∧ ∃ r, db.row kind key = some r ∧
        Inside casefold (domainsObservedBy db c.runId) db scope kind (key,r) := by
  unfold Tombstoned
  rw [closeReconciled_hidden h]
  constructor
  · rintro ⟨⟨v,hv,hp⟩,w,hw,hlost⟩
    obtain rfl : v = w := Option.some.inj (hv.symm.trans hw)
    obtain ⟨scope,hs,hl⟩ := hlost.resolve_left (by simp [hp])
    obtain ⟨-,hle,hk,ho,hin⟩ := lostToScope_iff.mp hl
    obtain ⟨rfl,rfl⟩ := Prod.mk.inj (openVersion_some.mp hv).2.1
    exact ⟨⟨ho,v,hv,hp,hle⟩,scope,hs,hk,hin⟩
  · rintro ⟨⟨ho,v,hv,hp,hle⟩,scope,hs,hk,hin⟩
    obtain ⟨-,hobj,hopen⟩ := openVersion_some.mp hv
    obtain ⟨rfl,rfl⟩ := Prod.mk.inj hobj
    exact ⟨⟨v,hv,hp⟩,v,hv,.inr ⟨scope,hs,lostToScope_iff.mpr ⟨hopen,hle,hk,ho,hin⟩⟩⟩

theorem domain_only {scopeKind : ScopeKind}
    (h : kind ∈ (closureRulesFor .activeDirectory scopeKind).map (·.kind)) :
    scopeKind = .domain := by
  cases scopeKind with
  | domain => rfl
  | server | share | directoryTree | localGroupsHost => cases h

/-- A principal inside a domain scope is foreign or of an enumerated domain. -/
theorem enumerated_or_foreign {scopeKey : String} {r : StoredRow}
    (hr : db.row .principal key = some r)
    (h : OwnInside casefold (domainsObservedBy db c.runId) (.domain,scopeKey) .principal (key,r)) :
    OwnInside casefold enumerated (.domain,scopeKey) .principal (key,r) ∨
      Foreign enumerated db c key := by
  obtain ⟨hhost,d,hd,hcol⟩ := h
  by_cases hin : d ∈ enumerated
  · exact .inl ⟨hhost,d,hin,hcol⟩
  · exact .inr ⟨r,hr,hhost,d,hcol,hin,hd⟩

variable (casefold) in
/-- A foreign principal is inside a domain scope for the code alone. -/
theorem Foreign.inside (h : Foreign enumerated db c key) (scopeKey : String) :
    ∃ r, db.row .principal key = some r ∧
      OwnInside casefold (domainsObservedBy db c.runId) (.domain,scopeKey) .principal (key,r) ∧
      ¬ OwnInside casefold enumerated (.domain,scopeKey) .principal (key,r) := by
  obtain ⟨r,hr,hhost,d,hcol,hnot,hd⟩ := h
  refine ⟨r,hr,⟨hhost,d,hd,hcol⟩,fun ⟨_,d',hd',hcol'⟩ => hnot ?_⟩
  rw [hcol] at hcol'
  exact Option.some.inj hcol' ▸ hd'

/-- A completion stays inside its boundary exactly when no foreign object is lost. -/
theorem entitled_iff (ht : Tracked db) {o : List ClosureOutcome}
    (h : closeReconciled casefold c.runId c.collector c.completedAt c.scopes db = .ok (db',o)) :
    (∀ kind key, Tombstoned db db' kind key → Entitled casefold enumerated db c kind key) ↔
      NoForeignLoss enumerated db c := by
  constructor
  · rintro hent hcol ⟨⟨scopeKind,scopeKey⟩,hs,rfl⟩
    refine ⟨fun key hu hf => ?_,fun key r hu hr hhost g hg hf => ?_⟩
    · obtain ⟨r,hr,hin,hout⟩ := hf.inside casefold scopeKey
      have hkinds : ObservationKind.principal ∈
          (closureRulesFor c.collector .domain).map (·.kind) := by
        rw [hcol]
        exact List.mem_cons_self
      obtain ⟨⟨sk,k⟩,-,hk,r',hr',hin'⟩ :=
        (hent _ _ ((tombstoned_iff h).mpr ⟨hu,_,hs,hkinds,r,hr,hin⟩)).inside
      rw [hcol] at hk
      obtain rfl := domain_only hk
      obtain rfl : r = r' := Option.some.inj (hr.symm.trans hr')
      exact hout hin'
    · obtain ⟨p,hp,hin,hout⟩ := hf.inside casefold scopeKey
      have hkinds : ObservationKind.membershipEdge ∈
          (closureRulesFor c.collector .domain).map (·.kind) := by
        rw [hcol]
        exact List.mem_cons_of_mem _ List.mem_cons_self
      have hunder : Inside casefold (domainsObservedBy db c.runId) db (.domain,scopeKey)
          .membershipEdge (key,r) :=
        .inr ⟨rfl,hhost,(g,p),KeyedTable.get?_eq_some.mp hp,hg,hin⟩
      obtain ⟨⟨sk,k⟩,-,hk,r',hr',hin'⟩ :=
        (hent _ _ ((tombstoned_iff h).mpr ⟨hu,_,hs,hkinds,r,hr,hunder⟩)).inside
      rw [hcol] at hk
      obtain rfl := domain_only hk
      obtain rfl : r = r' := Option.some.inj (hr.symm.trans hr')
      obtain ⟨-,-,⟨g',p'⟩,he,hg',hown⟩ := hin'.resolve_left fun hfalse => hfalse
      obtain rfl : g = g' := Option.some.inj (hg.symm.trans hg')
      obtain rfl : p = p' := Option.some.inj (hp.symm.trans (KeyedTable.get?_eq_some.mpr he))
      exact hout hown
  · intro hno kind key hlost
    obtain ⟨hu,⟨scopeKind,scopeKey⟩,hs,hk,r,hr,hin⟩ := (tombstoned_iff h).mp hlost
    refine ⟨⟨_,hs,hk,r,hr,?_⟩,hu.1,fun w hw hobj => ?_⟩
    · by_cases hd : scopeKind = .domain
      · subst hd
        obtain ⟨hcol,rfl | rfl⟩ := domain_rules hk
        · have hown : OwnInside casefold (domainsObservedBy db c.runId) (.domain,scopeKey) .principal
              (key,r) := hin
          exact (enumerated_or_foreign hr hown).resolve_right ((hno hcol ⟨_,hs,rfl⟩).1 key hu)
        · obtain ⟨-,hhost,⟨g,p⟩,he,hg,hown⟩ := hin.resolve_left fun hfalse => hfalse
          have hforeign := (hno hcol ⟨_,hs,rfl⟩).2 key r hu hr hhost g hg
          exact .inr ⟨rfl,hhost,(g,p),he,hg,
            (enumerated_or_foreign (KeyedTable.get?_eq_some.mpr he) hown).resolve_right hforeign⟩
      · exact inside_domains hd hin
    · obtain ⟨u,hu',huobj,huopen,hle⟩ := ht.opened w hw
      obtain ⟨-,v,hv,-,hvle⟩ := hu
      have huv : openVersion db.versions kind key = some u :=
        openVersion_some.mpr ⟨hu',huobj.trans hobj,huopen⟩
      obtain rfl : u = v := Option.some.inj (huv.symm.trans hv)
      exact hle.trans hvle

end Bounded

/-- In every state the transactions reach, an accepted completion tombstones only what
it is entitled to, exactly when its run has seen the present foreign objects. -/
theorem reconciliation_bounded (hash : State → String) (casefold : String → String)
    (xs : List Transaction) (enumerated : List String) (c : Completion) {db' : Database}
    (h : (Transaction.completion c).write hash casefold (commitAll hash casefold {} xs) = .ok db') :
    (∀ kind key, Tombstoned (commitAll hash casefold {} xs) db' kind key →
      Entitled casefold enumerated (commitAll hash casefold {} xs) c kind key) ↔
    NoForeignLoss enumerated (commitAll hash casefold {} xs) c := by
  obtain ⟨⟨db1,o⟩,hc,rfl⟩ := map_ok.mp h
  exact entitled_iff (commitAll_tracked tracked_empty xs) hc

namespace Sample

def digest (state : State) : String := (textColumn state "principal_key").getD ""

def principal (key kind domain : String) (runId : RunId) (observedAt : Instant) : Observed where
  kind := .principal
  sourceKey := "principal|" ++ key
  row :=
    { key := key
      columns := [("principal_kind",.text kind), ("domain_sid",.text domain),
        (sourceKey,.text ("principal|" ++ key))]
      observedAt := observedAt
      runId := runId }

def otherDomain : String := "S-1-5-21-2-2-2"

/-- The other domain was enumerated first. The next run describes a user of its own
domain and reports a principal of the other one that it found in a group. -/
def twoDomains : List Transaction :=
  [.batch ⟨"r1","b1",[principal "S-1-5-21-2-2-2-1105" "user" otherDomain "r1" 1],[]⟩,
    .batch ⟨"r2","b2",[principal "S-1-5-21-1-1-1-1104" "user" "S-1-5-21-1-1-1" "r2" 2,
      principal "S-1-5-21-2-2-2-1200" "foreign_security_principal" otherDomain "r2" 2],[]⟩]

def domainScan : Completion := ⟨"r2",.activeDirectory,[(.domain,"corp.example")],3⟩

/-- The domains of the users, groups and computers that a run described. -/
def describedDomains (db : Database) (runId : RunId) : List String :=
  (((db.current .principal).entries.filter fun e => db.observed runId .principal e.1 ∧
    textColumn e.2.columns "principal_kind" ∈ [some "user", some "domain_group", some "computer",
      some "managed_service_account"]).filterMap
        fun e => textColumn e.2.columns "domain_sid").dedup

end Sample

theorem reconciliation_bounded_sample : ∃ db',
    (Transaction.completion Sample.domainScan).write Sample.digest id
      (commitAll Sample.digest id {} Sample.twoDomains) = .ok db' ∧
    ((∀ kind key, Tombstoned (commitAll Sample.digest id {} Sample.twoDomains) db' kind key →
      Entitled id ["S-1-5-21-1-1-1", Sample.otherDomain]
        (commitAll Sample.digest id {} Sample.twoDomains) Sample.domainScan kind key) ↔
    NoForeignLoss ["S-1-5-21-1-1-1", Sample.otherDomain]
      (commitAll Sample.digest id {} Sample.twoDomains) Sample.domainScan) := by
  obtain ⟨db',h⟩ := returned (x := (Transaction.completion Sample.domainScan).write Sample.digest id
    (commitAll Sample.digest id {} Sample.twoDomains)) (by decide +kernel)
  exact ⟨db',h,reconciliation_bounded Sample.digest id Sample.twoDomains _ Sample.domainScan h⟩

/-- The scan described its own domain alone, and a user of the other one is gone. -/
theorem foreign_principal_tombstoned :
    Sample.describedDomains (commitAll Sample.digest id {} Sample.twoDomains) "r2" =
      ["S-1-5-21-1-1-1"] ∧
    ∃ db', (Transaction.completion Sample.domainScan).write Sample.digest id
        (commitAll Sample.digest id {} Sample.twoDomains) = .ok db' ∧
      ¬ ∀ kind key, Tombstoned (commitAll Sample.digest id {} Sample.twoDomains) db' kind key →
        Entitled id ["S-1-5-21-1-1-1"] (commitAll Sample.digest id {} Sample.twoDomains)
          Sample.domainScan kind key := by
  refine ⟨by decide +kernel,?_⟩
  obtain ⟨db',h⟩ := returned (x := (Transaction.completion Sample.domainScan).write Sample.digest id
    (commitAll Sample.digest id {} Sample.twoDomains)) (by decide +kernel)
  refine ⟨db',h,fun hent => ?_⟩
  obtain ⟨⟨db1,o⟩,hc,rfl⟩ := map_ok.mp h
  have hno := (entitled_iff (commitAll_tracked tracked_empty Sample.twoDomains) hc).mp hent
  have hversion : (openVersion (commitAll Sample.digest id {} Sample.twoDomains).versions .principal
      "S-1-5-21-2-2-2-1105").map (fun v => (v.isPresent,v.lastSeenAt)) = some (true,1) := by
    decide +kernel
  have hrow : ((commitAll Sample.digest id {} Sample.twoDomains).row .principal
      "S-1-5-21-2-2-2-1105").map (fun r => (textColumn r.columns "host_key",
        textColumn r.columns "domain_sid")) = some (none,some Sample.otherDomain) := by
    decide +kernel
  obtain ⟨v,hv,hseen⟩ := Option.map_eq_some_iff.mp hversion
  obtain ⟨hp,hlast⟩ := Prod.mk.inj hseen
  obtain ⟨r,hr,hcols⟩ := Option.map_eq_some_iff.mp hrow
  obtain ⟨hhost,hdomain⟩ := Prod.mk.inj hcols
  refine (hno rfl ⟨_,List.mem_singleton_self _,rfl⟩).1 "S-1-5-21-2-2-2-1105" ?_ ?_
  · exact ⟨by decide +kernel,v,hv,hp,hlast.trans_le (by decide)⟩
  · exact ⟨r,hr,hhost,Sample.otherDomain,hdomain,by decide,by decide +kernel⟩

/-! ### Nothing left inside -/

section Complete
variable {casefold : String → String} {db db' : Database} {c : Completion}
  {kind : ObservationKind} {key : String} {r : StoredRow}

theorem mem_currentlyPresent_iff :
    (key,r) ∈ currentlyPresent db kind ↔ db.row kind key = some r ∧ ¬ Hidden db.versions kind key := by
  rw [mem_currentlyPresent]
  refine and_congr_right fun _ => ?_
  constructor
  · rintro h ⟨v,hv,hp⟩
    rw [h v hv] at hp
    cases hp
  · intro h v hv
    by_contra hp
    exact h ⟨v,hv,Bool.not_eq_true _ ▸ hp⟩

/-- What is stored inside a reconciled scope is present when it was before and the
run observed it. -/
theorem present_iff (ht : Tracked db) {o : List ClosureOutcome}
    (h : closeReconciled casefold c.runId c.collector c.completedAt c.scopes db = .ok (db',o))
    {scope : Scope} (hs : scope ∈ c.scopes)
    (hk : kind ∈ (closureRulesFor c.collector scope.1).map (·.kind)) (hr : db.row kind key = some r)
    (hin : Inside casefold (domainsObservedBy db c.runId) db scope kind (key,r))
    (hnew : ∀ v, openVersion db.versions kind key = some v → v.lastSeenAt ≤ c.completedAt) :
    (key,r) ∈ currentlyPresent db' kind ↔
      (key,r) ∈ currentlyPresent db kind ∧ db.observed c.runId kind key = true := by
  obtain ⟨hcurrent,-⟩ := RunObservations.closeReconciled_frame h
  have hrow : db'.row kind key = db.row kind key := by
    unfold Database.row
    rw [hcurrent]
  obtain ⟨v,hv⟩ : ∃ v, openVersion db.versions kind key = some v := by
    refine Option.ne_none_iff_exists'.mp fun hnone => ?_
    rw [ht.unopened.mp hnone] at hr
    cases hr
  rw [mem_currentlyPresent_iff, mem_currentlyPresent_iff, hrow, closeReconciled_hidden h, and_assoc]
  refine and_congr_right fun _ => ?_
  obtain ⟨-,hobj,hopen⟩ := openVersion_some.mp hv
  obtain ⟨rfl,rfl⟩ := Prod.mk.inj hobj
  constructor
  · intro hshown
    refine ⟨fun ⟨w,hw,hp⟩ => hshown ⟨w,hw,.inl hp⟩,?_⟩
    by_contra ho
    refine hshown ⟨v,hv,.inr ⟨scope,hs,lostToScope_iff.mpr ⟨hopen,hnew v hv,hk,?_,r,hr,hin⟩⟩⟩
    exact Bool.not_eq_true _ ▸ ho
  · rintro ⟨hshown,ho⟩ ⟨w,hw,hp | ⟨s,hs,hl⟩⟩
    · exact hshown ⟨w,hw,hp⟩
    · obtain rfl : v = w := Option.some.inj (hv.symm.trans hw)
      obtain ⟨-,-,-,hno,-⟩ := lostToScope_iff.mp hl
      rw [ho] at hno
      cases hno

end Complete

/-- In every state the transactions reach, an accepted completion with nothing newer
leaves of a reconciled scope what was present and its run observed. -/
theorem reconciliation_complete (hash : State → String) (casefold : String → String)
    (xs : List Transaction) (c : Completion) {db' : Database}
    (h : (Transaction.completion c).write hash casefold (commitAll hash casefold {} xs) = .ok db')
    (scope : Scope) (hs : scope ∈ c.scopes) (kind : ObservationKind)
    (hk : kind ∈ (closureRulesFor c.collector scope.1).map (·.kind)) (key : String) (r : StoredRow)
    (hr : (commitAll hash casefold {} xs).row kind key = some r)
    (hin : Inside casefold (domainsObservedBy (commitAll hash casefold {} xs) c.runId)
      (commitAll hash casefold {} xs) scope kind (key,r))
    (hnew : ∀ v, openVersion (commitAll hash casefold {} xs).versions kind key = some v →
      v.lastSeenAt ≤ c.completedAt) :
    (key,r) ∈ currentlyPresent db' kind ↔
      (key,r) ∈ currentlyPresent (commitAll hash casefold {} xs) kind ∧
        (commitAll hash casefold {} xs).observed c.runId kind key = true := by
  obtain ⟨⟨db1,o⟩,hc,rfl⟩ := map_ok.mp h
  exact present_iff (commitAll_tracked tracked_empty xs) hc hs hk hr hin hnew

namespace Sample

def treeKey : String := "\\\\fs01\\data\\x"

def folder (runId : RunId) (observedAt : Instant) : Observed where
  kind := .ntfsResource
  sourceKey := "resource|" ++ treeKey
  row :=
    { key := treeKey
      columns := [("server_key",.text "fs01"), ("share_key",.text "fs01|data"),
        (sourceKey,.text ("resource|" ++ treeKey))]
      observedAt := observedAt
      runId := runId }

def entry (runId : RunId) (observedAt : Instant) : Observed where
  kind := .ntfsAce
  sourceKey := "ntfs_ace|" ++ treeKey
  row :=
    { key := treeKey ++ "|0"
      columns := [("resource_key",.text treeKey), (sourceKey,.text ("ntfs_ace|" ++ treeKey))]
      observedAt := observedAt
      runId := runId }

def treeScan (runId : RunId) (completedAt : Instant) : Completion :=
  ⟨runId,.ntfs,[(.directoryTree,treeKey)],completedAt⟩

/-- An entry of the folder arrives without the folder. -/
def orphaned : List Transaction := [.batch ⟨"r1","b1",[entry "r1" 1],[]⟩]

/-- The folder is not found by the second run. The third found it before that run
was completed. -/
def outrun : List Transaction :=
  [.batch ⟨"r1","b1",[folder "r1" 1],[]⟩, .completion (treeScan "r2" 5),
    .batch ⟨"r3","b3",[folder "r3" 4],[]⟩]

end Sample

theorem reconciliation_complete_sample : ∃ db' r,
    (Transaction.completion (Sample.treeScan "r3" 6)).write Sample.digest id
      (commitAll Sample.digest id {} Sample.outrun) = .ok db' ∧
    ((Sample.treeKey,r) ∈ currentlyPresent db' .ntfsResource ↔
      (Sample.treeKey,r) ∈ currentlyPresent (commitAll Sample.digest id {} Sample.outrun)
        .ntfsResource ∧
      (commitAll Sample.digest id {} Sample.outrun).observed "r3" .ntfsResource Sample.treeKey =
        true) := by
  obtain ⟨db',h⟩ := returned (x := (Transaction.completion (Sample.treeScan "r3" 6)).write
    Sample.digest id (commitAll Sample.digest id {} Sample.outrun)) (by decide +kernel)
  have hrow : ((commitAll Sample.digest id {} Sample.outrun).row .ntfsResource
      Sample.treeKey).map (fun r => textColumn r.columns "share_key") = some (some "fs01|data") := by
    decide +kernel
  have hseen : ((openVersion (commitAll Sample.digest id {} Sample.outrun).versions .ntfsResource
      Sample.treeKey).all fun v => v.lastSeenAt ≤ 6) = true := by decide +kernel
  obtain ⟨r,hr,hshare⟩ := Option.map_eq_some_iff.mp hrow
  obtain ⟨tree,ht⟩ := returned (x := ResourcePath.parseUncPath Sample.treeKey) (by decide +kernel)
  have htree : (ResourcePath.parseUncPath Sample.treeKey).map
      (fun p => (p.shareKey id,p.comparisonKey id)) = .ok ("fs01|data",Sample.treeKey) := by
    decide +kernel
  rw [ht] at htree
  obtain ⟨hs,hk⟩ := Prod.mk.inj (Except.ok.inj htree)
  refine ⟨db',r,h,reconciliation_complete Sample.digest id Sample.outrun (Sample.treeScan "r3" 6) h
    (.directoryTree,Sample.treeKey) (List.mem_singleton_self _) .ntfsResource List.mem_cons_self
    Sample.treeKey r hr ⟨tree,ht,?_,.inr (.inl hk.symm)⟩ fun v hv => ?_⟩
  · rw [hs]
    exact hshare
  · rw [hv] at hseen
    exact of_decide_eq_true hseen

/-- An entry at the tree that no run reconciling it has seen stays, because it hangs
under no stored row; and a folder that was seen stays hidden, because it was seen
before it was gone. -/
theorem orphaned_entry_stays :
    (∃ db', (Transaction.completion (Sample.treeScan "r2" 3)).write Sample.digest id
        (commitAll Sample.digest id {} Sample.orphaned) = .ok db' ∧
      (∀ v ∈ (commitAll Sample.digest id {} Sample.orphaned).versions.rows, v.lastSeenAt ≤ 3) ∧
      ∃ e ∈ currentlyPresent db' .ntfsAce,
        textColumn e.2.columns "resource_key" = some Sample.treeKey ∧
        (commitAll Sample.digest id {} Sample.orphaned).observed "r2" .ntfsAce e.1 = false) ∧
    ∃ db', (Transaction.completion (Sample.treeScan "r3" 6)).write Sample.digest id
        (commitAll Sample.digest id {} Sample.outrun) = .ok db' ∧
      (∀ v ∈ (commitAll Sample.digest id {} Sample.outrun).versions.rows, v.lastSeenAt ≤ 6) ∧
      (commitAll Sample.digest id {} Sample.outrun).observed "r3" .ntfsResource Sample.treeKey =
        true ∧
      currentlyPresent db' .ntfsResource = [] := by
  constructor
  · have hleft : ((Transaction.completion (Sample.treeScan "r2" 3)).write Sample.digest id
        (commitAll Sample.digest id {} Sample.orphaned)).map (fun db' =>
          (currentlyPresent db' .ntfsAce).map fun e => (e.1,textColumn e.2.columns "resource_key")) =
        .ok [(Sample.treeKey ++ "|0",some Sample.treeKey)] := by decide +kernel
    obtain ⟨db',h,hpresent⟩ := map_ok.mp hleft
    refine ⟨db',h,by decide +kernel,?_⟩
    obtain ⟨e,he,hcols⟩ := List.mem_map.mp (hpresent ▸ List.mem_singleton_self _)
    obtain ⟨hkey,hparent⟩ := Prod.mk.inj hcols
    refine ⟨e,he,hparent,?_⟩
    rw [hkey]
    decide +kernel
  · have hleft : ((Transaction.completion (Sample.treeScan "r3" 6)).write Sample.digest id
        (commitAll Sample.digest id {} Sample.outrun)).map (fun db' =>
          currentlyPresent db' .ntfsResource) = .ok [] := by decide +kernel
    obtain ⟨db',h,hpresent⟩ := map_ok.mp hleft
    exact ⟨db',h,by decide +kernel,by decide +kernel,hpresent⟩

end Adg.Reconciliation
