import Adg.Fallible
import Adg.HistoryWriter

/-!
# What a call does to the table

A call that is not refused rewrites some open versions and adds new rows
behind the stored ones. Which version it rewrites, and how, depends on that
version and on the call alone.
-/

set_option autoImplicit false

namespace Adg.HistorySteps
open Adg.Observation Adg.ObjectVersions Adg.VersionTable Adg.CurrentState Adg.ScopeClosure
open Adg.HistoryWriter
open Adg.Fallible (bind_ok)

theorem returned {ε α : Type} {x : Except ε α} (h : x.toOption.isSome = true) : ∃ a, x = .ok a := by
  cases x with
  | error e => cases h
  | ok a => exact ⟨a,rfl⟩

/-! ### Updates of open versions -/

/-- An update names the version it was made for and keeps its object. -/
structure Names (v : ObjectVersion) (u : Table.Update) : Prop where
  target : u.1 = v.versionId
  keeps : ∀ w, (u.2 w).versionId = w.versionId ∧ (u.2 w).object = w.object

theorem Names.rewrite {v : ObjectVersion} {u : Table.Update} (h : Names v u) :
    rewrite u.1 u.2 v = u.2 v := by
  unfold VersionTable.rewrite
  rw [if_pos h.target.symm, ← (h.keeps v).1]

theorem extension_names {v : ObjectVersion} {at' : Instant} {run : RunId} {u : Table.Update}
    (h : extension v at' run = some u) : Names v u := by
  unfold extension at h
  dsimp only at h
  split at h
  · cases h
  · cases h
    exact ⟨rfl,fun w => ⟨rfl,rfl⟩⟩

theorem replacement_names (v : ObjectVersion) (e : Incoming) : Names v (replacement v e) :=
  ⟨rfl,fun _ => ⟨rfl,rfl⟩⟩

theorem closing_names (v : ObjectVersion) (at' : Instant) (reason : CloseReason) (run : RunId) :
    Names v (closing v.versionId at' reason run) :=
  ⟨rfl,fun _ => ⟨rfl,rfl⟩⟩

theorem reaffirmation_names (v : ObjectVersion) (at' : Instant) (run : RunId) :
    Names v (reaffirmation v at' run) :=
  ⟨rfl,fun _ => ⟨rfl,rfl⟩⟩

/-- An open version grown to an instant. -/
def grow (at' : Instant) (run : RunId) (v : ObjectVersion) : ObjectVersion :=
  match extension v at' run with
  | none => v
  | some u => u.2 v

/-- The rows an update list names are open versions of different objects. -/
def ForOpen (t : Table) (us : List Table.Update) : Prop :=
  ∀ u ∈ us, ∃ v ∈ t.rows, v.isOpen = true ∧ Names v u

theorem distinct_of_ids {t : Table} {us : List Table.Update} (h : ForOpen t us)
    (hn : (us.map (·.1)).Nodup) : us.Pairwise t.Distinct := by
  refine (List.pairwise_map.mp hn).imp_of_mem fun {u w} hu hw hne => ?_
  obtain ⟨v,hv,hvo,hvn⟩ := h u hu
  obtain ⟨x,hx,hxo,hxn⟩ := h w hw
  intro r hr s hs hrid hsid hobj
  have hrv : r = v := t.row_unique hr hv (hrid.trans hvn.target)
  have hsx : s = x := t.row_unique hs hx (hsid.trans hxn.target)
  subst hrv hsx
  have hrs : r ≠ s := fun e => hne (by rw [hvn.target, hxn.target, e])
  exact (t.compatible_of_ne hr hs hrs hobj).2 ⟨hvo,hxo⟩

/-- An update of an open version is accepted when its result passes the checks
and starts where no other version of the object does. -/
theorem fits_of_open {t : Table} {u : Table.Update} {v : ObjectVersion} (hv : v ∈ t.rows)
    (hopen : v.isOpen = true) (hn : Names v u) (hc : checks (u.2 v) = true)
    (hfrom : ∀ w ∈ t.rows, w ≠ v → w.object = v.object → w.validFrom ≠ (u.2 v).validFrom) :
    t.Fits u := by
  have hrow : ∀ r ∈ t.rows, r.versionId = u.1 → r = v := fun r hr hid =>
    t.row_unique hr hv (hid.trans hn.target)
  refine ⟨fun r hr hid => ?_,fun r hr hid => ?_,fun r hr hid s hs hne hobj => ?_⟩
  · rw [hrow r hr hid, hn.rewrite]
    exact (hn.keeps v).2
  · rw [hrow r hr hid, hn.rewrite]
    exact hc
  · rw [hrow r hr hid, hn.rewrite] at hobj ⊢
    rw [(hn.keeps v).2] at hobj
    have hsv : s ≠ v := fun e => hne (by rw [e, hn.target])
    refine ⟨hfrom s hs hsv hobj,fun hb => ?_⟩
    exact (t.compatible_of_ne hs hv hsv hobj).2 ⟨hb.1,hopen⟩

/-! ### Recording -/

section Record
variable {hash : State → String} {kind : ObservationKind} {rows : List Reading}

theorem keepNewest_keys (latest : List Incoming) (entry : Incoming) :
    (keepNewest latest entry).map (·.key) =
      if entry.key ∈ latest.map (·.key) then latest.map (·.key)
      else latest.map (·.key) ++ [entry.key] := by
  unfold keepNewest
  cases hf : latest.find? (·.key = entry.key) with
  | none =>
    have hnot : entry.key ∉ latest.map (·.key) := by
      intro hm
      obtain ⟨e,he,hk⟩ := List.mem_map.mp hm
      exact absurd (List.find?_eq_none.mp hf e he) (by simp [hk])
    simp [hnot]
  | some previous =>
    have hk : previous.key = entry.key := by simpa using List.find?_some hf
    have hin : entry.key ∈ latest.map (·.key) :=
      List.mem_map.mpr ⟨previous,List.mem_of_find?_eq_some hf,hk⟩
    rw [if_pos hin]
    simp only
    split
    · rw [List.map_map]
      refine List.map_congr_left fun e _ => ?_
      simp only [Function.comp]
      split
      · next h => exact h.symm
      · rfl
    · rfl

theorem keepNewest_nodup {latest : List Incoming} (entry : Incoming)
    (h : (latest.map (·.key)).Nodup) : ((keepNewest latest entry).map (·.key)).Nodup := by
  rw [keepNewest_keys]
  split
  · exact h
  · next hnot =>
    rw [List.nodup_append]
    refine ⟨h,by simp,?_⟩
    intro a ha b hb hab
    rw [List.mem_singleton] at hb
    exact hnot (hb ▸ hab ▸ ha)

theorem keepNewest_mem {latest : List Incoming} {entry e : Incoming}
    (h : e ∈ keepNewest latest entry) : e ∈ latest ∨ e = entry := by
  unfold keepNewest at h
  split at h
  · simpa using h
  · split at h
    · obtain ⟨x,hx,hxe⟩ := List.mem_map.mp h
      split at hxe
      · exact .inr hxe.symm
      · exact .inl (hxe ▸ hx)
    · exact .inl h

/-- An object has one entry. -/
theorem incoming_nodup (hash : State → String) (kind : ObservationKind) (rows : List Reading) :
    ((incoming hash kind rows).map (·.key)).Nodup := by
  have hfold : ∀ (es latest : List Incoming), (latest.map (·.key)).Nodup →
      ((es.foldl keepNewest latest).map (·.key)).Nodup := by
    intro es
    induction es with
    | nil => exact fun _ h => h
    | cons e es ih => exact fun latest h => ih _ (keepNewest_nodup e h)
  exact hfold _ [] (by simp)

/-- Every entry is one of the rows. -/
theorem incoming_origin {e : Incoming} (h : e ∈ incoming hash kind rows) :
    ∃ r ∈ rows, e = incomingOf hash kind r := by
  have hfold : ∀ (es latest : List Incoming), e ∈ es.foldl keepNewest latest →
      e ∈ latest ∨ e ∈ es := by
    intro es
    induction es with
    | nil => exact fun _ h => .inl h
    | cons x es ih =>
      intro latest h
      rcases ih _ h with h | h
      · rcases keepNewest_mem h with h | h
        · exact .inl h
        · exact .inr (by simp [h])
      · exact .inr (by simp [h])
  rcases hfold _ _ h with h | h
  · cases h
  · obtain ⟨r,hr,rfl⟩ := List.mem_map.mp h
    exact ⟨r,hr,rfl⟩

/-- Rows of different objects are taken as they come. -/
theorem incoming_of_nodup (hash : State → String) (kind : ObservationKind) {rows : List Reading}
    (h : (rows.map (·.key)).Nodup) : incoming hash kind rows = rows.map (incomingOf hash kind) := by
  have hfold : ∀ (rs : List Reading) (latest : List Incoming),
      (latest.map (·.key) ++ rs.map (·.key)).Nodup →
      (rs.map (incomingOf hash kind)).foldl keepNewest latest =
        latest ++ rs.map (incomingOf hash kind) := by
    intro rs
    induction rs with
    | nil => simp
    | cons r rs ih =>
      intro latest hn
      have hnot : latest.find? (·.key = (incomingOf hash kind r).key) = none := by
        refine List.find?_eq_none.mpr fun e he => ?_
        have := (List.nodup_append.mp hn).2.2 e.key (List.mem_map.mpr ⟨e,he,rfl⟩) r.key (by simp)
        simp [incomingOf, this]
      have hstep : keepNewest latest (incomingOf hash kind r) =
          latest ++ [incomingOf hash kind r] := by
        unfold keepNewest
        rw [hnot]
      rw [List.map_cons, List.foldl_cons, hstep, ih _ ?_]
      · simp
      · simpa [incomingOf] using hn
  simpa [incoming] using hfold rows [] (by simpa using h)

/-- The single update a decision stands for. -/
def update? : Decision → Option Table.Update
  | .extend u | .replace u _ | .supersede u _ => some u
  | _ => none

/-- What becomes of the open version. -/
def follow (d : Decision) (v : ObjectVersion) : ObjectVersion :=
  match update? d with
  | none => v
  | some u => u.2 v

theorem decision_names {v : ObjectVersion} {e : Incoming} {u : Table.Update}
    (h : update? (decision (some v) e) = some u) : Names v u := by
  simp only [decision] at h
  split at h
  · split at h
    · cases h
    · next hx => cases h; exact extension_names hx
  · split at h
    · cases h
    · split at h
      · cases h; exact replacement_names v e
      · cases h; exact closing_names v _ _ _

theorem decision_none (e : Incoming) : update? (decision none e) = none := rfl

/-- The entry a stored version is up against: it must be open. -/
def entryFor (kind : ObservationKind) (entries : List Incoming) (v : ObjectVersion) :
    Option Incoming :=
  if v.kind = kind ∧ v.isOpen then entries.find? (·.key = v.key) else none

/-- A stored version after `record`. -/
def recorded (hash : State → String) (kind : ObservationKind) (rows : List Reading)
    (v : ObjectVersion) : ObjectVersion :=
  match entryFor kind (incoming hash kind rows) v with
  | none => v
  | some e => follow (decision (some v) e) v

theorem entryFor_some {entries : List Incoming} {v : ObjectVersion} {e : Incoming}
    (h : entryFor kind entries v = some e) :
    e ∈ entries ∧ v.object = (kind,e.key) ∧ v.isOpen = true := by
  unfold entryFor at h
  split at h
  · next hv =>
    have hk : e.key = v.key := by simpa using List.find?_some h
    exact ⟨List.mem_of_find?_eq_some h,by rw [ObjectVersion.object, hv.1, hk],hv.2⟩
  · cases h

theorem entryFor_open {t : Table} {entries : List Incoming} (hn : (entries.map (·.key)).Nodup)
    {v : ObjectVersion} {e : Incoming} (he : e ∈ entries)
    (hv : openVersion t kind e.key = some v) : entryFor kind entries v = some e := by
  obtain ⟨-,hobj,hopen⟩ := openVersion_some.mp hv
  obtain ⟨hkind,hkey⟩ := Prod.mk.inj hobj
  unfold entryFor
  rw [if_pos ⟨hkind,hopen⟩, hkey]
  cases hf : entries.find? (·.key = e.key) with
  | none => exact absurd (List.find?_eq_none.mp hf e he) (by simp)
  | some x =>
    have hk : x.key = e.key := by simpa using List.find?_some hf
    rw [List.inj_on_of_nodup_map hn (List.mem_of_find?_eq_some hf) he hk]

/-- The updates of a batch, in the order they are sent. -/
def updatesOf (plan : List (Incoming × Decision)) : List Table.Update :=
  plan.filterMap (·.2.closes) ++ plan.filterMap (·.2.extends?) ++ plan.filterMap (·.2.replaces)

theorem updatesOf_perm (plan : List (Incoming × Decision)) :
    (updatesOf plan).Perm (plan.filterMap fun p => update? p.2) := by
  induction plan with
  | nil => exact .nil
  | cons p plan ih =>
    unfold updatesOf at ih ⊢
    cases hd : p.2 with
    | start => simpa [hd, Decision.closes, Decision.extends?, Decision.replaces, update?] using ih
    | unchanged =>
      simpa [hd, Decision.closes, Decision.extends?, Decision.replaces, update?] using ih
    | stale => simpa [hd, Decision.closes, Decision.extends?, Decision.replaces, update?] using ih
    | supersede u b =>
      simpa [hd, Decision.closes, Decision.extends?, Decision.replaces, update?] using ih.cons u
    | extend u =>
      simp only [List.filterMap_cons, hd, Decision.closes, Decision.extends?, Decision.replaces,
        update?]
      refine (List.Perm.append_right _ List.perm_middle).trans ?_
      exact ih.cons u
    | replace u b =>
      simp only [List.filterMap_cons, hd, Decision.closes, Decision.extends?, Decision.replaces,
        update?]
      exact List.perm_middle.trans (ih.cons u)

theorem mem_updatesOf {plan : List (Incoming × Decision)} {u : Table.Update} :
    u ∈ updatesOf plan ↔ ∃ p ∈ plan, update? p.2 = some u := by
  rw [(updatesOf_perm plan).mem_iff, List.mem_filterMap]

theorem mem_decisions {t : Table} {p : Incoming × Decision} :
    p ∈ decisions hash t kind rows ↔
      p.1 ∈ incoming hash kind rows ∧ p.2 = decision (openVersion t kind p.1.key) p.1 := by
  unfold decisions
  rw [List.mem_map]
  constructor
  · rintro ⟨e,he,rfl⟩
    exact ⟨he,rfl⟩
  · rintro ⟨he,hd⟩
    exact ⟨p.1,he,Prod.ext rfl hd.symm⟩

theorem update_of_decision {t : Table} {p : Incoming × Decision} {u : Table.Update}
    (hp : p ∈ decisions hash t kind rows) (hu : update? p.2 = some u) :
    ∃ v, openVersion t kind p.1.key = some v ∧ update? (decision (some v) p.1) = some u := by
  rw [(mem_decisions.mp hp).2] at hu
  cases ho : openVersion t kind p.1.key with
  | none => rw [ho, decision_none] at hu; cases hu
  | some v => exact ⟨v,rfl,ho ▸ hu⟩

theorem updatesOf_forOpen (t : Table) :
    ForOpen t (updatesOf (decisions hash t kind rows)) := by
  intro u hu
  obtain ⟨p,hp,hpu⟩ := mem_updatesOf.mp hu
  obtain ⟨v,hv,hvu⟩ := update_of_decision hp hpu
  obtain ⟨hmem,-,hopen⟩ := openVersion_some.mp hv
  exact ⟨v,hmem,hopen,decision_names hvu⟩

/-- No version is updated twice. -/
theorem updatesOf_nodup (t : Table) :
    ((updatesOf (decisions hash t kind rows)).map (·.1)).Nodup := by
  refine ((updatesOf_perm _).map _).nodup_iff.mpr ?_
  have hkeys : (decisions hash t kind rows).Pairwise fun p q => p.1.key ≠ q.1.key := by
    unfold decisions
    exact List.pairwise_map.mpr (List.pairwise_map.mp (incoming_nodup hash kind rows))
  rw [List.Nodup, List.pairwise_map, List.pairwise_filterMap]
  refine hkeys.imp_of_mem fun {p q} hp hq hne u hu w hw hid => hne ?_
  obtain ⟨v,hv,hvu⟩ := update_of_decision hp hu
  obtain ⟨x,hx,hxw⟩ := update_of_decision hq hw
  obtain ⟨hv,hvobj,-⟩ := openVersion_some.mp hv
  obtain ⟨hx,hxobj,-⟩ := openVersion_some.mp hx
  have hvx : v = x := t.row_unique hv hx
    (((decision_names hvu).target.symm.trans hid).trans (decision_names hxw).target)
  exact (Prod.mk.inj (hvobj.symm.trans (hvx ▸ hxobj))).2

theorem amend_updatesOf {t : Table} {v : ObjectVersion} (hv : v ∈ t.rows) :
    amend (updatesOf (decisions hash t kind rows)) v = recorded hash kind rows v := by
  unfold recorded
  have hother : (∀ u, ∀ e ∈ incoming hash kind rows, openVersion t kind e.key = some v →
      update? (decision (some v) e) ≠ some u) →
      amend (updatesOf (decisions hash t kind rows)) v = v := by
    intro hnone
    refine amend_other fun u hu hid => ?_
    obtain ⟨p,hp,hpu⟩ := mem_updatesOf.mp hu
    obtain ⟨w,hw,hwu⟩ := update_of_decision hp hpu
    have hwv : w = v := t.row_unique (openVersion_some.mp hw).1 hv
      ((decision_names hwu).target.symm.trans hid)
    subst hwv
    exact hnone u p.1 (mem_decisions.mp hp).1 hw hwu
  cases he : entryFor kind (incoming hash kind rows) v with
  | none =>
    refine hother fun u e hmem hopen _ => ?_
    rw [entryFor_open (incoming_nodup hash kind rows) hmem hopen] at he
    cases he
  | some e =>
    obtain ⟨hmem,hobj,hopen⟩ := entryFor_some he
    have hov : openVersion t kind e.key = some v := openVersion_some.mpr ⟨hv,hobj,hopen⟩
    show amend _ v = follow (decision (some v) e) v
    unfold follow
    cases hu : update? (decision (some v) e) with
    | none =>
      refine hother fun u e' hmem' hopen' hu' => ?_
      have hee := entryFor_open (incoming_nodup hash kind rows) hmem' hopen'
      rw [he] at hee
      cases hee
      rw [hu] at hu'
      cases hu'
    | some u =>
      have hin : u ∈ updatesOf (decisions hash t kind rows) :=
        mem_updatesOf.mpr ⟨(e,decision (some v) e),
          mem_decisions.mpr ⟨hmem,by rw [hov]⟩,hu⟩
      rw [amend_named hin (decision_names hu).target (updatesOf_nodup t)]
      exact (decision_names hu).rewrite

/-- The entries that open a version. -/
def opened (hash : State → String) (t : Table) (kind : ObservationKind) (rows : List Reading) :
    List ObjectVersion :=
  ((decisions hash t kind rows).filter (·.2.opens)).map fun p => newVersion kind p.1

theorem record_split (t : Table) :
    record hash kind rows t = (t.updateAll (updatesOf (decisions hash t kind rows)) >>= fun t1 =>
      t1.insertAll (opened hash t kind rows) >>= fun t2 =>
        return (t2,(decisions hash t kind rows).foldl (fun o p => o.add p.2.outcome) {})) := by
  have happ : ∀ (us ws : List Table.Update) (s : Table),
      s.updateAll (us ++ ws) = s.updateAll us >>= fun s1 => s1.updateAll ws := fun us ws s =>
    List.foldlM_append ..
  unfold record updatesOf opened
  rw [happ, happ]
  simp only [bind_assoc]

/-- The rows after a recording that was not refused. -/
theorem record_rows {t t' : Table} {o : HistoryOutcome}
    (h : record hash kind rows t = .ok (t',o)) :
    t'.rows = t.rows.map (recorded hash kind rows) ++
      numberedFrom t.nextId (opened hash t kind rows) := by
  rw [record_split] at h
  obtain ⟨t1,h1,h⟩ := bind_ok.mp h
  obtain ⟨t2,h2,h⟩ := bind_ok.mp h
  obtain rfl : t2 = t' := (Prod.mk.inj (Except.ok.inj h)).1
  obtain ⟨hrows,hnext⟩ := Table.updateAll_ok h1
  rw [(Table.insertAll_ok h2).1, hrows, hnext]
  congr 1
  exact List.map_congr_left fun v hv => amend_updatesOf hv

/-- A recording whose updates fit and whose new versions find room is accepted. -/
theorem record_returns {t : Table}
    (hfit : ∀ u ∈ updatesOf (decisions hash t kind rows), t.Fits u)
    (hnew : ∀ v ∈ opened hash t kind rows, ∀ r ∈ t.rows,
      Compatible (recorded hash kind rows r) v) :
    ∃ t' o, record hash kind rows t = .ok (t',o) := by
  obtain ⟨t1,h1⟩ := Table.updateAll_returns hfit
    (distinct_of_ids (updatesOf_forOpen t) (updatesOf_nodup t))
  have hchecks : ∀ v ∈ opened hash t kind rows, checks v = true := by
    intro v hv
    obtain ⟨p,-,rfl⟩ := List.mem_map.mp hv
    simp [checks, newVersion]
  have hpairwise : (opened hash t kind rows).Pairwise Compatible := by
    refine List.pairwise_map.mpr (List.Pairwise.filter _ ?_)
    unfold decisions
    refine List.pairwise_map.mpr
      ((List.pairwise_map.mp (incoming_nodup hash kind rows)).imp fun {e f} hne hobj => ?_)
    exact absurd (Prod.mk.inj hobj).2 hne
  have hroom : ∀ v ∈ opened hash t kind rows, ∀ r ∈ t1.rows, Compatible r v := by
    intro v hv r hr
    rw [(Table.updateAll_ok h1).1] at hr
    obtain ⟨s,hs,rfl⟩ := List.mem_map.mp hr
    rw [amend_updatesOf hs]
    exact hnew v hv s hs
  obtain ⟨t2,h2⟩ := Table.insertAll_returns hchecks hroom hpairwise
  exact ⟨t2,_,by rw [record_split]; exact bind_ok.mpr ⟨t1,h1,bind_ok.mpr ⟨t2,h2,rfl⟩⟩⟩

/-- An entry says what the version says already. -/
def Agrees (v : ObjectVersion) (e : Incoming) : Prop :=
  v.isPresent = true ∧ v.stateHash = some e.digest

/-- An entry says something else, is not stale and does not start where the
version starts. -/
structure Supersedes (v : ObjectVersion) (e : Incoming) : Prop where
  differs : ¬ Agrees v e
  fresh : v.lastSeenAt ≤ e.observedAt
  later : e.observedAt ≠ v.validFrom

/-- How one entry can move the open version it meets. -/
inductive Moved (v : ObjectVersion) (e : Incoming) (w : ObjectVersion) : Prop where
  | agrees (h : Agrees v e) (hw : w = grow e.observedAt e.runId v)
  | stale (h : ¬ Agrees v e) (hs : e.observedAt < v.lastSeenAt) (hw : w = v)
  | replaced (h : ¬ Agrees v e) (hs : v.lastSeenAt ≤ e.observedAt) (ht : e.observedAt = v.validFrom)
      (hw : w = (replacement v e).2 v)
  | superseded (h : Supersedes v e)
      (hw : w = (closing v.versionId e.observedAt .superseded e.runId).2 v)

theorem follow_moved (v : ObjectVersion) (e : Incoming) :
    Moved v e (follow (decision (some v) e) v) := by
  unfold decision
  dsimp only
  split
  · next h =>
    refine .agrees h ?_
    unfold grow
    cases extension v e.observedAt e.runId <;> rfl
  · next h =>
    split
    · next hs => exact .stale h hs rfl
    · next hs =>
      split
      · next ht => exact .replaced h (not_lt.mp hs) ht rfl
      · next ht => exact .superseded ⟨h,not_lt.mp hs,ht⟩ rfl

theorem opens_iff {v : ObjectVersion} {e : Incoming} :
    (decision (some v) e).opens = true ↔ Supersedes v e := by
  unfold decision
  dsimp only
  split
  · next h =>
    refine iff_of_false ?_ fun hs => hs.differs h
    cases extension v e.observedAt e.runId <;> simp [Decision.opens]
  · next h =>
    split
    · next hs => exact iff_of_false (by simp [Decision.opens]) fun hu => not_lt.mpr hu.fresh hs
    · next hs =>
      split
      · next ht => exact iff_of_false (by simp [Decision.opens]) fun hu => hu.later ht
      · next ht => exact iff_of_true rfl ⟨h,not_lt.mp hs,ht⟩

/-- A stored version after a recording, by the entry it was up against. -/
theorem recorded_cases (hash : State → String) (kind : ObservationKind) (rows : List Reading)
    (v : ObjectVersion) :
    recorded hash kind rows v = v ∨ ∃ e ∈ incoming hash kind rows, v.object = (kind,e.key) ∧
      v.isOpen = true ∧ Moved v e (recorded hash kind rows v) := by
  unfold recorded
  cases he : entryFor kind (incoming hash kind rows) v with
  | none => exact .inl rfl
  | some e =>
    obtain ⟨hmem,hobj,hopen⟩ := entryFor_some he
    exact .inr ⟨e,hmem,hobj,hopen,follow_moved v e⟩

theorem recorded_meets {t : Table} {e : Incoming} (he : e ∈ incoming hash kind rows)
    {v : ObjectVersion} (hv : openVersion t kind e.key = some v) :
    recorded hash kind rows v = follow (decision (some v) e) v := by
  unfold recorded
  rw [entryFor_open (incoming_nodup hash kind rows) he hv]

theorem recorded_closed (hash : State → String) (kind : ObservationKind) (rows : List Reading)
    {v : ObjectVersion} (h : v.isOpen = false) : recorded hash kind rows v = v := by
  unfold recorded entryFor
  rw [if_neg (by simp [h])]

/-- A version is opened for an object without one, or behind the one it supersedes. -/
theorem mem_opened {t : Table} {x : ObjectVersion} :
    x ∈ opened hash t kind rows ↔ ∃ e ∈ incoming hash kind rows, x = newVersion kind e ∧
      ∀ v, openVersion t kind e.key = some v → Supersedes v e := by
  unfold opened
  simp only [List.mem_map, List.mem_filter]
  constructor
  · rintro ⟨p,⟨hp,ho⟩,rfl⟩
    obtain ⟨hmem,hd⟩ := mem_decisions.mp hp
    refine ⟨p.1,hmem,rfl,fun v hv => ?_⟩
    rw [hd, hv] at ho
    exact opens_iff.mp ho
  · rintro ⟨e,he,rfl,hs⟩
    refine ⟨(e,decision (openVersion t kind e.key) e),⟨mem_decisions.mpr ⟨he,rfl⟩,?_⟩,rfl⟩
    cases ho : openVersion t kind e.key with
    | none => rfl
    | some v => exact opens_iff.mpr (hs v ho)

end Record

/-! ### Updates of a selection -/

section Selection
variable {t : Table} {selected : List ObjectVersion}
  {update : ObjectVersion → Option Table.Update}

/-- A selection of open versions, each with the update it gets. -/
structure Selection (t : Table) (selected : List ObjectVersion)
    (update : ObjectVersion → Option Table.Update) : Prop where
  stored : ∀ v ∈ selected, v ∈ t.rows
  isOpen : ∀ v ∈ selected, v.isOpen = true
  nodup : selected.Nodup
  names : ∀ v u, update v = some u → Names v u

/-- A version after the update of its selection. -/
def updated (selected : List ObjectVersion) (update : ObjectVersion → Option Table.Update)
    (v : ObjectVersion) : ObjectVersion :=
  if v ∈ selected then
    match update v with
    | none => v
    | some u => u.2 v
  else v

theorem Selection.forOpen (h : Selection t selected update) :
    ForOpen t (selected.filterMap update) := by
  intro u hu
  obtain ⟨v,hv,hvu⟩ := List.mem_filterMap.mp hu
  exact ⟨v,h.stored v hv,h.isOpen v hv,h.names v u hvu⟩

theorem Selection.ids_nodup (h : Selection t selected update) :
    ((selected.filterMap update).map (·.1)).Nodup := by
  rw [List.Nodup, List.pairwise_map, List.pairwise_filterMap]
  refine h.nodup.imp_of_mem fun {v w} hv hw hne u hu x hx hid => hne ?_
  exact t.row_unique (h.stored v hv) (h.stored w hw)
    (((h.names v u hu).target.symm.trans hid).trans (h.names w x hx).target)

theorem Selection.amend (h : Selection t selected update) {v : ObjectVersion} (hv : v ∈ t.rows) :
    VersionTable.amend (selected.filterMap update) v = updated selected update v := by
  have hother : (∀ u, v ∈ selected → update v ≠ some u) →
      VersionTable.amend (selected.filterMap update) v = v := by
    intro hnone
    refine amend_other fun u hu hid => ?_
    obtain ⟨w,hw,hwu⟩ := List.mem_filterMap.mp hu
    have hwv : w = v := t.row_unique (h.stored w hw) hv ((h.names w u hwu).target.symm.trans hid)
    exact hnone u (hwv ▸ hw) (hwv ▸ hwu)
  unfold updated
  split
  · next hin =>
    split
    · next hu => exact hother fun u _ hu' => by rw [hu] at hu'; cases hu'
    · next u hu =>
      rw [amend_named (List.mem_filterMap.mpr ⟨v,hin,hu⟩) (h.names v u hu).target h.ids_nodup]
      exact (h.names v u hu).rewrite
  · next hin => exact hother fun u hin' => absurd hin' hin

theorem Selection.rows (h : Selection t selected update) {t' : Table}
    (ht : t.updateAll (selected.filterMap update) = .ok t') :
    t'.rows = t.rows.map (updated selected update) ∧ t'.nextId = t.nextId := by
  obtain ⟨hrows,hnext⟩ := Table.updateAll_ok ht
  exact ⟨hrows.trans (List.map_congr_left fun v hv => h.amend hv),hnext⟩

theorem Selection.returns (h : Selection t selected update)
    (hfit : ∀ v ∈ selected, ∀ u, update v = some u → checks (u.2 v) = true ∧
      ∀ w ∈ t.rows, w ≠ v → w.object = v.object → w.validFrom ≠ (u.2 v).validFrom) :
    ∃ t', t.updateAll (selected.filterMap update) = .ok t' := by
  refine Table.updateAll_returns (fun u hu => ?_) (distinct_of_ids h.forOpen h.ids_nodup)
  obtain ⟨v,hv,hvu⟩ := List.mem_filterMap.mp hu
  obtain ⟨hc,hfrom⟩ := hfit v hv u hvu
  exact fits_of_open (h.stored v hv) (h.isOpen v hv) (h.names v u hvu) hc hfrom

theorem selection_where {p : ObjectVersion → Bool} {f : ObjectVersion → ObjectVersion}
    (hopen : ∀ v ∈ t.rows, p v = true → v.isOpen = true)
    (hf : ∀ v, (f v).versionId = v.versionId ∧ (f v).object = v.object) :
    Selection t (t.rows.filter p) (some ∘ fun v => (v.versionId,f)) := by
  refine ⟨fun v hv => (List.mem_filter.mp hv).1,fun v hv => ?_,
    (List.Nodup.of_map _ t.ids_nodup).filter p,fun v u hu => ?_⟩
  · exact hopen v (List.mem_filter.mp hv).1 (List.mem_filter.mp hv).2
  · cases hu
    exact ⟨rfl,hf⟩

end Selection

/-! ### Affirming -/

section Affirm
variable {kind : ObservationKind} {keys : List String} {observedAt : Instant} {runId : RunId}

theorem mem_uniqueSorted {keys : List String} {k : String} : k ∈ uniqueSorted keys ↔ k ∈ keys := by
  unfold uniqueSorted
  rw [List.mem_insertionSort, List.mem_dedup]

theorem uniqueSorted_nodup (keys : List String) : (uniqueSorted keys).Nodup :=
  (List.perm_insertionSort (· ≤ ·) keys.dedup).nodup_iff.mpr (List.nodup_dedup keys)

/-- The open present versions of the affirmed keys. -/
def affirmable (t : Table) (kind : ObservationKind) (keys : List String) : List ObjectVersion :=
  ((uniqueSorted keys).map fun k => (k,openVersion t kind k)).filterMap
    fun c => c.2.filter (·.isPresent)

theorem mem_affirmable {t : Table} {v : ObjectVersion} :
    v ∈ affirmable t kind keys ↔
      v ∈ t.rows ∧ v.kind = kind ∧ v.key ∈ keys ∧ v.isOpen = true ∧ v.isPresent = true := by
  unfold affirmable
  simp only [List.mem_filterMap, List.mem_map, exists_exists_and_eq_and, Option.filter_eq_some_iff,
    mem_uniqueSorted, openVersion_some]
  constructor
  · rintro ⟨k,hk,⟨hv,hobj,hopen⟩,hpres⟩
    obtain ⟨hkind,rfl⟩ := Prod.mk.inj hobj
    exact ⟨hv,hkind,hk,hopen,hpres⟩
  · rintro ⟨hv,rfl,hk,hopen,hpres⟩
    exact ⟨v.key,hk,⟨hv,rfl,hopen⟩,hpres⟩

theorem affirmable_selection (t : Table) (kind : ObservationKind) (keys : List String)
    (observedAt : Instant) (runId : RunId) :
    Selection t (affirmable t kind keys) fun v => extension v observedAt runId := by
  refine ⟨fun v hv => (mem_affirmable.mp hv).1,fun v hv => (mem_affirmable.mp hv).2.2.2.1,?_,
    fun v u hu => extension_names hu⟩
  unfold affirmable
  rw [List.filterMap_map, List.Nodup, List.pairwise_filterMap]
  refine (uniqueSorted_nodup keys).imp fun {k l} hne v hv w hw hvw => hne ?_
  have hv := openVersion_some.mp (Option.filter_eq_some_iff.mp hv).1
  have hw := openVersion_some.mp (Option.filter_eq_some_iff.mp hw).1
  exact (Prod.mk.inj (hv.2.1.symm.trans (hvw ▸ hw.2.1))).2

/-- A stored version after `affirm`. -/
def affirmed (kind : ObservationKind) (keys : List String) (observedAt : Instant) (runId : RunId)
    (v : ObjectVersion) : ObjectVersion :=
  if v.kind = kind ∧ v.key ∈ keys ∧ v.isOpen ∧ v.isPresent then grow observedAt runId v else v

/-- The rows after an affirmation that was not refused. -/
theorem affirm_rows {t t' : Table} {o : AffirmationOutcome}
    (h : affirm kind keys observedAt runId t = .ok (t',o)) :
    t'.rows = t.rows.map (affirmed kind keys observedAt runId) := by
  unfold affirm at h
  obtain ⟨t1,h1,h⟩ := bind_ok.mp h
  obtain rfl : t1 = t' := (Prod.mk.inj (Except.ok.inj h)).1
  rw [((affirmable_selection t kind keys observedAt runId).rows h1).1]
  refine List.map_congr_left fun v hv => ?_
  unfold updated affirmed
  by_cases hsel : v ∈ affirmable t kind keys
  · rw [if_pos hsel, if_pos (mem_affirmable.mp hsel).2]
    rfl
  · rw [if_neg hsel, if_neg fun hc => hsel (mem_affirmable.mpr ⟨hv,hc⟩)]

theorem affirm_returns {t : Table}
    (hfit : ∀ v ∈ t.rows, v.kind = kind → v.key ∈ keys → v.isOpen = true → v.isPresent = true →
      ∀ u, extension v observedAt runId = some u → checks (u.2 v) = true ∧
        ∀ w ∈ t.rows, w ≠ v → w.object = v.object → w.validFrom ≠ (u.2 v).validFrom) :
    ∃ t' o, affirm kind keys observedAt runId t = .ok (t',o) := by
  obtain ⟨t1,h1⟩ := (affirmable_selection t kind keys observedAt runId).returns fun v hv => by
    obtain ⟨hm,hk,hkey,hopen,hpres⟩ := mem_affirmable.mp hv
    exact hfit v hm hk hkey hopen hpres
  exact ⟨t1,_,bind_ok.mpr ⟨t1,h1,rfl⟩⟩

theorem mem_chunks {α : Type} {values : List α} {size : ℕ} (hsize : 0 < size) {x : α} :
    x ∈ (chunks values size).flatten ↔ x ∈ values := by
  unfold chunks
  simp only [List.mem_flatten, List.mem_map, List.mem_range, exists_exists_and_eq_and]
  constructor
  · rintro ⟨i,-,hx⟩
    exact List.mem_of_mem_drop (List.mem_of_mem_take hx)
  · intro hx
    obtain ⟨i,hi,rfl⟩ := List.mem_iff_getElem.mp hx
    have hmod := Nat.mod_lt i hsize
    have hdiv := Nat.div_add_mod' i size
    refine ⟨i/size,?_,?_⟩
    · rw [Nat.div_lt_iff_lt_mul hsize]
      have hceil := Nat.div_add_mod' (values.length+size-1) size
      have hrest := Nat.mod_lt (values.length+size-1) hsize
      omega
    · refine List.mem_iff_getElem.mpr ⟨i%size,?_,?_⟩
      · rw [List.length_take, List.length_drop]
        omega
      · rw [List.getElem_take, List.getElem_drop]
        congr 1

theorem grow_eq (at' : Instant) (run : RunId) (v : ObjectVersion) :
    grow at' run v =
      { v with
        lastSeenAt := if v.lastSeenAt < at' then at' else v.lastSeenAt
        lastSeenRunId := if v.lastSeenAt < at' then run else v.lastSeenRunId
        validFrom := if at' < v.validFrom then at' else v.validFrom
        openedByRunId := if at' < v.validFrom then run else v.openedByRunId } := by
  unfold grow extension
  by_cases hf : v.lastSeenAt < at'
  · simp [hf]
  · by_cases hb : at' < v.validFrom
    · simp [hf, hb]
    · simp [hf, hb]

/-- Growing to an instant twice is growing to it once. -/
theorem grow_grow {v : ObjectVersion} (at' : Instant) (run : RunId)
    (h : v.validFrom ≤ v.lastSeenAt) : grow at' run (grow at' run v) = grow at' run v := by
  simp only [grow_eq]
  by_cases hf : v.lastSeenAt < at'
  · have hb : ¬ at' < v.validFrom := not_lt.mpr (h.trans hf.le)
    simp [hf, hb]
  · by_cases hb : at' < v.validFrom
    · simp [hf, hb]
    · simp [hf, hb]

theorem checked_confirmed {v : ObjectVersion} (h : checks v = true) :
    v.validFrom ≤ v.lastSeenAt := by
  have h : _ ∧ _ := of_decide_eq_true h
  exact h.1

/-- An update of open versions by a condition. -/
theorem updateWhere_rows {t t' : Table} {p : ObjectVersion → Bool}
    {f : ObjectVersion → ObjectVersion} (h : t.updateWhere p f = .ok t')
    (hopen : ∀ v ∈ t.rows, p v = true → v.isOpen = true)
    (hf : ∀ v, (f v).versionId = v.versionId ∧ (f v).object = v.object) :
    t'.rows = t.rows.map fun v => if p v then f v else v := by
  have hsel := selection_where hopen hf
  unfold Table.updateWhere at h
  rw [← List.filterMap_eq_map] at h
  rw [(hsel.rows h).1]
  refine List.map_congr_left fun v hv => ?_
  simp only [updated, List.mem_filter, hv, true_and]
  rfl

theorem updateWhere_returns {t : Table} {p : ObjectVersion → Bool}
    {f : ObjectVersion → ObjectVersion} (hopen : ∀ v ∈ t.rows, p v = true → v.isOpen = true)
    (hf : ∀ v, (f v).versionId = v.versionId ∧ (f v).object = v.object)
    (hfit : ∀ v ∈ t.rows, p v = true → checks (f v) = true ∧
      ∀ w ∈ t.rows, w ≠ v → w.object = v.object → w.validFrom ≠ (f v).validFrom) :
    ∃ t', t.updateWhere p f = .ok t' := by
  unfold Table.updateWhere
  rw [← List.filterMap_eq_map]
  refine (selection_where hopen hf).returns fun v hv u hu => ?_
  cases hu
  exact hfit v (List.mem_filter.mp hv).1 (List.mem_filter.mp hv).2

/-- A stored version after `affirm_contained`. -/
def contained (kind : ObservationKind) (containers : List String) (observedAt : Instant)
    (runId : RunId) (v : ObjectVersion) : ObjectVersion :=
  if openPresent kind containers v then grow observedAt runId v else v

theorem openPresent_iff {containers : List String} {v : ObjectVersion} :
    openPresent kind containers v = true ↔ v.kind = kind ∧ v.isOpen = true ∧ v.isPresent = true ∧
      ∃ c ∈ containers, v.containerKey = some c := by
  unfold openPresent
  cases hc : v.containerKey with
  | none => simp
  | some c => simp

theorem openPresent_grow (containers : List String) (v : ObjectVersion) :
    openPresent kind containers (grow observedAt runId v) = openPresent kind containers v := by
  rw [grow_eq]
  rfl

theorem affirmChunk_rows {t t' : Table} {containers : List String} {n : ℕ}
    (h : affirmChunk kind observedAt runId containers t = .ok (t',n)) :
    t'.rows = t.rows.map (contained kind containers observedAt runId) := by
  unfold affirmChunk at h
  obtain ⟨t1,h1,h⟩ := bind_ok.mp h
  obtain ⟨t2,h2,h⟩ := bind_ok.mp h
  obtain rfl : t2 = t' := (Prod.mk.inj (Except.ok.inj h)).1
  have hopen : ∀ (s : Table) (q : ObjectVersion → Prop) [DecidablePred q], ∀ v ∈ s.rows,
      decide (openPresent kind containers v = true ∧ q v) = true → v.isOpen = true :=
    fun s q _ v _ hv => (openPresent_iff.mp (of_decide_eq_true hv).1).2.1
  rw [updateWhere_rows h2 (hopen t1 _) (fun _ => ⟨rfl,rfl⟩),
    updateWhere_rows h1 (hopen t _) (fun _ => ⟨rfl,rfl⟩), List.map_map]
  refine List.map_congr_left fun v hv => ?_
  have hle := checked_confirmed (t.checked v hv)
  unfold contained
  rw [grow_eq]
  cases hp : openPresent kind containers v with
  | false => simp [hp]
  | true =>
    by_cases hf : v.lastSeenAt < observedAt
    · have hb : ¬ observedAt < v.validFrom := not_lt.mpr (hle.trans hf.le)
      simp [hp, hf, hb]
    · by_cases hb : observedAt < v.validFrom
      · simp [hp, hf, hb]
      · simp [hp, hf, hb]

theorem contained_append {v : ObjectVersion} (cs ds : List String)
    (h : v.validFrom ≤ v.lastSeenAt) :
    contained kind ds observedAt runId (contained kind cs observedAt runId v) =
      contained kind (cs ++ ds) observedAt runId v := by
  have happ : openPresent kind (cs ++ ds) v = (openPresent kind cs v || openPresent kind ds v) := by
    rw [Bool.eq_iff_iff, Bool.or_eq_true, openPresent_iff, openPresent_iff, openPresent_iff]
    constructor
    · rintro ⟨hk,ho,hp,c,hc,hv⟩
      rcases List.mem_append.mp hc with hc | hc
      · exact .inl ⟨hk,ho,hp,c,hc,hv⟩
      · exact .inr ⟨hk,ho,hp,c,hc,hv⟩
    · rintro (⟨hk,ho,hp,c,hc,hv⟩ | ⟨hk,ho,hp,c,hc,hv⟩)
      · exact ⟨hk,ho,hp,c,List.mem_append_left ds hc,hv⟩
      · exact ⟨hk,ho,hp,c,List.mem_append_right cs hc,hv⟩
  unfold contained
  cases hc : openPresent kind cs v with
  | false => simp [happ, hc]
  | true =>
    simp only [happ, hc, if_true, Bool.true_or, openPresent_grow]
    split
    · exact grow_grow observedAt runId h
    · rfl

theorem affirmChunks_rows {t t' : Table} {cs : List (List String)} {n m : ℕ}
    (h : affirmChunks kind observedAt runId cs n t = .ok (t',m)) :
    t'.rows = t.rows.map (contained kind cs.flatten observedAt runId) := by
  induction cs generalizing t n with
  | nil =>
    obtain rfl : t = t' := (Prod.mk.inj (Except.ok.inj h)).1
    have hall : ∀ v ∈ t.rows, contained kind [] observedAt runId v = v := fun v _ => by
      have : openPresent kind [] v = false := by
        rw [← Bool.not_eq_true, openPresent_iff]
        rintro ⟨-,-,-,c,hc,-⟩
        cases hc
      simp [contained, this]
    rw [List.flatten_nil, List.map_congr_left hall, List.map_id']
  | cons chunk cs ih =>
    obtain ⟨⟨t1,k⟩,h1,h⟩ := bind_ok.mp h
    rw [ih h, affirmChunk_rows h1, List.map_map, List.flatten_cons]
    exact List.map_congr_left fun v hv =>
      contained_append chunk cs.flatten (checked_confirmed (t.checked v hv))

/-- The rows after the entries of some containers were affirmed. -/
theorem affirmContained_rows {t t' : Table} {keys : List String} {o : AffirmationOutcome}
    (h : affirmContained kind keys observedAt runId t = .ok (t',o)) :
    t'.rows = t.rows.map (contained kind keys observedAt runId) := by
  obtain ⟨⟨t1,n⟩,h1,h⟩ := bind_ok.mp h
  obtain rfl : t1 = t' := (Prod.mk.inj (Except.ok.inj h)).1
  rw [affirmChunks_rows h1]
  refine List.map_congr_left fun v _ => ?_
  have hsame : openPresent kind (chunks (uniqueSorted keys) keyChunk).flatten v =
      openPresent kind keys v := by
    rw [Bool.eq_iff_iff, openPresent_iff, openPresent_iff]
    simp only [mem_chunks (by decide : 0 < keyChunk), mem_uniqueSorted]
  simp only [contained, hsame]

/-- No contained version would be pulled back onto the start of another one. -/
def Unmet (kind : ObservationKind) (containers : List String) (observedAt : Instant)
    (rows : List ObjectVersion) : Prop :=
  ∀ v ∈ rows, openPresent kind containers v = true → observedAt < v.validFrom →
    ∀ w ∈ rows, w ≠ v → w.object = v.object → w.validFrom ≠ observedAt

theorem affirmChunk_returns {t : Table} {containers : List String}
    (h : Unmet kind containers observedAt t.rows) :
    ∃ t' n, affirmChunk kind observedAt runId containers t = .ok (t',n) := by
  have hchecks : ∀ v ∈ t.rows, openPresent kind containers v = true → _ := fun v hv _ =>
    of_decide_eq_true (t.checked v hv)
  obtain ⟨t1,h1⟩ : ∃ t1, t.updateWhere
      (fun v => openPresent kind containers v ∧ v.lastSeenAt < observedAt)
      (fun v => { v with lastSeenAt := observedAt, lastSeenRunId := runId }) = .ok t1 := by
    refine updateWhere_returns (fun v _ hv => ?_) (fun _ => ⟨rfl,rfl⟩) fun v hv hp => ?_
    · exact (openPresent_iff.mp (of_decide_eq_true hv).1).2.1
    · obtain ⟨hp,hlt⟩ := of_decide_eq_true hp
      obtain ⟨hle,-,hrest⟩ := hchecks v hv hp
      have hopen : v.validTo = none := by simpa [ObjectVersion.isOpen] using (openPresent_iff.mp hp).2.1
      refine ⟨decide_eq_true ⟨hle.trans hlt.le,?_,hrest⟩,fun w hw hne hobj => ?_⟩
      · simp [hopen]
      · exact (t.compatible_of_ne hw hv hne hobj).1
  have hrows := updateWhere_rows h1 (fun v _ hv =>
    (openPresent_iff.mp (of_decide_eq_true hv).1).2.1) (fun _ => ⟨rfl,rfl⟩)
  obtain ⟨t2,h2⟩ : ∃ t2, t1.updateWhere
      (fun v => openPresent kind containers v ∧ observedAt < v.validFrom)
      (fun v => { v with validFrom := observedAt, openedByRunId := runId }) = .ok t2 := by
    refine updateWhere_returns (fun v _ hv => ?_) (fun _ => ⟨rfl,rfl⟩) fun v hv hp => ?_
    · exact (openPresent_iff.mp (of_decide_eq_true hv).1).2.1
    · obtain ⟨hp,hlt⟩ := of_decide_eq_true hp
      have hck : _ ∧ _ := of_decide_eq_true (t1.checked v hv)
      obtain ⟨hle,hto,hrest⟩ := hck
      refine ⟨decide_eq_true ⟨hlt.le.trans hle,hto,hrest⟩,fun w hw hne hobj => ?_⟩
      rw [hrows] at hv hw
      obtain ⟨x,hx,rfl⟩ := List.mem_map.mp hv
      obtain ⟨y,hy,rfl⟩ := List.mem_map.mp hw
      have hfrom : ∀ z : ObjectVersion, (if decide (openPresent kind containers z = true ∧
          z.lastSeenAt < observedAt) = true then
          { z with lastSeenAt := observedAt, lastSeenRunId := runId } else z).validFrom =
          z.validFrom := fun z => by split <;> rfl
      have hobject : ∀ z : ObjectVersion, (if decide (openPresent kind containers z = true ∧
          z.lastSeenAt < observedAt) = true then
          { z with lastSeenAt := observedAt, lastSeenRunId := runId } else z).object =
          z.object := fun z => by split <;> rfl
      have hpres : ∀ z : ObjectVersion, openPresent kind containers
          (if decide (openPresent kind containers z = true ∧ z.lastSeenAt < observedAt) = true then
          { z with lastSeenAt := observedAt, lastSeenRunId := runId } else z) =
          openPresent kind containers z := fun z => by split <;> rfl
      rw [hfrom] at hlt ⊢
      rw [hobject, hobject] at hobj
      rw [hpres] at hp
      exact h x hx hp hlt y hy (fun e => hne (by rw [e])) hobj
  exact ⟨t2,_,bind_ok.mpr ⟨t1,h1,bind_ok.mpr ⟨t2,h2,rfl⟩⟩⟩

theorem contained_object (kind : ObservationKind) (containers : List String) (observedAt : Instant)
    (runId : RunId) (v : ObjectVersion) :
    (contained kind containers observedAt runId v).object = v.object := by
  unfold contained
  split
  · rw [grow_eq]; rfl
  · rfl

theorem contained_open (kind : ObservationKind) (containers : List String) (observedAt : Instant)
    (runId : RunId) (v : ObjectVersion) :
    (contained kind containers observedAt runId v).isOpen = v.isOpen := by
  unfold contained
  split
  · rw [grow_eq]; rfl
  · rfl

theorem grow_reaches (at' : Instant) (run : RunId) (v : ObjectVersion) :
    (grow at' run v).validFrom ≤ at' := by
  rw [grow_eq]
  simp only
  split
  · exact le_rfl
  · next h => exact not_lt.mp h

/-- A chunk leaves nothing for a later one to run into. -/
theorem unmet_contained {t : Table} {cs ds : List String}
    (h : Unmet kind ds observedAt t.rows) :
    Unmet kind ds observedAt (t.rows.map (contained kind cs observedAt runId)) := by
  intro v hv hp hlt w hw hne hobj
  obtain ⟨x,hx,rfl⟩ := List.mem_map.mp hv
  obtain ⟨y,hy,rfl⟩ := List.mem_map.mp hw
  rw [contained_object, contained_object] at hobj
  have hxy : y ≠ x := fun e => hne (by rw [e])
  have hsame : contained kind cs observedAt runId x = x := by
    unfold contained at hlt ⊢
    split
    · next hc =>
      rw [if_pos hc] at hlt
      exact absurd hlt (not_lt.mpr (grow_reaches observedAt runId x))
    · rfl
  rw [hsame] at hp hlt
  have hopen : x.isOpen = true := (openPresent_iff.mp hp).2.1
  have hclosed : contained kind cs observedAt runId y = y := by
    unfold contained
    rw [if_neg]
    intro hc
    exact (t.compatible_of_ne hy hx hxy hobj).2 ⟨(openPresent_iff.mp hc).2.1,hopen⟩
  rw [hclosed]
  exact h x hx hp hlt y hy hxy hobj

theorem unmet_of_subset {rows : List ObjectVersion} {cs ds : List String} (hsub : ∀ c ∈ cs, c ∈ ds)
    (h : Unmet kind ds observedAt rows) : Unmet kind cs observedAt rows := by
  intro v hv hp
  obtain ⟨hk,ho,hpr,c,hc,hvc⟩ := openPresent_iff.mp hp
  exact h v hv (openPresent_iff.mpr ⟨hk,ho,hpr,c,hsub c hc,hvc⟩)

theorem affirmChunks_returns {t : Table} {cs : List (List String)} {n : ℕ}
    (h : Unmet kind cs.flatten observedAt t.rows) :
    ∃ t' m, affirmChunks kind observedAt runId cs n t = .ok (t',m) := by
  induction cs generalizing t n with
  | nil => exact ⟨t,n,rfl⟩
  | cons chunk cs ih =>
    rw [List.flatten_cons] at h
    obtain ⟨t1,k,h1⟩ : ∃ t1 k, affirmChunk kind observedAt runId chunk t = .ok (t1,k) :=
      affirmChunk_returns (unmet_of_subset (fun c hc => List.mem_append_left cs.flatten hc) h)
    have hrest : Unmet kind cs.flatten observedAt t1.rows := by
      rw [affirmChunk_rows h1]
      exact unmet_contained (unmet_of_subset (fun c hc => List.mem_append_right chunk hc) h)
    obtain ⟨t',m,h'⟩ := ih hrest (n := n+k)
    exact ⟨t',m,bind_ok.mpr ⟨(t1,k),h1,h'⟩⟩

theorem affirmContained_returns {t : Table} {keys : List String}
    (h : Unmet kind keys observedAt t.rows) :
    ∃ t' o, affirmContained kind keys observedAt runId t = .ok (t',o) := by
  obtain ⟨t',m,h'⟩ : ∃ t' m, affirmChunks kind observedAt runId
      (chunks (uniqueSorted keys) keyChunk) 0 t = .ok (t',m) :=
    affirmChunks_returns (unmet_of_subset (fun c hc => mem_uniqueSorted.mp
      ((mem_chunks (by decide : 0 < keyChunk)).mp hc)) h)
  exact ⟨t',_,bind_ok.mpr ⟨(t',m),h',rfl⟩⟩

end Affirm

end Adg.HistorySteps
