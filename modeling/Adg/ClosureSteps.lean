import Adg.HistorySteps

/-!
# What closing a scope does to the table

A version is lost to a scope when its key is a candidate of its kind, the run
did not observe it and nothing newer confirmed it. A lost present version is
closed and a tombstone added; a lost tombstone is confirmed. Whether a version
is lost depends on that version and the other tables, not on its neighbours.
-/

set_option autoImplicit false

namespace Adg.ClosureSteps
open Adg.Observation Adg.ObjectVersions Adg.VersionTable Adg.CurrentState Adg.ScopeClosure
open Adg.HistoryWriter Adg.HistorySteps
open Adg.Fallible (bind_ok)

section Rule
variable {db : Database} {kind : ObservationKind} {candidates : List String} {runId : RunId}
  {completedAt : Instant}

/-- One rule's loss: what `_unobserved_open_versions` selects. -/
def unobserved (db : Database) (kind : ObservationKind) (candidates : List String) (runId : RunId)
    (completedAt : Instant) (v : ObjectVersion) : Prop :=
  v.kind = kind ∧ v.isOpen = true ∧ v.lastSeenAt ≤ completedAt ∧ v.key ∈ candidates ∧
    db.observed runId kind v.key = false

instance : DecidablePred (unobserved db kind candidates runId completedAt) := fun v => by
  unfold unobserved; infer_instance

/-- A version that is lost, after its rule. -/
def closedBy (completedAt : Instant) (runId : RunId) (v : ObjectVersion) : ObjectVersion :=
  if v.isPresent then (closing v.versionId completedAt .absent runId).2 v
  else (reaffirmation v completedAt runId).2 v

theorem closedBy_id (completedAt : Instant) (runId : RunId) (v : ObjectVersion) :
    (closedBy completedAt runId v).versionId = v.versionId := by
  unfold closedBy
  split <;> rfl

theorem closedBy_object (completedAt : Instant) (runId : RunId) (v : ObjectVersion) :
    (closedBy completedAt runId v).object = v.object := by
  unfold closedBy
  split <;> rfl

theorem mem_unobserved {v : ObjectVersion} :
    v ∈ unobservedOpenVersions db kind candidates runId completedAt ↔
      v ∈ db.versions.rows ∧ unobserved db kind candidates runId completedAt v := by
  unfold unobservedOpenVersions unobserved
  rw [List.mem_insertionSort, List.mem_filter]
  simp

theorem unobserved_nodup :
    (unobservedOpenVersions db kind candidates runId completedAt).Nodup :=
  (List.perm_insertionSort _ _).nodup_iff.mpr
    ((List.Nodup.of_map _ db.versions.ids_nodup).filter _)

/-- The present versions that a rule closes. -/
def lostPresent (db : Database) (kind : ObservationKind) (candidates : List String)
    (runId : RunId) (completedAt : Instant) : List ObjectVersion :=
  (unobservedOpenVersions db kind candidates runId completedAt).filter (·.isPresent)

def lostAbsent (db : Database) (kind : ObservationKind) (candidates : List String)
    (runId : RunId) (completedAt : Instant) : List ObjectVersion :=
  (unobservedOpenVersions db kind candidates runId completedAt).filter (¬ ·.isPresent)

theorem mem_lostPresent {v : ObjectVersion} :
    v ∈ lostPresent db kind candidates runId completedAt ↔ v ∈ db.versions.rows ∧
      unobserved db kind candidates runId completedAt v ∧ v.isPresent = true := by
  unfold lostPresent
  rw [List.mem_filter, mem_unobserved, and_assoc]

theorem mem_lostAbsent {v : ObjectVersion} :
    v ∈ lostAbsent db kind candidates runId completedAt ↔ v ∈ db.versions.rows ∧
      unobserved db kind candidates runId completedAt v ∧ v.isPresent = false := by
  unfold lostAbsent
  rw [List.mem_filter, mem_unobserved, and_assoc]
  simp

variable (db kind candidates runId completedAt) in
theorem lostPresent_selection :
    Selection db.versions (lostPresent db kind candidates runId completedAt)
      (some ∘ fun v => closing v.versionId completedAt .absent runId) := by
  refine ⟨fun v hv => (mem_lostPresent.mp hv).1,fun v hv => (mem_lostPresent.mp hv).2.1.2.1,
    unobserved_nodup.filter _,fun v u hu => ?_⟩
  cases hu
  exact closing_names v completedAt .absent runId

theorem lostAbsent_selection {t : Table}
    (hstored : ∀ v ∈ lostAbsent db kind candidates runId completedAt, v ∈ t.rows) :
    Selection t (lostAbsent db kind candidates runId completedAt)
      (some ∘ fun v => reaffirmation v completedAt runId) := by
  refine ⟨hstored,fun v hv => (mem_lostAbsent.mp hv).2.1.2.1,
    unobserved_nodup.filter _,fun v u hu => ?_⟩
  cases hu
  exact reaffirmation_names v completedAt runId

/-- A stored version after one rule. -/
def ruled (db : Database) (kind : ObservationKind) (candidates : List String) (runId : RunId)
    (completedAt : Instant) (v : ObjectVersion) : ObjectVersion :=
  if unobserved db kind candidates runId completedAt v then closedBy completedAt runId v else v

def tombstones (db : Database) (kind : ObservationKind) (candidates : List String)
    (runId : RunId) (completedAt : Instant) : List ObjectVersion :=
  (lostPresent db kind candidates runId completedAt).map fun v => tombstone v completedAt runId

theorem closeRule_split :
    closeRule db kind candidates runId completedAt =
      (db.versions.updateAll ((lostPresent db kind candidates runId completedAt).filterMap
        (some ∘ fun v => closing v.versionId completedAt .absent runId)) >>= fun t1 =>
      t1.insertAll (tombstones db kind candidates runId completedAt) >>= fun t2 =>
      t2.updateAll ((lostAbsent db kind candidates runId completedAt).filterMap
        (some ∘ fun v => reaffirmation v completedAt runId)) >>= fun t3 =>
      return (t3,(lostPresent db kind candidates runId completedAt).length,
        (lostAbsent db kind candidates runId completedAt).length)) := by
  rw [List.filterMap_eq_map, List.filterMap_eq_map]
  rfl

/-- Closing leaves the lost tombstones where they are. -/
theorem lostAbsent_stays {t1 t2 : Table}
    (h1 : db.versions.updateAll ((lostPresent db kind candidates runId completedAt).filterMap
      (some ∘ fun v => closing v.versionId completedAt .absent runId)) = .ok t1)
    (h2 : t1.insertAll (tombstones db kind candidates runId completedAt) = .ok t2) :
    ∀ v ∈ lostAbsent db kind candidates runId completedAt, v ∈ t2.rows := by
  intro v hv
  obtain ⟨hmem,-,habs⟩ := mem_lostAbsent.mp hv
  rw [(Table.insertAll_ok h2).1, ((lostPresent_selection ..).rows h1).1]
  refine List.mem_append_left _ (List.mem_map.mpr ⟨v,hmem,?_⟩)
  unfold updated
  rw [if_neg]
  intro hp
  rw [(mem_lostPresent.mp hp).2.2] at habs
  cases habs

/-- The rows after one rule that was not refused. -/
theorem closeRule_rows {t' : Table} {counts : ℕ × ℕ}
    (h : closeRule db kind candidates runId completedAt = .ok (t',counts)) :
    t'.rows = db.versions.rows.map (ruled db kind candidates runId completedAt) ++
      numberedFrom db.versions.nextId (tombstones db kind candidates runId completedAt) ∧
    t'.nextId = db.versions.nextId+(tombstones db kind candidates runId completedAt).length := by
  rw [closeRule_split] at h
  obtain ⟨t1,h1,h⟩ := bind_ok.mp h
  obtain ⟨t2,h2,h⟩ := bind_ok.mp h
  obtain ⟨t3,h3,h⟩ := bind_ok.mp h
  obtain rfl : t3 = t' := (Prod.mk.inj (Except.ok.inj h)).1
  have hsel := lostAbsent_selection (lostAbsent_stays h1 h2)
  obtain ⟨hrows1,hnext1⟩ := (lostPresent_selection ..).rows h1
  obtain ⟨hrows2,hnext2⟩ := Table.insertAll_ok h2
  obtain ⟨hrows3,hnext3⟩ := hsel.rows h3
  refine ⟨?_,by rw [hnext3, hnext2, hnext1]⟩
  rw [hrows3, hrows2, hrows1, hnext1, List.map_append, List.map_map]
  congr 1
  · refine List.map_congr_left fun v hv => ?_
    unfold ruled closedBy
    by_cases hu : unobserved db kind candidates runId completedAt v
    · cases hp : v.isPresent with
      | true =>
        have hin : v ∈ lostPresent db kind candidates runId completedAt :=
          mem_lostPresent.mpr ⟨hv,hu,hp⟩
        have hnot : (closing v.versionId completedAt .absent runId).2 v ∉
            lostAbsent db kind candidates runId completedAt := fun hm => by
          have := (mem_lostAbsent.mp hm).2.2
          rw [show ((closing v.versionId completedAt .absent runId).2 v).isPresent = v.isPresent
            from rfl, hp] at this
          cases this
        have hstep : updated (lostPresent db kind candidates runId completedAt)
            (some ∘ fun v => closing v.versionId completedAt .absent runId) v =
            (closing v.versionId completedAt .absent runId).2 v := by
          unfold updated; rw [if_pos hin]; rfl
        simp only [Function.comp, hstep, hu, if_true]
        unfold updated
        rw [if_neg hnot]
      | false =>
        have hin : v ∈ lostAbsent db kind candidates runId completedAt :=
          mem_lostAbsent.mpr ⟨hv,hu,hp⟩
        have hnot : v ∉ lostPresent db kind candidates runId completedAt := fun hm => by
          rw [(mem_lostPresent.mp hm).2.2] at hp
          cases hp
        have hstep : updated (lostPresent db kind candidates runId completedAt)
            (some ∘ fun v => closing v.versionId completedAt .absent runId) v = v := by
          unfold updated; rw [if_neg hnot]
        simp only [Function.comp, hstep, hu, if_true]
        unfold updated
        rw [if_pos hin]
        rfl
    · have hnot : v ∉ lostPresent db kind candidates runId completedAt := fun hm =>
        hu (mem_lostPresent.mp hm).2.1
      have hnot' : v ∉ lostAbsent db kind candidates runId completedAt := fun hm =>
        hu (mem_lostAbsent.mp hm).2.1
      simp only [Function.comp, updated, hnot, hnot', if_false, hu]
  · refine (List.map_congr_left fun v hv => ?_).trans (List.map_id' _)
    obtain ⟨w,-,m,hm,rfl⟩ := mem_numberedFrom hv
    unfold updated
    rw [if_neg]
    intro hin
    exact absurd (db.versions.ids_fresh _ (mem_lostAbsent.mp hin).1) (not_lt.mpr hm)

/-- A rule that finds room for its tombstones is accepted. -/
theorem closeRule_returns
    (hroom : ∀ v ∈ db.versions.rows, unobserved db kind candidates runId completedAt v →
      v.isPresent = true → ∀ w ∈ db.versions.rows, w.object = v.object →
        w.validFrom ≠ completedAt) :
    ∃ t' counts, closeRule db kind candidates runId completedAt = .ok (t',counts) := by
  have hck : ∀ v ∈ db.versions.rows, _ := fun v hv => of_decide_eq_true (db.versions.checked v hv)
  obtain ⟨t1,h1⟩ := (lostPresent_selection db kind candidates runId completedAt).returns fun v hv u hu => by
    cases hu
    obtain ⟨hm,hun,-⟩ := mem_lostPresent.mp hv
    obtain ⟨hle,-,-,-,hrest⟩ := hck v hm
    refine ⟨decide_eq_true ⟨hle,?_,rfl,rfl,hrest⟩,fun w hw hne hobj => ?_⟩
    · exact decide_eq_true hun.2.2.1
    · exact (db.versions.compatible_of_ne hw hm hne hobj).1
  have hrows1 := ((lostPresent_selection ..).rows h1).1
  have hnew : ∀ v ∈ tombstones db kind candidates runId completedAt, checks v = true := by
    intro v hv
    obtain ⟨w,-,rfl⟩ := List.mem_map.mp hv
    simp [checks, tombstone]
  have hdistinct : (tombstones db kind candidates runId completedAt).Pairwise Compatible := by
    refine List.pairwise_map.mpr ((unobserved_nodup.filter _).imp_of_mem
      fun {v w} hv hw hne hobj => ?_)
    obtain ⟨hv,huv,-⟩ := mem_lostPresent.mp hv
    obtain ⟨hw,huw,-⟩ := mem_lostPresent.mp hw
    exact absurd ⟨huv.2.1,huw.2.1⟩ (db.versions.compatible_of_ne hv hw hne hobj).2
  obtain ⟨t2,h2⟩ : ∃ t2, t1.insertAll (tombstones db kind candidates runId completedAt) = .ok t2 := by
    refine Table.insertAll_returns hnew (fun x hx r hr hobj => ?_) hdistinct
    obtain ⟨v,hv,rfl⟩ := List.mem_map.mp hx
    obtain ⟨hvm,huv,hvp⟩ := mem_lostPresent.mp hv
    rw [hrows1] at hr
    obtain ⟨w,hw,rfl⟩ := List.mem_map.mp hr
    by_cases hsel : w ∈ lostPresent db kind candidates runId completedAt
    · have hstep : updated (lostPresent db kind candidates runId completedAt)
          (some ∘ fun v => closing v.versionId completedAt .absent runId) w =
          (closing w.versionId completedAt .absent runId).2 w := by
        unfold updated; rw [if_pos hsel]; rfl
      rw [hstep] at hobj ⊢
      exact ⟨hroom v hvm huv hvp w hw hobj,fun hb => by cases hb.1⟩
    · have hstep : updated (lostPresent db kind candidates runId completedAt)
          (some ∘ fun v => closing v.versionId completedAt .absent runId) w = w := by
        unfold updated; rw [if_neg hsel]
      rw [hstep] at hobj ⊢
      refine ⟨hroom v hvm huv hvp w hw hobj,fun hb => ?_⟩
      have hne : w ≠ v := fun e => hsel (e ▸ hv)
      exact (db.versions.compatible_of_ne hw hvm hne hobj).2 ⟨hb.1,huv.2.1⟩
  have hstays := lostAbsent_stays h1 h2
  obtain ⟨t3,h3⟩ := (lostAbsent_selection hstays).returns fun v hv u hu => by
    cases hu
    obtain ⟨hm,hun,-⟩ := mem_lostAbsent.mp hv
    obtain ⟨hle,-,hrest⟩ := hck v hm
    have hopen : v.validTo = none := by simpa [ObjectVersion.isOpen] using hun.2.1
    refine ⟨decide_eq_true ⟨hle.trans hun.2.2.1,by simp [reaffirmation, hopen],hrest⟩,
      fun w hw hne hobj => ?_⟩
    exact (t2.compatible_of_ne hw (hstays v hv) hne hobj).1
  exact ⟨t3,_,by
    rw [closeRule_split]
    exact bind_ok.mpr ⟨t1,h1,bind_ok.mpr ⟨t2,h2,bind_ok.mpr ⟨t3,h3,rfl⟩⟩⟩⟩

end Rule

/-! ### The rules of a scope -/

section Scope
variable {db : Database} {rules : List ClosureRule} {subtree : Option Selector} {runId : RunId}
  {scopeKey : String} {completedAt : Instant}

/-- A version that the rule of its kind loses. -/
def lost (db : Database) (rules : List ClosureRule) (subtree : Option Selector) (runId : RunId)
    (scopeKey : String) (completedAt : Instant) (kinds : List ObservationKind)
    (v : ObjectVersion) : Bool :=
  v.kind ∈ kinds ∧ unobserved db v.kind
    (scopeCandidates db runId scopeKey rules subtree rules.length v.kind) runId completedAt v

/-- A stored version after the rules of some kinds. -/
def scopeClosed (db : Database) (rules : List ClosureRule) (subtree : Option Selector)
    (runId : RunId) (scopeKey : String) (completedAt : Instant) (kinds : List ObservationKind)
    (v : ObjectVersion) : ObjectVersion :=
  if lost db rules subtree runId scopeKey completedAt kinds v then closedBy completedAt runId v
  else v

theorem lost_iff {kinds : List ObservationKind} {v : ObjectVersion} :
    lost db rules subtree runId scopeKey completedAt kinds v = true ↔ v.kind ∈ kinds ∧
      unobserved db v.kind
        (scopeCandidates db runId scopeKey rules subtree rules.length v.kind) runId completedAt v :=
  decide_eq_true_iff

theorem ruled_kind {db : Database} {kind : ObservationKind} {candidates : List String}
    {v : ObjectVersion} (h : v.kind ≠ kind) : ruled db kind candidates runId completedAt v = v := by
  unfold ruled
  rw [if_neg fun hu => h hu.1]

theorem kind_of_object {v w : ObjectVersion} (h : v.object = w.object) : v.kind = w.kind :=
  (Prod.mk.inj h).1

variable (runId completedAt) in
theorem ruled_object (db : Database) (kind : ObservationKind) (candidates : List String)
    (v : ObjectVersion) : (ruled db kind candidates runId completedAt v).object = v.object := by
  unfold ruled
  split
  · exact closedBy_object completedAt runId v
  · rfl

/-- A rule leaves the rows of the other kinds alone. -/
theorem closeRule_others {t t' : Table} {kind : ObservationKind} {candidates : List String}
    {counts : ℕ × ℕ}
    (h : closeRule { db with versions := t } kind candidates runId completedAt = .ok (t',counts))
    {v : ObjectVersion} (hv : v.kind ≠ kind) : v ∈ t'.rows ↔ v ∈ t.rows := by
  rw [(closeRule_rows h).1, List.mem_append]
  constructor
  · rintro (hm | hm)
    · obtain ⟨w,hw,rfl⟩ := List.mem_map.mp hm
      rw [kind_of_object (ruled_object _ _ _ kind candidates w)] at hv
      rwa [ruled_kind hv]
    · obtain ⟨w,hw,m,-,rfl⟩ := mem_numberedFrom hm
      obtain ⟨x,hx,rfl⟩ := List.mem_map.mp hw
      exact absurd (mem_lostPresent.mp hx).2.1.1 hv
  · exact fun hm => .inl (List.mem_map.mpr ⟨v,hm,ruled_kind hv⟩)

theorem lost_head {rule : ClosureRule} {kinds : List ObservationKind} {v : ObjectVersion}
    (h : v.kind = rule.kind) :
    lost db rules subtree runId scopeKey completedAt (rule.kind :: kinds) v = true ↔
      unobserved db rule.kind
        (scopeCandidates db runId scopeKey rules subtree rules.length rule.kind) runId
        completedAt v := by
  rw [lost_iff, h]
  simp

theorem lost_tail {rule : ClosureRule} {kinds : List ObservationKind} {v : ObjectVersion}
    (h : v.kind ≠ rule.kind) :
    lost db rules subtree runId scopeKey completedAt (rule.kind :: kinds) v =
      lost db rules subtree runId scopeKey completedAt kinds v := by
  rw [Bool.eq_iff_iff, lost_iff, lost_iff, List.mem_cons, or_iff_right h]

theorem lost_fresh {rule : ClosureRule} {kinds : List ObservationKind} {v : ObjectVersion}
    (h : v.kind = rule.kind) (hn : rule.kind ∉ kinds) :
    lost db rules subtree runId scopeKey completedAt kinds v = false := by
  rw [← Bool.not_eq_true, lost_iff, h]
  exact fun hl => hn hl.1

/-- The rows after the rules of a scope. -/
theorem closeRules_rows {rest : List ClosureRule} {o o' : ClosureOutcome} {t t' : Table}
    (hn : (rest.map (·.kind)).Nodup)
    (h : closeRules db rules subtree runId scopeKey completedAt rest o t = .ok (t',o')) :
    ∃ news, t'.rows =
        t.rows.map (scopeClosed db rules subtree runId scopeKey completedAt (rest.map (·.kind))) ++
          numberedFrom t.nextId news ∧
      ∀ w, w ∈ news ↔ ∃ v ∈ t.rows,
        lost db rules subtree runId scopeKey completedAt (rest.map (·.kind)) v = true ∧
        v.isPresent = true ∧ w = tombstone v completedAt runId := by
  induction rest generalizing t o with
  | nil =>
    obtain rfl : t = t' := (Prod.mk.inj (Except.ok.inj h)).1
    have hnone : ∀ v, lost db rules subtree runId scopeKey completedAt [] v = false := fun v => by
      rw [← Bool.not_eq_true, lost_iff]
      simp
    refine ⟨[],?_,fun w => by simp [hnone]⟩
    have hall : ∀ v ∈ t.rows,
        scopeClosed db rules subtree runId scopeKey completedAt [] v = v := fun v _ => by
      simp [scopeClosed, hnone]
    rw [List.map_nil, List.map_congr_left hall, List.map_id', numberedFrom, List.append_nil]
  | cons rule rest ih =>
    obtain ⟨hfresh,hn⟩ := List.nodup_cons.mp hn
    obtain ⟨⟨t1,c,r⟩,h1,h⟩ := bind_ok.mp h
    obtain ⟨news,hrows,hnews⟩ := ih hn h
    obtain ⟨hrows1,hnext1⟩ := closeRule_rows h1
    refine ⟨tombstones { db with versions := t } rule.kind
      (scopeCandidates db runId scopeKey rules subtree rules.length rule.kind) runId completedAt ++
        news,?_,fun w => ?_⟩
    · rw [hrows, hrows1, hnext1, List.map_append, List.map_map, numberedFrom_append,
        ← List.append_assoc]
      congr 2
      · refine List.map_congr_left fun v _ => ?_
        by_cases hk : v.kind = rule.kind
        · have hobj := ruled_object runId completedAt
            { db with versions := t } rule.kind
            (scopeCandidates db runId scopeKey rules subtree rules.length rule.kind) v
          simp only [Function.comp, scopeClosed]
          rw [lost_fresh ((kind_of_object hobj).trans hk) hfresh]
          simp only [Bool.false_eq_true, if_false, ruled, List.map_cons]
          by_cases hu : unobserved db rule.kind
              (scopeCandidates db runId scopeKey rules subtree rules.length rule.kind) runId
              completedAt v
          · rw [if_pos (show unobserved { db with versions := t } _ _ _ _ _ from hu),
              if_pos ((lost_head hk).mpr hu)]
          · rw [if_neg (show ¬ unobserved { db with versions := t } _ _ _ _ _ from hu),
              if_neg fun hl => hu ((lost_head hk).mp hl)]
        · simp only [Function.comp, ruled_kind hk, scopeClosed, List.map_cons]
          rw [lost_tail hk]
      · refine (List.map_congr_left fun v hv => ?_).trans (List.map_id' _)
        obtain ⟨w,hw,m,-,rfl⟩ := mem_numberedFrom hv
        obtain ⟨x,hx,rfl⟩ := List.mem_map.mp hw
        have hk : (numbered m (tombstone x completedAt runId)).kind = rule.kind :=
          (mem_lostPresent.mp hx).2.1.1
        unfold scopeClosed
        rw [lost_fresh hk hfresh]
        rfl
    · rw [List.mem_append, hnews]
      constructor
      · rintro (hw | ⟨v,hv,hl,hp,rfl⟩)
        · obtain ⟨v,hv,rfl⟩ := List.mem_map.mp hw
          obtain ⟨hm,hu,hp⟩ := mem_lostPresent.mp hv
          exact ⟨v,hm,(lost_head hu.1).mpr hu,hp,rfl⟩
        · have hk : v.kind ≠ rule.kind := fun e => by
            rw [lost_fresh e hfresh] at hl
            cases hl
          exact ⟨v,(closeRule_others h1 hk).mp hv,(lost_tail hk).symm ▸ hl,hp,rfl⟩
      · rintro ⟨v,hv,hl,hp,rfl⟩
        by_cases hk : v.kind = rule.kind
        · exact .inl (List.mem_map.mpr ⟨v,mem_lostPresent.mpr ⟨hv,(lost_head hk).mp hl,hp⟩,rfl⟩)
        · exact .inr ⟨v,(closeRule_others h1 hk).mpr hv,lost_tail hk ▸ hl,hp,rfl⟩

theorem closeRules_returns {rest : List ClosureRule} {o : ClosureOutcome} {t : Table}
    (hn : (rest.map (·.kind)).Nodup)
    (hroom : ∀ v ∈ t.rows,
      lost db rules subtree runId scopeKey completedAt (rest.map (·.kind)) v = true →
      v.isPresent = true → ∀ w ∈ t.rows, w.object = v.object → w.validFrom ≠ completedAt) :
    ∃ t' o', closeRules db rules subtree runId scopeKey completedAt rest o t = .ok (t',o') := by
  induction rest generalizing t o with
  | nil => exact ⟨t,o,rfl⟩
  | cons rule rest ih =>
    obtain ⟨hfresh,hn⟩ := List.nodup_cons.mp hn
    obtain ⟨t1,⟨c,r⟩,h1⟩ : ∃ t1 counts, closeRule { db with versions := t } rule.kind
        (scopeCandidates db runId scopeKey rules subtree rules.length rule.kind) runId
        completedAt = .ok (t1,counts) :=
      closeRule_returns fun v hv hu hp => hroom v hv ((lost_head hu.1).mpr hu) hp
    obtain ⟨t',o',h'⟩ := ih (t := t1) hn (fun v hv hl hp w hw hobj => by
      have hk : v.kind ≠ rule.kind := fun e => by
        rw [lost_fresh e hfresh] at hl
        cases hl
      have hkw : w.kind ≠ rule.kind := fun e => hk ((kind_of_object hobj).symm.trans e)
      exact hroom v ((closeRule_others h1 hk).mp hv) ((lost_tail hk).symm ▸ hl) hp w
        ((closeRule_others h1 hkw).mp hw) hobj)
    exact ⟨t',o',bind_ok.mpr ⟨(t1,c,r),h1,h'⟩⟩

end Scope

/-! ### One scope -/

section CloseAbsent
variable {casefold : String → String} {db : Database} {runId : RunId} {collector : CollectorKind}
  {scopeKind : ScopeKind} {scopeKey : String} {completedAt : Instant}

/-- The subtree of a scope, or nothing where its key does not locate one. -/
def boundary (casefold : String → String) (scopeKind : ScopeKind) (scopeKey : String) :
    Option (Option Selector) :=
  if scopeKind = .directoryTree then
    match directorySubtreeOf casefold scopeKey with
    | .error _ => none
    | .ok subtree => some (some subtree)
  else some none

/-- A version that closing the scope loses. -/
def lostToScope (casefold : String → String) (db : Database) (runId : RunId)
    (collector : CollectorKind) (scopeKind : ScopeKind) (scopeKey : String) (completedAt : Instant)
    (v : ObjectVersion) : Bool :=
  match boundary casefold scopeKind scopeKey with
  | none => false
  | some subtree => lost db (closureRulesFor collector scopeKind) subtree runId scopeKey completedAt
      ((closureRulesFor collector scopeKind).map (·.kind)) v

/-- A stored version after `close_absent`. -/
def absented (casefold : String → String) (db : Database) (runId : RunId)
    (collector : CollectorKind) (scopeKind : ScopeKind) (scopeKey : String) (completedAt : Instant)
    (v : ObjectVersion) : ObjectVersion :=
  if lostToScope casefold db runId collector scopeKind scopeKey completedAt v then
    closedBy completedAt runId v
  else v

variable (casefold db runId collector scopeKind scopeKey completedAt) in
/-- A scope is closed by its rules, from an outcome that counts nothing yet. -/
theorem closeAbsent_cases : ∃ o : ClosureOutcome, o.closed = [] ∧ o.reaffirmed = [] ∧
    ((boundary casefold scopeKind scopeKey = none ∧
      closeAbsent casefold db runId collector scopeKind scopeKey completedAt =
        .ok (db.versions,o)) ∨
    ∃ subtree, boundary casefold scopeKind scopeKey = some subtree ∧
      ((closureRulesFor collector scopeKind = [] ∧
        closeAbsent casefold db runId collector scopeKind scopeKey completedAt =
          .ok (db.versions,o)) ∨
      closeAbsent casefold db runId collector scopeKind scopeKey completedAt =
        closeRules db (closureRulesFor collector scopeKind) subtree runId scopeKey completedAt
          (closureRulesFor collector scopeKind) o db.versions)) := by
  unfold closeAbsent boundary
  by_cases hr : closureRulesFor collector scopeKind = []
  · by_cases hs : scopeKind = .directoryTree
    · cases hd : directorySubtreeOf casefold scopeKey with
      | error e => exact ⟨_,rfl,rfl,.inl ⟨by simp [hs],by rw [if_pos hr]; rfl⟩⟩
      | ok s => exact ⟨_,rfl,rfl,.inr ⟨some s,by simp [hs],.inl ⟨hr,by rw [if_pos hr]; rfl⟩⟩⟩
    · exact ⟨_,rfl,rfl,.inr ⟨none,by simp [hs],.inl ⟨hr,by rw [if_pos hr]; rfl⟩⟩⟩
  · by_cases hs : scopeKind = .directoryTree
    · cases hd : directorySubtreeOf casefold scopeKey with
      | error e => exact ⟨_,rfl,rfl,.inl ⟨by simp [hs],by rw [if_neg hr, if_pos hs]; rfl⟩⟩
      | ok s => exact ⟨_,rfl,rfl,.inr ⟨some s,by simp [hs],.inr (by rw [if_neg hr, if_pos hs])⟩⟩
    · exact ⟨_,rfl,rfl,.inr ⟨none,by simp [hs],.inr (by rw [if_neg hr, if_neg hs])⟩⟩

/-- Where nothing is lost, nothing changes. -/
theorem absented_nothing
    (hnone : ∀ v,
      lostToScope casefold db runId collector scopeKind scopeKey completedAt v = false) :
    ∃ news, db.versions.rows = db.versions.rows.map
        (absented casefold db runId collector scopeKind scopeKey completedAt) ++
          numberedFrom db.versions.nextId news ∧
      ∀ w, w ∈ news ↔ ∃ v ∈ db.versions.rows,
        lostToScope casefold db runId collector scopeKind scopeKey completedAt v = true ∧
        v.isPresent = true ∧ w = tombstone v completedAt runId := by
  have hall : ∀ v ∈ db.versions.rows,
      absented casefold db runId collector scopeKind scopeKey completedAt v = v := fun v _ => by
    simp [absented, hnone]
  exact ⟨[],by rw [List.map_congr_left hall, List.map_id', numberedFrom, List.append_nil],
    fun w => by simp [hnone]⟩

/-- The rows after a scope was closed. -/
theorem closeAbsent_rows {t' : Table} {o : ClosureOutcome}
    (h : closeAbsent casefold db runId collector scopeKind scopeKey completedAt = .ok (t',o)) :
    ∃ news, t'.rows = db.versions.rows.map
        (absented casefold db runId collector scopeKind scopeKey completedAt) ++
          numberedFrom db.versions.nextId news ∧
      ∀ w, w ∈ news ↔ ∃ v ∈ db.versions.rows,
        lostToScope casefold db runId collector scopeKind scopeKey completedAt v = true ∧
        v.isPresent = true ∧ w = tombstone v completedAt runId := by
  rcases closeAbsent_cases casefold db runId collector scopeKind scopeKey completedAt with ⟨o',-,-,⟨hb,ho⟩ | ⟨subtree,hb,⟨hr,ho⟩ | ho⟩⟩
  · rw [ho] at h
    obtain rfl : db.versions = t' := (Prod.mk.inj (Except.ok.inj h)).1
    exact absented_nothing fun v => by simp [lostToScope, hb]
  · rw [ho] at h
    obtain rfl : db.versions = t' := (Prod.mk.inj (Except.ok.inj h)).1
    refine absented_nothing fun v => ?_
    simp only [lostToScope, hb, hr, List.map_nil]
    rw [← Bool.not_eq_true, lost_iff]
    simp
  · rw [ho] at h
    obtain ⟨news,hrows,hnews⟩ := closeRules_rows (closureRules_kinds collector scopeKind) h
    have hlost : ∀ v, lostToScope casefold db runId collector scopeKind scopeKey completedAt v =
        lost db (closureRulesFor collector scopeKind) subtree runId scopeKey completedAt
          ((closureRulesFor collector scopeKind).map (·.kind)) v := fun v => by
      simp [lostToScope, hb]
    refine ⟨news,?_,fun w => by simp only [hlost]; exact hnews w⟩
    rw [hrows]
    congr 1
    exact List.map_congr_left fun v _ => by simp only [absented, hlost, scopeClosed]

/-- Closing a scope is accepted when no tombstone would start where a version
of its object starts. -/
theorem closeAbsent_returns
    (hroom : ∀ v ∈ db.versions.rows,
      lostToScope casefold db runId collector scopeKind scopeKey completedAt v = true →
      v.isPresent = true → ∀ w ∈ db.versions.rows, w.object = v.object →
        w.validFrom ≠ completedAt) :
    ∃ t' o, closeAbsent casefold db runId collector scopeKind scopeKey completedAt =
      .ok (t',o) := by
  rcases closeAbsent_cases casefold db runId collector scopeKind scopeKey completedAt with ⟨o',-,-,⟨-,ho⟩ | ⟨subtree,hb,⟨-,ho⟩ | ho⟩⟩
  · exact ⟨_,_,ho⟩
  · exact ⟨_,_,ho⟩
  · rw [ho]
    refine closeRules_returns (closureRules_kinds collector scopeKind) fun v hv hl hp w hw => ?_
    exact hroom v hv (by simpa [lostToScope, hb] using hl) hp w hw

end CloseAbsent

end Adg.ClosureSteps
