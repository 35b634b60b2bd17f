import Adg.HistoryRuns

/-!
# What an observed interval rests on

Beside the versions stands what has been received: the readings of each state
and the completions that looked for an object and did not find it. A version
reaches from one of these to another, as long as an affirmation confirms only
what the affirmed descriptor contained.
-/

set_option autoImplicit false

namespace Adg.WatchedIntervals
open Adg.Observation Adg.ObjectVersions Adg.VersionTable Adg.CurrentState Adg.ScopeClosure
open Adg.HistoryWriter Adg.HistorySteps Adg.ClosureSteps Adg.Timelines Adg.HistoryRuns
open Adg.Fallible (map_ok)

/-- A call, and for an affirmation the objects its descriptors contained, each
with the state it was read in. The call itself carries neither. -/
structure Received where
  call : Call
  described : List (String × State) := []

/-- The versions an affirmation speaks for. -/
def confirms : Call → ObjectVersion → Bool
  | .affirm kind keys _ _, v => v.kind = kind ∧ v.key ∈ keys ∧ v.isOpen ∧ v.isPresent
  | .affirmContained kind containerKeys _ _, v => openPresent kind containerKeys v
  | _, _ => false

/-- The readings that an accepted affirmation stands for. -/
def affirmedReadings (t : Table) (r : Received) (kind : ObservationKind) (observedAt : Instant) :
    List (Object × State × Instant) :=
  (r.described.filter fun d => t.rows.any fun v => confirms r.call v ∧ v.key = d.1).map fun d =>
    ((kind,d.1),digestibleState d.2,observedAt)

def readingsOf (t : Table) (r : Received) : List (Object × State × Instant) :=
  match r.call with
  | .record kind rows => rows.map fun x =>
      ((kind,x.key),digestibleState (storedState kind x),x.observedAt)
  | .affirm kind _ observedAt _ => affirmedReadings t r kind observedAt
  | .affirmContained kind _ observedAt _ => affirmedReadings t r kind observedAt
  | .closeAbsent .. => []

/-- The objects a completed run reconciled and had not observed. -/
def absencesOf (casefold : String → String) (t : Table) : Call → List (Object × Instant)
  | .closeAbsent db runId collector scopeKind scopeKey completedAt =>
    (t.rows.filter (lostToScope casefold { db with versions := t } runId collector scopeKind
      scopeKey completedAt)).map fun v => (v.object,completedAt)
  | _ => []

/-- The versions beside all that was received for them. -/
structure Knowledge where
  table : Table := {}
  seen : List (Object × State × Instant) := []
  missed : List (Object × Instant) := []

/-- A call that is refused aborts its transaction and is not received. -/
def receive (hash : State → String) (casefold : String → String) (k : Knowledge) (r : Received) :
    Knowledge :=
  match perform hash casefold k.table r.call with
  | .error _ => k
  | .ok t' =>
    { table := t'
      seen := k.seen ++ readingsOf k.table r
      missed := k.missed ++ absencesOf casefold k.table r.call }

def receiveAll (hash : State → String) (casefold : String → String) (k : Knowledge)
    (rs : List Received) : Knowledge :=
  rs.foldl (receive hash casefold) k

/-- Observed means watched on both sides, and nothing is known before the first
reading of an object. -/
structure Watched (k : Knowledge) : Prop where
  present : ∀ v ∈ k.table.rows, v.isPresent = true → ∀ moment,
    v.certaintyAt moment = .observed → ∃ s, v.state = some s ∧ ∃ t₁ t₂, t₁ ≤ moment ∧
      moment ≤ t₂ ∧ (v.object,digestibleState s,t₁) ∈ k.seen ∧
      (v.object,digestibleState s,t₂) ∈ k.seen
  absent : ∀ v ∈ k.table.rows, v.isPresent = false → ∀ moment,
    v.certaintyAt moment = .observed → ∃ t₁ t₂, t₁ ≤ moment ∧ moment ≤ t₂ ∧
      (v.object,t₁) ∈ k.missed ∧ (v.object,t₂) ∈ k.missed
  first : ∀ object moment, (∀ x ∈ k.seen, x.1 = object → moment < x.2.2) →
    ∀ v ∈ k.table.rows, v.object = object → v.certaintyAt moment = .unobserved

/-- An affirmation moves a version only when its descriptor contained the object
in the state the version has. -/
def Contained (t : Table) (r : Received) : Prop :=
  match r.call with
  | .affirm _ _ observedAt _ | .affirmContained _ _ observedAt _ => ∀ v ∈ t.rows,
      confirms r.call v = true → v.lastSeenAt < observedAt ∨ observedAt < v.validFrom →
      ∃ d ∈ r.described, d.1 = v.key ∧ v.state.map digestibleState = some (digestibleState d.2)
  | _ => True

instance (t : Table) (r : Received) : Decidable (Contained t r) := by
  unfold Contained
  split <;> infer_instance

/-- Every affirmation of a run is contained where it is made. -/
def AllContained (hash : State → String) (casefold : String → String) :
    Knowledge → List Received → Prop
  | _, [] => True
  | k, r :: rs => Contained k.table r ∧ AllContained hash casefold (receive hash casefold k r) rs

instance decideAllContained (hash : State → String) (casefold : String → String) :
    (k : Knowledge) → (rs : List Received) → Decidable (AllContained hash casefold k rs)
  | _, [] => isTrue trivial
  | k, r :: rs =>
    have := decideAllContained hash casefold (receive hash casefold k r) rs
    inferInstanceAs (Decidable (Contained k.table r ∧ _))

/-- The states that a run records. -/
def recordedStates (rs : List Received) : List State :=
  rs.flatMap fun r => match r.call with
    | .record kind rows => rows.map fun x => digestibleState (storedState kind x)
    | _ => []

/-- What a stored version rests on. -/
structure Rests (hash : State → String) (states : List State)
    (seen : List (Object × State × Instant)) (missed : List (Object × Instant))
    (v : ObjectVersion) : Prop where
  own : ∀ s, v.state = some s → v.stateHash = some (stateDigest hash s) ∧
    digestibleState s ∈ states
  present : v.isPresent = true → ∃ s, v.state = some s ∧
    (v.object,digestibleState s,v.validFrom) ∈ seen ∧
    (v.object,digestibleState s,v.lastSeenAt) ∈ seen
  absent : v.isPresent = false → (v.object,v.validFrom) ∈ missed ∧
    (v.object,v.lastSeenAt) ∈ missed
  first : ∃ x ∈ seen, x.1 = v.object ∧ x.2.2 ≤ v.validFrom

section Steps
variable {hash : State → String} {casefold : String → String} {states : List State}
  {seen seen' : List (Object × State × Instant)} {missed missed' : List (Object × Instant)}

theorem Rests.mono {v : ObjectVersion} (h : Rests hash states seen missed v) (hs : seen ⊆ seen')
    (hm : missed ⊆ missed') : Rests hash states seen' missed' v := by
  refine ⟨h.own,fun hp => ?_,fun hp => ?_,?_⟩
  · obtain ⟨s,hv,h1,h2⟩ := h.present hp
    exact ⟨s,hv,hs h1,hs h2⟩
  · exact ⟨hm (h.absent hp).1,hm (h.absent hp).2⟩
  · obtain ⟨x,hx,hobj,hle⟩ := h.first
    exact ⟨x,hs hx,hobj,hle⟩

/-- Closing a version changes nothing it rests on. -/
theorem Rests.closing {v : ObjectVersion} (h : Rests hash states seen missed v) (moment : Instant)
    (reason : CloseReason) (runId : RunId) :
    Rests hash states seen missed ((closing v.versionId moment reason runId).2 v) :=
  ⟨h.own,h.present,h.absent,h.first⟩

/-- A present version grows to an instant at which its state was read. -/
theorem Rests.grow {v : ObjectVersion} (h : Rests hash states seen missed v)
    (hp : v.isPresent = true) {moment : Instant} (runId : RunId)
    (hread : v.lastSeenAt < moment ∨ moment < v.validFrom →
      ∀ s, v.state = some s → (v.object,digestibleState s,moment) ∈ seen) :
    Rests hash states seen missed (grow moment runId v) := by
  obtain ⟨s,hs,h1,h2⟩ := h.present hp
  rw [grow_eq]
  refine ⟨h.own,fun _ => ⟨s,hs,?_,?_⟩,fun hf => ?_,?_⟩
  · show (v.object,digestibleState s,if moment < v.validFrom then moment else v.validFrom) ∈ seen
    split
    · next hb => exact hread (.inr hb) s hs
    · exact h1
  · show (v.object,digestibleState s,
      if v.lastSeenAt < moment then moment else v.lastSeenAt) ∈ seen
    split
    · next hf => exact hread (.inl hf) s hs
    · exact h2
  · rw [show v.isPresent = false from hf] at hp
    cases hp
  · dsimp only
    split
    · next hb => exact ⟨_,hread (.inr hb) s hs,rfl,le_rfl⟩
    · exact h.first

theorem numbered_rests {n : ℕ} {v : ObjectVersion} (h : Rests hash states seen missed v) :
    Rests hash states seen missed (numbered n v) := ⟨h.own,h.present,h.absent,h.first⟩

/-- A version opened or rewritten by an entry rests on that entry's reading. -/
theorem entry_rests {kind : ObservationKind} {r : Reading} {v : ObjectVersion}
    (hstates : digestibleState (storedState kind r) ∈ states)
    (hread : ((kind,r.key),digestibleState (storedState kind r),r.observedAt) ∈ seen)
    (hobj : v.object = (kind,r.key)) (hpres : v.isPresent = true)
    (hstate : v.state = some (storedState kind r))
    (hhash : v.stateHash = some (stateDigest hash (storedState kind r)))
    (hfrom : v.validFrom = r.observedAt) (hlast : v.lastSeenAt = r.observedAt) :
    Rests hash states seen missed v := by
  refine ⟨fun s hs => ?_,fun _ => ⟨_,hstate,?_,?_⟩,fun hf => ?_,?_⟩
  · obtain rfl : storedState kind r = s := Option.some.inj (hstate.symm.trans hs)
    exact ⟨hhash,hstates⟩
  · rw [hobj, hfrom]
    exact hread
  · rw [hobj, hlast]
    exact hread
  · rw [hpres] at hf
    cases hf
  · exact ⟨_,hread,hobj.symm,hfrom.ge⟩

section Record
variable {kind : ObservationKind} {rows : List Reading}

theorem recorded_rests {v : ObjectVersion} (h : Rests hash states seen missed v)
    (hfree : ∀ a ∈ states, ∀ b ∈ states, hash a = hash b → a = b)
    (hstates : ∀ r ∈ rows, digestibleState (storedState kind r) ∈ states)
    (hread : ∀ r ∈ rows, ((kind,r.key),digestibleState (storedState kind r),r.observedAt) ∈ seen) :
    Rests hash states seen missed (recorded hash kind rows v) := by
  rcases recorded_cases hash kind rows v with hv | ⟨e,he,hobj,-,hm⟩
  · rw [hv]
    exact h
  · obtain ⟨r,hr,rfl⟩ := incoming_origin he
    cases hm with
    | agrees hag hw =>
      rw [hw]
      refine h.grow hag.1 _ fun _ s hs => ?_
      obtain ⟨hown,hin⟩ := h.own s hs
      have hsame : digestibleState s = digestibleState (storedState kind r) :=
        hfree _ hin _ (hstates r hr) (Option.some.inj (hown.symm.trans hag.2))
      rw [hobj, hsame]
      exact hread r hr
    | stale _ _ hw =>
      rw [hw]
      exact h
    | replaced _ _ ht hw =>
      rw [hw]
      exact entry_rests (hstates r hr) (hread r hr) hobj rfl rfl rfl ht.symm rfl
    | superseded _ hw =>
      rw [hw]
      exact h.closing _ _ _

theorem opened_rests {t : Table} {x : ObjectVersion} (hx : x ∈ opened hash t kind rows)
    (hstates : ∀ r ∈ rows, digestibleState (storedState kind r) ∈ states)
    (hread : ∀ r ∈ rows, ((kind,r.key),digestibleState (storedState kind r),r.observedAt) ∈ seen) :
    Rests hash states seen missed x := by
  obtain ⟨e,he,rfl,-⟩ := mem_opened.mp hx
  obtain ⟨r,hr,rfl⟩ := incoming_origin he
  exact entry_rests (hstates r hr) (hread r hr) rfl rfl rfl rfl rfl rfl

end Record

section Close
variable {db : Database} {runId : RunId} {collector : CollectorKind} {scopeKind : ScopeKind}
  {scopeKey : String} {completedAt : Instant}

theorem absented_rests {v : ObjectVersion} (h : Rests hash states seen missed v)
    (hmiss : lostToScope casefold db runId collector scopeKind scopeKey completedAt v = true →
      (v.object,completedAt) ∈ missed) :
    Rests hash states seen missed
      (absented casefold db runId collector scopeKind scopeKey completedAt v) := by
  unfold absented closedBy
  split
  · next hl =>
    split
    · exact h.closing _ _ _
    · next hp =>
      refine ⟨h.own,fun hpres => absurd hpres hp,fun habs => ⟨(h.absent habs).1,hmiss hl⟩,h.first⟩
  · exact h

theorem tombstone_rests {v : ObjectVersion} (h : Rests hash states seen missed v)
    (hconf : v.validFrom ≤ v.lastSeenAt)
    (hl : lostToScope casefold db runId collector scopeKind scopeKey completedAt v = true)
    (hmiss : (v.object,completedAt) ∈ missed) :
    Rests hash states seen missed (tombstone v completedAt runId) := by
  refine ⟨fun s hs => (nomatch hs),fun hp => (nomatch hp),fun _ => ⟨hmiss,hmiss⟩,?_⟩
  obtain ⟨x,hx,hobj,hle⟩ := h.first
  exact ⟨x,hx,hobj,hle.trans (hconf.trans (lostToScope_open hl).2)⟩

end Close

/-- Every stored version rests on what was received. -/
def Known (hash : State → String) (states : List State) (k : Knowledge) : Prop :=
  ∀ v ∈ k.table.rows, Rests hash states k.seen k.missed v

theorem known_of_rows {k : Knowledge} {t' : Table} {g : ObjectVersion → ObjectVersion}
    {news : List ObjectVersion} {n : ℕ}
    (hrows : t'.rows = k.table.rows.map g ++ numberedFrom n news)
    (hg : ∀ v ∈ k.table.rows, Rests hash states seen missed (g v))
    (hn : ∀ x ∈ news, Rests hash states seen missed x) :
    Known hash states ⟨t',seen,missed⟩ := by
  intro v hv
  rcases mem_moved hrows v hv with ⟨w,hw,rfl⟩ | ⟨x,hx,m,-,rfl⟩
  · exact hg w hw
  · exact numbered_rests (hn x hx)

/-- An affirmation that is contained leaves every version resting on a reading. -/
theorem confirmed_rests {t : Table} {r : Received} {kind : ObservationKind} {moment : Instant}
    {runId : RunId} (hcontained : ∀ v ∈ t.rows, confirms r.call v = true →
      v.lastSeenAt < moment ∨ moment < v.validFrom →
      ∃ d ∈ r.described, d.1 = v.key ∧ v.state.map digestibleState = some (digestibleState d.2))
    (hread : affirmedReadings t r kind moment ⊆ seen) {v : ObjectVersion} (hv : v ∈ t.rows)
    (h : Rests hash states seen missed v) (hc : confirms r.call v = true)
    (hkind : v.kind = kind) (hp : v.isPresent = true) :
    Rests hash states seen missed (grow moment runId v) := by
  refine h.grow hp runId fun hmove s hs => hread ?_
  obtain ⟨d,hd,hkey,hstate⟩ := hcontained v hv hc hmove
  rw [hs] at hstate
  refine List.mem_map.mpr ⟨d,List.mem_filter.mpr ⟨hd,?_⟩,?_⟩
  · exact List.any_eq_true.mpr ⟨v,hv,decide_eq_true ⟨hc,hkey.symm⟩⟩
  · rw [← Option.some.inj hstate, ObjectVersion.object, hkind, hkey]

/-- Receiving a contained call keeps what is known. -/
theorem receive_known {k : Knowledge} {r : Received} (h : Known hash states k)
    (hfree : ∀ a ∈ states, ∀ b ∈ states, hash a = hash b → a = b)
    (hstates : recordedStates [r] ⊆ states) (hc : Contained k.table r) :
    Known hash states (receive hash casefold k r) := by
  unfold receive
  cases hp : perform hash casefold k.table r.call with
  | error e => exact h
  | ok t' =>
    have hkeep : ∀ v ∈ k.table.rows, Rests hash states (k.seen ++ readingsOf k.table r)
        (k.missed ++ absencesOf casefold k.table r.call) v := fun v hv =>
      (h v hv).mono (List.subset_append_left ..) (List.subset_append_left ..)
    have hnone : ∀ x ∈ ([] : List ObjectVersion), Rests hash states
        (k.seen ++ readingsOf k.table r) (k.missed ++ absencesOf casefold k.table r.call) x :=
      fun x hx => nomatch hx
    obtain ⟨call,described⟩ := r
    cases call with
    | record kind rows =>
      obtain ⟨⟨t1,o⟩,ho,rfl⟩ := map_ok.mp hp
      have hin : ∀ x ∈ rows, digestibleState (storedState kind x) ∈ states := fun x hx =>
        hstates (List.mem_flatMap.mpr ⟨_,List.mem_singleton_self _,List.mem_map.mpr ⟨x,hx,rfl⟩⟩)
      have hread : ∀ x ∈ rows, ((kind,x.key),digestibleState (storedState kind x),x.observedAt) ∈
          k.seen ++ readingsOf k.table ⟨.record kind rows,described⟩ := fun x hx =>
        List.mem_append_right _ (List.mem_map.mpr ⟨x,hx,rfl⟩)
      exact known_of_rows (record_rows ho)
        (fun v hv => recorded_rests (hkeep v hv) hfree hin hread)
        fun x hx => opened_rests hx hin hread
    | affirm kind keys observedAt runId =>
      obtain ⟨⟨t1,o⟩,ho,rfl⟩ := map_ok.mp hp
      have hrows : t1.rows = k.table.rows.map (affirmed kind keys observedAt runId) ++
          numberedFrom 0 [] := by rw [affirm_rows ho, numberedFrom, List.append_nil]
      refine known_of_rows hrows (fun v hv => ?_) hnone
      unfold affirmed
      split
      · next hcond =>
        exact confirmed_rests hc (List.subset_append_right ..) hv (hkeep v hv)
          (decide_eq_true hcond) hcond.1 hcond.2.2.2
      · exact hkeep v hv
    | affirmContained kind containerKeys observedAt runId =>
      obtain ⟨⟨t1,o⟩,ho,rfl⟩ := map_ok.mp hp
      have hrows : t1.rows = k.table.rows.map (contained kind containerKeys observedAt runId) ++
          numberedFrom 0 [] := by rw [affirmContained_rows ho, numberedFrom, List.append_nil]
      refine known_of_rows hrows (fun v hv => ?_) hnone
      unfold contained
      split
      · next hcond =>
        obtain ⟨hkind,-,hpres,-⟩ := openPresent_iff.mp hcond
        exact confirmed_rests hc (List.subset_append_right ..) hv (hkeep v hv) hcond hkind hpres
      · exact hkeep v hv
    | closeAbsent db runId collector scopeKind scopeKey completedAt =>
      obtain ⟨⟨t1,o⟩,ho,rfl⟩ := map_ok.mp hp
      obtain ⟨news,hrows,hnews⟩ := closeAbsent_rows ho
      have hmiss : ∀ v ∈ k.table.rows, lostToScope casefold { db with versions := k.table } runId
          collector scopeKind scopeKey completedAt v = true → (v.object,completedAt) ∈
          k.missed ++ absencesOf casefold k.table
            (.closeAbsent db runId collector scopeKind scopeKey completedAt) := fun v hv hl =>
        List.mem_append_right _ (List.mem_map.mpr ⟨v,List.mem_filter.mpr ⟨hv,hl⟩,rfl⟩)
      refine known_of_rows hrows (fun v hv => absented_rests (hkeep v hv) (hmiss v hv))
        fun x hx => ?_
      obtain ⟨v,hv,hl,-,rfl⟩ := (hnews x).mp hx
      exact tombstone_rests (hkeep v hv) (checked_confirmed (k.table.checked v hv)) hl
        (hmiss v hv hl)

theorem known_run {k : Knowledge} (h : Known hash states k)
    (hfree : ∀ a ∈ states, ∀ b ∈ states, hash a = hash b → a = b) {rs : List Received}
    (hstates : recordedStates rs ⊆ states) (hc : AllContained hash casefold k rs) (n : ℕ) :
    Known hash states (receiveAll hash casefold k (rs.take n)) := by
  induction rs generalizing k n with
  | nil => simpa [receiveAll] using h
  | cons r rs ih =>
    cases n with
    | zero => exact h
    | succ n =>
      have hsplit : recordedStates (r :: rs) = recordedStates [r] ++ recordedStates rs := by
        simp [recordedStates]
      rw [hsplit] at hstates
      have hstep : Known hash states (receive hash casefold k r) :=
        receive_known h hfree (fun s hs => hstates (List.mem_append_left _ hs)) hc.1
      exact ih hstep (fun s hs => hstates (List.mem_append_right _ hs)) hc.2 n

theorem covers_from {v : ObjectVersion} {moment : Instant}
    (h : v.certaintyAt moment ≠ .unobserved) : v.validFrom ≤ moment := by
  unfold ObjectVersion.certaintyAt at h
  split at h
  · exact absurd rfl h
  · next hc =>
    exact ((v.covers_iff moment).mp (by simpa using hc)).1

theorem observed_within {v : ObjectVersion} {moment : Instant}
    (h : v.certaintyAt moment = .observed) : v.validFrom ≤ moment ∧ moment ≤ v.lastSeenAt := by
  refine ⟨covers_from (by rw [h]; decide),?_⟩
  unfold ObjectVersion.certaintyAt at h
  split_ifs at h with h1 h2 h3
  exact h3

/-- What rests on received readings was watched. -/
theorem Known.watched {k : Knowledge} (h : Known hash states k) : Watched k := by
  refine ⟨fun v hv hp moment ho => ?_,fun v hv hp moment ho => ?_,
    fun object moment hbefore v hv hobj => ?_⟩
  · obtain ⟨hfrom,hlast⟩ := observed_within ho
    obtain ⟨s,hs,h1,h2⟩ := (h v hv).present hp
    exact ⟨s,hs,v.validFrom,v.lastSeenAt,hfrom,hlast,h1,h2⟩
  · obtain ⟨hfrom,hlast⟩ := observed_within ho
    obtain ⟨h1,h2⟩ := (h v hv).absent hp
    exact ⟨v.validFrom,v.lastSeenAt,hfrom,hlast,h1,h2⟩
  · by_contra hc
    obtain ⟨x,hx,hxobj,hle⟩ := (h v hv).first
    exact absurd (hbefore x hx (hxobj.trans hobj)) (not_lt.mpr (hle.trans (covers_from hc)))

end Steps

/-- From an empty table, as long as every affirmation moves only versions whose
state its descriptors contained, whatever the versions report as observed was
watched on both sides, in every state the run reaches. -/
theorem observed_is_watched (hash : State → String) (casefold : String → String)
    (run : List Received)
    (hfree : ∀ a ∈ recordedStates run, ∀ b ∈ recordedStates run, hash a = hash b → a = b)
    (hc : AllContained hash casefold {} run) (n : ℕ) :
    Watched (receiveAll hash casefold {} (run.take n)) := by
  have hstart : Known hash (recordedStates run) {} := fun v hv => nomatch hv
  exact (known_run hstart hfree (List.Subset.refl _) hc n).watched

namespace Sample

def digest (state : State) : String := (textColumn state "trustee_key").getD ""

/-- One entry of the folder's list. -/
def entry : Reading where
  key := "ace"
  columns := [("resource_key",.text "folder"),("trustee_key",.text "alice")]
  observedAt := 1
  runId := "r1"

def recordEntry : Received := ⟨.record .ntfsAce [entry],[]⟩

/-- The folder is affirmed; its list holds what is given. -/
def affirmFolder (described : List (String × State)) : Received :=
  ⟨.affirmContained .ntfsAce ["folder"] 9 "r2",described⟩

/-- The entry is gone from the affirmed list and was not reconciled. -/
def staleRun : List Received := [recordEntry, affirmFolder []]

def soundRun : List Received :=
  [recordEntry, affirmFolder [("ace",storedState .ntfsAce entry)]]

end Sample

/-- A run in which the folder still holds the entry. -/
theorem observed_is_watched_sample :
    Watched (receiveAll Sample.digest id {} (Sample.soundRun.take 2)) :=
  observed_is_watched Sample.digest id Sample.soundRun (by decide +kernel) (by decide +kernel) 2

/-- An entry that left the list is reported observed eight instants after the
only reading of it. -/
theorem stale_entry_unwatched :
    ¬ Watched (receiveAll Sample.digest id {} Sample.staleRun) := by
  have hrow : ((receiveAll Sample.digest id {} Sample.staleRun).table.rows.map fun v =>
      (v.isPresent,v.certaintyAt 5)) = [(true,.observed)] := by decide +kernel
  have hseen : ((receiveAll Sample.digest id {} Sample.staleRun).seen.all fun x =>
      decide (x.2.2 < 5)) = true := by decide +kernel
  intro h
  obtain ⟨v,hv,hobs⟩ : ∃ v ∈ (receiveAll Sample.digest id {} Sample.staleRun).table.rows,
      (v.isPresent,v.certaintyAt 5) = (true,Certainty.observed) :=
    List.mem_map.mp (hrow ▸ List.mem_singleton_self _)
  obtain ⟨hp,ho⟩ := Prod.mk.inj hobs
  obtain ⟨s,-,t₁,t₂,-,hle,-,hin⟩ := h.present v hv hp 5 ho
  have hlt : t₂ < 5 := of_decide_eq_true (List.all_eq_true.mp hseen _ hin)
  exact absurd hle (not_le.mpr hlt)

end Adg.WatchedIntervals
