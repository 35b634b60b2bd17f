import Adg.FindingRecords
import Adg.Fallible

/-!
# A finding's record tells its life

The row of a finding and its events are written together, whichever way a call
decides. So the openings and the resolutions of a finding alternate, its row
says where they stand, its digest is the one of the evidence it stores, and it
can be built again from what is stored.
-/

set_option autoImplicit false

namespace Adg.FindingLives
open Adg.Observation Adg.ObjectVersions Adg.SortedLists Adg.KeyedTables Adg.CanonicalJson
open Adg.FindingModel Adg.FindingRecords

variable {sha256 : String → String}

/-! ### Lives -/

/-- An event that opens a window. -/
def opening : FindingEventType → Bool
  | .opened | .reopened => true
  | _ => false

/-- An event that opens a window or ends one. -/
def turning : FindingEventType → Bool
  | .opened | .reopened | .resolved => true
  | _ => false

def openings (events : List FindingEvent) : List FindingEvent :=
  events.filter (opening ·.eventType)

def turns (events : List FindingEvent) : List FindingEvent := events.filter (turning ·.eventType)

/-- What follows in turn: a resolution after an opening, a reopening after a resolution. -/
def Follows (t u : FindingEventType) : Prop := u = if opening t then .resolved else .reopened

/-- The events say what the row says. -/
structure Logged (row : FindingRow) (events : List FindingEvent) : Prop where
  first : (turns events).head?.map (·.eventType) = some .opened
  alternate : ((turns events).map (·.eventType)).IsChain Follows
  once : events.countP (·.eventType = .opened) = 1
  status : row.status = .open ↔
    ∀ e, (turns events).getLast? = some e → e.eventType ≠ .resolved
  resolution : row.resolvedAt.isSome ↔
    ∃ e, (turns events).getLast? = some e ∧ e.eventType = .resolved
  occurrences : row.occurrenceCount = (openings events).length
  firstDetected : (openings events).head?.map (·.occurredAt) = some row.firstDetectedAt
  detected : (openings events).getLast?.map (·.occurredAt) = some row.detectedAt
  digest : (events.filterMap (·.evidenceDigest)).getLast? = some row.evidenceDigest

/-- What the table demands of a row. -/
structure Admitted (row : FindingRow) : Prop where
  resolution : row.status = .resolved ↔ row.resolvedAt.isSome
  attributed : row.resolvedAt = none ↔ row.resolvedEvaluationId = none
  subject : row.resourceKey.isSome ∨ row.shareKey.isSome ∨ row.principalKey.isSome
  ordered : row.firstDetectedAt ≤ row.detectedAt
  positive : 1 ≤ row.occurrenceCount

/-- The row stores the evidence it digests, and a finding is built again from it. -/
structure Rebuilt (sha256 : String → String) (row : FindingRow) : Prop where
  digest : row.evidenceDigest = Evidence.digestOf sha256 row.evidence
  finding : ∃ record f, stored row = some record ∧ rebuildFinding sha256 record = .ok f ∧
    f.key = row.key ∧ f.evidenceDigest = row.evidenceDigest

/-- A call leaves a finding and its events as they are. -/
def Leaves (s s' : FindingStore) (key : String) : Prop :=
  s'.findings.get? key = s.findings.get? key ∧ s'.eventsFor key = s.eventsFor key

/-- The instants of the calls do not go back. -/
def Onwards (calls : List (Call sha256)) : Prop := calls.Pairwise fun c d => c.now ≤ d.now

/-! ### Rows that were written -/

/-- The row of a record. -/
def encode (r : StoredFinding) : FindingRow where
  key := r.key
  ruleId := r.ruleId.value
  ruleVersion := r.ruleVersion
  status := r.status
  severity := r.severity.value
  confidence := r.confidence.value
  severityBand := r.band.value
  qualifiers := r.qualifiers.map FactQualifier.value
  resourceKey := r.subject.resourceKey
  shareKey := r.subject.shareKey
  principalKey := r.subject.principalKey
  discriminator := r.subject.discriminator
  evidence := r.evidence.toJson
  evidenceDigest := r.evidenceDigest
  detail := r.detail
  firstDetectedAt := r.firstDetectedAt
  detectedAt := r.detectedAt
  lastEvaluatedAt := r.lastEvaluatedAt
  resolvedAt := r.resolvedAt
  occurrenceCount := r.occurrenceCount
  firstEvaluationId := r.firstEvaluationId
  lastEvaluationId := r.lastEvaluationId
  resolvedEvaluationId := r.resolvedEvaluationId

theorem mapM_ofValue (qs : List FactQualifier) :
    qs.mapM (FactQualifier.ofValue ∘ FactQualifier.value) = some qs := by
  induction qs with
  | nil => rfl
  | cons q rest ih =>
    rw [List.mapM_cons, Function.comp_apply, FactQualifier.ofValue_value, ih]
    rfl

theorem stored_encode (r : StoredFinding) : stored (encode r) = some r := by
  have hsubject : (FindingSubject.build r.subject.resourceKey r.subject.shareKey
      r.subject.principalKey r.subject.discriminator).toOption = some r.subject := by
    rw [FindingSubject.build_eq]
    rfl
  unfold stored encode
  simp [mapM_ofValue, hsubject, Evidence.fromJson_toJson]

theorem encode_injective {r r' : StoredFinding} (h : encode r = encode r') : r = r' :=
  Option.some.inj
    ((stored_encode r).symm.trans ((congrArg stored h).trans (stored_encode r')))

/-- A record keeps the invariants of a finding. -/
structure Genuine (sha256 : String → String) (r : StoredFinding) : Prop where
  keyed : r.key = findingKey sha256 r.ruleId r.subject
  derived : r.confidence = confidenceOf r.qualifiers
  digested : r.evidenceDigest = r.evidence.digest sha256

theorem Genuine.rebuilt {r : StoredFinding} (h : Genuine sha256 r) : Rebuilt sha256 (encode r) := by
  constructor
  · exact h.digested
  · have hbuilt : rebuildFinding sha256 r =
        .ok ⟨r.ruleId,r.ruleVersion,findingKey sha256 r.ruleId r.subject,r.subject,r.band,
          r.severity,r.confidence,r.qualifiers,r.evidence,r.detail,rfl,h.derived⟩ := by
      unfold rebuildFinding RiskFinding.build
      rw [dif_pos rfl, dif_pos h.derived]
    exact ⟨r,_,stored_encode r,hbuilt,h.keyed.symm,h.digested.symm⟩

/-! ### Writes -/

section Writes
variable (evaluationId : String) (now : Instant)

theorem get?_writeRow (w : FindingWrite sha256) (t : KeyedTable String FindingRow) (k : String) :
    (writeRow evaluationId now w t).get? k =
      if k = w.key then rowAfter evaluationId now w (t.get? k) else t.get? k := by
  have hupdate : ∀ (key : String) (f : FindingRow → FindingRow),
      (t.update (fun k _ => k = key) f).get? k =
        if k = key then (t.get? k).map f else t.get? k := by
    intro key f
    rw [KeyedTable.get?_update]
    by_cases hk : k = key
    · simp only [hk, decide_true, if_true]
    · simp only [hk, decide_false, if_false, Bool.false_eq_true]
      exact Option.map_id'
  cases w with
  | insert f => exact KeyedTable.get?_upsert ..
  | reopen f current => exact hupdate f.key _
  | replaceEvidence f current => exact hupdate f.key _
  | reaffirm f => exact hupdate f.key _
  | resolve record => exact hupdate record.key _

theorem eventOf_key (w : FindingWrite sha256) :
    (eventOf evaluationId now w).findingKey = w.key := by
  cases w <;> rfl

theorem eventOf_occurredAt (w : FindingWrite sha256) :
    (eventOf evaluationId now w).occurredAt = now := by
  cases w <;> rfl

theorem performed_events (ws : List (FindingWrite sha256)) (s : FindingStore) :
    (ws.foldl (perform evaluationId now) s).events =
      s.events ++ ws.map (eventOf evaluationId now) := by
  induction ws generalizing s with
  | nil => exact (List.append_nil _).symm
  | cons w rest ih =>
    rw [List.foldl_cons, ih, List.map_cons]
    exact List.append_assoc ..

theorem performed_other {ws : List (FindingWrite sha256)} {k : String}
    (h : ∀ w ∈ ws, w.key ≠ k) (s : FindingStore) :
    (ws.foldl (perform evaluationId now) s).findings.get? k = s.findings.get? k := by
  induction ws generalizing s with
  | nil => rfl
  | cons w rest ih =>
    rw [List.foldl_cons, ih fun v hv => h v (List.mem_cons_of_mem w hv)]
    have hne : k ≠ w.key := (h w List.mem_cons_self).symm
    exact (get?_writeRow evaluationId now w s.findings k).trans (if_neg hne)

/-- Of writes about different keys, each is done to the row it was decided for. -/
theorem performed_own {ws : List (FindingWrite sha256)}
    (h : (ws.map FindingWrite.key).Nodup) {w : FindingWrite sha256} (hw : w ∈ ws)
    (s : FindingStore) :
    (ws.foldl (perform evaluationId now) s).findings.get? w.key =
      rowAfter evaluationId now w (s.findings.get? w.key) := by
  induction ws generalizing s with
  | nil => cases hw
  | cons v rest ih =>
    rw [List.map_cons, List.nodup_cons] at h
    rw [List.foldl_cons]
    rcases List.mem_cons.mp hw with rfl | hw
    · have hrest : ∀ u ∈ rest, u.key ≠ w.key :=
        fun u hu hk => h.1 (hk ▸ List.mem_map_of_mem hu)
      rw [performed_other evaluationId now hrest]
      exact (get?_writeRow evaluationId now w s.findings w.key).trans (if_pos rfl)
    · rw [ih h.2 hw]
      have hne : w.key ≠ v.key := fun hk => h.1 (hk ▸ List.mem_map_of_mem hw)
      congr 1
      exact (get?_writeRow evaluationId now v s.findings w.key).trans (if_neg hne)

/-- The events about a key after some writes. -/
theorem performed_log (ws : List (FindingWrite sha256)) (s : FindingStore) (k : String) :
    (ws.foldl (perform evaluationId now) s).events.filter (·.findingKey = k) =
      s.events.filter (·.findingKey = k) ++
        (ws.filter (·.key = k)).map (eventOf evaluationId now) := by
  rw [performed_events, List.filter_append, List.filter_map]
  congr 3
  funext w
  exact congrArg (fun key => Decidable.decide (key = k)) (eventOf_key evaluationId now w)

end Writes

/-! ### The log of a finding -/

theorem turns_snoc (events : List FindingEvent) (e : FindingEvent) :
    turns (events ++ [e]) = turns events ++ if turning e.eventType then [e] else [] := by
  unfold turns
  rw [List.filter_append]
  congr 1
  cases h : turning e.eventType <;> simp [h]

theorem openings_snoc (events : List FindingEvent) (e : FindingEvent) :
    openings (events ++ [e]) = openings events ++ if opening e.eventType then [e] else [] := by
  unfold openings
  rw [List.filter_append]
  congr 1
  cases h : opening e.eventType <;> simp [h]

theorem digests_snoc (events : List FindingEvent) (e : FindingEvent) :
    (events ++ [e]).filterMap (·.evidenceDigest) =
      events.filterMap (·.evidenceDigest) ++ e.evidenceDigest.toList := by
  rw [List.filterMap_append]
  congr 1

theorem Logged.turned {row : FindingRow} {events : List FindingEvent} (h : Logged row events) :
    ∃ e, (turns events).getLast? = some e := by
  cases hlast : (turns events).getLast? with
  | some e => exact ⟨e,rfl⟩
  | none =>
    have hfirst := h.first
    rw [List.getLast?_eq_none_iff.mp hlast] at hfirst
    cases hfirst

theorem Logged.opened {row : FindingRow} {events : List FindingEvent} (h : Logged row events) :
    openings events ≠ [] := by
  intro hnone
  have hfirst := h.firstDetected
  rw [hnone] at hfirst
  cases hfirst

/-- The first event of a finding. -/
theorem logged_opened {row : FindingRow} {e : FindingEvent} (htype : e.eventType = .opened)
    (hstatus : row.status = .open) (hresolved : row.resolvedAt = none)
    (hcount : row.occurrenceCount = 1) (hfirst : row.firstDetectedAt = e.occurredAt)
    (hdetected : row.detectedAt = e.occurredAt) (hdigest : e.evidenceDigest =
      some row.evidenceDigest) : Logged row [e] := by
  have hturns : turns [e] = [e] := by simp [turns, htype, turning]
  have hopenings : openings [e] = [e] := by simp [openings, htype, opening]
  constructor
  · rw [hturns]
    exact congrArg some htype
  · rw [hturns]
    exact .singleton _
  · simp [htype]
  · rw [hturns]
    constructor
    · intro _ e' he' hc
      have hsame : e = e' := Option.some.inj he'
      rw [← hsame, htype] at hc
      cases hc
    · exact fun _ => hstatus
  · rw [hturns, hresolved]
    constructor
    · exact fun hc => Bool.noConfusion hc
    · intro hlast
      obtain ⟨e',he',htype'⟩ := hlast
      have hsame : e = e' := Option.some.inj he'
      rw [← hsame, htype] at htype'
      cases htype'
  · rw [hopenings, hcount]
    rfl
  · rw [hopenings, hfirst]
    rfl
  · rw [hopenings, hdetected]
    rfl
  · simp [hdigest]

/-- An event about an open finding that turns nothing. -/
theorem Logged.noted {row row' : FindingRow} {events : List FindingEvent} {e : FindingEvent}
    (h : Logged row events) (htype : turning e.eventType = false)
    (hstatus : row'.status = row.status) (hresolved : row'.resolvedAt = row.resolvedAt)
    (hcount : row'.occurrenceCount = row.occurrenceCount)
    (hfirst : row'.firstDetectedAt = row.firstDetectedAt)
    (hdetected : row'.detectedAt = row.detectedAt)
    (hdigest : e.evidenceDigest = some row'.evidenceDigest) : Logged row' (events ++ [e]) := by
  have hturns : turns (events ++ [e]) = turns events := by
    rw [turns_snoc, htype]
    exact List.append_nil _
  have hclosed : opening e.eventType = false := by
    cases ht : e.eventType <;> simp_all [turning, opening]
  have hopenings : openings (events ++ [e]) = openings events := by
    rw [openings_snoc, hclosed]
    exact List.append_nil _
  have hnot : e.eventType ≠ .opened := by
    intro hc
    rw [hc] at htype
    cases htype
  constructor
  · rw [hturns]
    exact h.first
  · rw [hturns]
    exact h.alternate
  · rw [List.countP_append, h.once]
    simp [hnot]
  · rw [hturns, hstatus]
    exact h.status
  · rw [hturns, hresolved]
    exact h.resolution
  · rw [hopenings, hcount]
    exact h.occurrences
  · rw [hopenings, hfirst]
    exact h.firstDetected
  · rw [hopenings, hdetected]
    exact h.detected
  · rw [digests_snoc, hdigest]
    exact List.getLast?_concat ..

/-- A resolved finding is opened again. -/
theorem Logged.reopened {row row' : FindingRow} {events : List FindingEvent} {e : FindingEvent}
    (h : Logged row events) (hwas : row.status = .resolved) (htype : e.eventType = .reopened)
    (hstatus : row'.status = .open) (hresolved : row'.resolvedAt = none)
    (hcount : row'.occurrenceCount = row.occurrenceCount+1)
    (hfirst : row'.firstDetectedAt = row.firstDetectedAt)
    (hdetected : row'.detectedAt = e.occurredAt)
    (hdigest : e.evidenceDigest = some row'.evidenceDigest) : Logged row' (events ++ [e]) := by
  have hturns : turns (events ++ [e]) = turns events ++ [e] := by
    rw [turns_snoc, htype]
    rfl
  have hopenings : openings (events ++ [e]) = openings events ++ [e] := by
    rw [openings_snoc, htype]
    rfl
  obtain ⟨last,hlast⟩ := h.turned
  have hended : last.eventType = .resolved := by
    by_contra hne
    have hlive := h.status.mpr fun e' he' => by
      rw [hlast] at he'
      exact Option.some.inj he' ▸ hne
    rw [hwas] at hlive
    cases hlive
  constructor
  · rw [hturns, List.head?_append_of_ne_nil _ fun hnil => by simp [hnil] at hlast]
    exact h.first
  · rw [hturns, List.map_append]
    apply List.isChain_append.mpr
    refine ⟨h.alternate,.singleton _,?_⟩
    intro t ht u hu
    rw [List.getLast?_map, hlast] at ht
    rw [← Option.some.inj ht, ← Option.some.inj hu]
    show e.eventType = if opening last.eventType then .resolved else .reopened
    rw [htype, hended]
    rfl
  · rw [List.countP_append, h.once]
    simp [htype]
  · rw [hturns, List.getLast?_concat]
    constructor
    · intro _ e' he' hc
      have hsame : e = e' := Option.some.inj he'
      rw [← hsame, htype] at hc
      cases hc
    · exact fun _ => hstatus
  · rw [hturns, List.getLast?_concat, hresolved]
    constructor
    · exact fun hc => Bool.noConfusion hc
    · intro hturned
      obtain ⟨e',he',htype'⟩ := hturned
      have hsame : e = e' := Option.some.inj he'
      rw [← hsame, htype] at htype'
      cases htype'
  · rw [hopenings, List.length_append, hcount, h.occurrences]
    rfl
  · rw [hopenings, List.head?_append_of_ne_nil _ h.opened, hfirst]
    exact h.firstDetected
  · rw [hopenings, List.getLast?_concat, hdetected]
    rfl
  · rw [digests_snoc, hdigest]
    exact List.getLast?_concat ..

/-- An open finding is resolved. -/
theorem Logged.resolved {row row' : FindingRow} {events : List FindingEvent} {e : FindingEvent}
    (h : Logged row events) (hwas : row.status = .open) (htype : e.eventType = .resolved)
    (hstatus : row'.status = .resolved) (hresolved : row'.resolvedAt.isSome)
    (hcount : row'.occurrenceCount = row.occurrenceCount)
    (hfirst : row'.firstDetectedAt = row.firstDetectedAt)
    (hdetected : row'.detectedAt = row.detectedAt)
    (hkept : row'.evidenceDigest = row.evidenceDigest)
    (hdigest : e.evidenceDigest = none) : Logged row' (events ++ [e]) := by
  have hturns : turns (events ++ [e]) = turns events ++ [e] := by
    rw [turns_snoc, htype]
    rfl
  have hopenings : openings (events ++ [e]) = openings events := by
    rw [openings_snoc, htype]
    exact List.append_nil _
  obtain ⟨last,hlast⟩ := h.turned
  have hlive : last.eventType ≠ .resolved := h.status.mp hwas last hlast
  have hturning : turning last.eventType = true :=
    (List.mem_filter.mp (List.mem_of_getLast? hlast)).2
  have hopening : opening last.eventType = true := by
    cases ht : last.eventType <;> simp_all [turning, opening]
  constructor
  · rw [hturns, List.head?_append_of_ne_nil _ fun hnil => by simp [hnil] at hlast]
    exact h.first
  · rw [hturns, List.map_append]
    apply List.isChain_append.mpr
    refine ⟨h.alternate,.singleton _,?_⟩
    intro t ht u hu
    rw [List.getLast?_map, hlast] at ht
    rw [← Option.some.inj ht, ← Option.some.inj hu]
    exact htype.trans (if_pos hopening).symm
  · rw [List.countP_append, h.once]
    simp [htype]
  · rw [hturns, List.getLast?_concat, hstatus]
    constructor
    · exact fun hc => FindingStatus.noConfusion hc
    · exact fun hnone => absurd htype (hnone e rfl)
  · rw [hturns, List.getLast?_concat]
    exact ⟨fun _ => ⟨e,rfl,htype⟩,fun _ => hresolved⟩
  · rw [hopenings, hcount]
    exact h.occurrences
  · rw [hopenings, hfirst]
    exact h.firstDetected
  · rw [hopenings, hdetected]
    exact h.detected
  · rw [digests_snoc, hdigest, hkept]
    exact (congrArg List.getLast? (List.append_nil _)).trans h.digest

/-! ### What a write makes of a finding -/

/-- A finding that was written, with its events. -/
structure Life (sha256 : String → String) (row : FindingRow) (events : List FindingEvent) :
    Prop where
  genuine : ∃ record, row = encode record ∧ Genuine sha256 record
  logged : Logged row events
  admitted : Admitted row

theorem Life.record {record : StoredFinding} {events : List FindingEvent}
    (h : Life sha256 (encode record) events) : Genuine sha256 record := by
  obtain ⟨r,hrow,hgenuine⟩ := h.genuine
  exact encode_injective hrow ▸ hgenuine

theorem Life.rebuilt {row : FindingRow} {events : List FindingEvent}
    (h : Life sha256 row events) : Rebuilt sha256 row := by
  obtain ⟨record,hrow,hgenuine⟩ := h.genuine
  rw [hrow]
  exact hgenuine.rebuilt

/-- What a write was decided from is what the row of its key says. -/
def Sound (held : Option FindingRow) : FindingWrite sha256 → Prop
  | .insert _ => held = none
  | .reopen _ current => held = some (encode current) ∧ current.status = .resolved
  | .replaceEvidence _ current => held = some (encode current) ∧ current.status = .open
  | .reaffirm f => ∃ current, held = some (encode current) ∧ current.status = .open ∧
    current.evidenceDigest = f.evidenceDigest
  | .resolve record => held = some (encode record) ∧ record.status = .open

/-- What a write leaves of the row of its key. -/
structure Written (sha256 : String → String) (held : Option FindingRow)
    (events : List FindingEvent) (now : Instant) (row : FindingRow) : Prop where
  life : Life sha256 row events
  recent : row.detectedAt ≤ now
  first : ∀ old, held = some old → row.firstDetectedAt = old.firstDetectedAt

section Steps
variable {evaluationId : String} {now : Instant}

theorem written_inserted (f : RiskFinding sha256) :
    Written sha256 none [eventOf evaluationId now (.insert f)] now
      (inserted evaluationId now f) := by
  have hsubject : f.subject.resourceKey.isSome ∨ f.subject.shareKey.isSome ∨
      f.subject.principalKey.isSome := by
    have hnamed := f.subject.named
    cases hr : f.subject.resourceKey with
    | some r => exact .inl rfl
    | none =>
      cases hs : f.subject.shareKey with
      | some t => exact .inr (.inl rfl)
      | none =>
        cases hp : f.subject.principalKey with
        | some q => exact .inr (.inr rfl)
        | none => simp [hr, hs, hp, AlertModel.given] at hnamed
  constructor
  · constructor
    · exact ⟨⟨f.key,f.ruleId,f.ruleVersion,.open,f.severity,f.confidence,f.band,f.qualifiers,
        f.subject,f.evidence,f.evidenceDigest,f.detail,now,now,now,none,1,evaluationId,
        evaluationId,none⟩,rfl,f.keyed,f.derived,rfl⟩
    · exact logged_opened rfl rfl rfl rfl rfl rfl rfl
    · exact ⟨by simp [inserted],⟨fun _ => rfl,fun _ => rfl⟩,hsubject,le_refl now,le_refl 1⟩
  · exact le_refl now
  · intro old hold
    cases hold

theorem written_reopened {current : StoredFinding} {events : List FindingEvent}
    (f : RiskFinding sha256) (h : Life sha256 (encode current) events)
    (hwas : current.status = .resolved) (hpast : current.detectedAt ≤ now) :
    Written sha256 (some (encode current)) (events ++ [eventOf evaluationId now (.reopen f current)])
      now (reopened evaluationId now f current (encode current)) := by
  constructor
  · constructor
    · exact ⟨{ current with
        status := .open
        ruleVersion := f.ruleVersion
        severity := f.severity
        confidence := f.confidence
        band := f.band
        qualifiers := f.qualifiers
        evidence := f.evidence
        evidenceDigest := f.evidenceDigest
        detail := f.detail
        detectedAt := now
        lastEvaluatedAt := now
        resolvedAt := none
        resolvedEvaluationId := none
        occurrenceCount := current.occurrenceCount+1
        lastEvaluationId := evaluationId },rfl,h.record.keyed,f.derived,rfl⟩
    · exact h.logged.reopened hwas rfl rfl rfl rfl rfl rfl rfl
    · exact ⟨by simp [reopened],⟨fun _ => rfl,fun _ => rfl⟩,h.admitted.subject,h.admitted.ordered.trans hpast,
        Nat.le_add_left 1 _⟩
  · exact le_refl now
  · intro old hold
    rw [← Option.some.inj hold]
    rfl

theorem written_updated {current : StoredFinding} {events : List FindingEvent}
    (f : RiskFinding sha256) {replaceEvidence : Bool} {e : FindingEvent}
    (h : Life sha256 (encode current) events) (hpast : current.detectedAt ≤ now)
    (htype : turning e.eventType = false) (hdigest : e.evidenceDigest = some f.evidenceDigest)
    (hkept : replaceEvidence = false → current.evidenceDigest = f.evidenceDigest) :
    Written sha256 (some (encode current)) (events ++ [e]) now
      (updated evaluationId now f replaceEvidence (encode current)) := by
  have hcarried : (updated evaluationId now f replaceEvidence (encode current)).evidenceDigest =
      f.evidenceDigest := by
    cases replaceEvidence with
    | true => rfl
    | false => exact hkept rfl
  constructor
  · constructor
    · let record : StoredFinding :=
        { current with
          ruleVersion := f.ruleVersion
          severity := f.severity
          confidence := f.confidence
          band := f.band
          qualifiers := f.qualifiers
          detail := f.detail
          lastEvaluatedAt := now
          lastEvaluationId := evaluationId
          evidence := if replaceEvidence then f.evidence else current.evidence
          evidenceDigest := if replaceEvidence then f.evidenceDigest else current.evidenceDigest }
      refine ⟨record,?_,h.record.keyed,f.derived,?_⟩
      · cases replaceEvidence <;> rfl
      · cases replaceEvidence with
        | true => rfl
        | false => exact h.record.digested
    · exact h.logged.noted htype rfl rfl rfl rfl rfl (hdigest.trans (congrArg some hcarried.symm))
    · exact ⟨h.admitted.resolution,h.admitted.attributed,h.admitted.subject,h.admitted.ordered,
        h.admitted.positive⟩
  · exact hpast
  · intro old hold
    rw [← Option.some.inj hold]
    rfl

theorem written_resolved {record : StoredFinding} {events : List FindingEvent}
    (h : Life sha256 (encode record) events) (hwas : record.status = .open)
    (hpast : record.detectedAt ≤ now) :
    Written sha256 (some (encode record))
      (events ++ [eventOf evaluationId now (FindingWrite.resolve record : FindingWrite sha256)]) now
      (resolved evaluationId now (encode record)) := by
  constructor
  · constructor
    · exact ⟨{ record with
        status := .resolved
        resolvedAt := some now
        resolvedEvaluationId := some evaluationId
        lastEvaluatedAt := now
        lastEvaluationId := evaluationId },rfl,h.record.keyed,h.record.derived,h.record.digested⟩
    · exact h.logged.resolved hwas rfl rfl rfl rfl rfl rfl rfl rfl
    · exact ⟨⟨fun _ => rfl,fun _ => rfl⟩,by simp [resolved],h.admitted.subject,
        h.admitted.ordered,h.admitted.positive⟩
  · exact hpast
  · intro old hold
    rw [← Option.some.inj hold]
    rfl

/-- A sound write keeps the row of its key and its events together. -/
theorem written_sound {held : Option FindingRow} {events : List FindingEvent}
    {w : FindingWrite sha256} (hsound : Sound held w)
    (hlife : ∀ row, held = some row → Life sha256 row events ∧ row.detectedAt ≤ now)
    (hsilent : held = none → events = []) :
    ∃ row, rowAfter evaluationId now w held = some row ∧
      Written sha256 held (events ++ [eventOf evaluationId now w]) now row := by
  cases w with
  | insert f =>
    rw [show held = none from hsound, hsilent hsound]
    exact ⟨_,rfl,written_inserted f⟩
  | reopen f current =>
    obtain ⟨rfl,hwas⟩ := hsound
    obtain ⟨h,hpast⟩ := hlife _ rfl
    exact ⟨_,rfl,written_reopened f h hwas hpast⟩
  | replaceEvidence f current =>
    obtain ⟨rfl,-⟩ := hsound
    obtain ⟨h,hpast⟩ := hlife _ rfl
    exact ⟨_,rfl,written_updated f h hpast rfl rfl fun hc => Bool.noConfusion hc⟩
  | reaffirm f =>
    obtain ⟨current,rfl,-,hdigest⟩ := hsound
    obtain ⟨h,hpast⟩ := hlife _ rfl
    exact ⟨_,rfl,written_updated f h hpast rfl rfl fun _ => hdigest⟩
  | resolve record =>
    obtain ⟨rfl,hwas⟩ := hsound
    obtain ⟨h,hpast⟩ := hlife _ rfl
    exact ⟨_,rfl,written_resolved h hwas hpast⟩

theorem rowAfter_key {held : Option FindingRow} {w : FindingWrite sha256} {row : FindingRow}
    (hsound : Sound held w) (hkeyed : ∀ old, held = some old → old.key = w.key)
    (h : rowAfter evaluationId now w held = some row) : row.key = w.key := by
  cases w with
  | insert f =>
    rw [show held = none from hsound] at h
    rw [← Option.some.inj h]
    rfl
  | reopen f current =>
    obtain ⟨rfl,-⟩ := hsound
    rw [← Option.some.inj h]
    exact hkeyed (encode current) rfl
  | replaceEvidence f current =>
    obtain ⟨rfl,-⟩ := hsound
    rw [← Option.some.inj h]
    exact hkeyed (encode current) rfl
  | reaffirm f =>
    obtain ⟨current,rfl,-⟩ := hsound
    rw [← Option.some.inj h]
    exact hkeyed (encode current) rfl
  | resolve record =>
    obtain ⟨rfl,-⟩ := hsound
    rw [← Option.some.inj h]
    exact hkeyed (encode record) rfl

end Steps

/-! ### One call -/

/-- The findings and their events as some calls leave them. -/
structure Kept (sha256 : String → String) (s : FindingStore) (m : Instant) : Prop where
  keyed : ∀ k row, s.findings.get? k = some row → row.key = k
  lives : ∀ k row, s.findings.get? k = some row →
    Life sha256 row (s.events.filter (·.findingKey = k)) ∧ row.detectedAt ≤ m
  silent : ∀ k, s.findings.get? k = none → s.events.filter (·.findingKey = k) = []
  timed : s.events.Pairwise fun e d => e.occurredAt ≤ d.occurredAt
  told : ∀ e ∈ s.events, e.occurredAt ≤ m

theorem kept_blank (m : Instant) : Kept sha256 FindingStore.blank m where
  keyed := fun _ _ h => Option.noConfusion rfl (heq_of_eq h)
  lives := fun _ _ h => Option.noConfusion rfl (heq_of_eq h)
  silent := fun _ _ => rfl
  timed := .nil
  told := fun _ h => absurd h List.not_mem_nil

section Reconciliation
variable {s : FindingStore} {m : Instant}

/-- Every row can be read, and stands under its key. -/
def Encoded (s : FindingStore) : Prop :=
  ∀ k row, s.findings.get? k = some row → ∃ record, row = encode record ∧ record.key = k

theorem Kept.encoded (h : Kept sha256 s m) : Encoded s := by
  intro k row hrow
  obtain ⟨record,hencoded,-⟩ := (h.lives k row hrow).1.genuine
  refine ⟨record,hencoded,?_⟩
  rw [← h.keyed k row hrow, hencoded]
  rfl

theorem Encoded.keyed (h : Encoded s) {k : String} {row : FindingRow}
    (hrow : s.findings.get? k = some row) : row.key = k := by
  obtain ⟨record,rfl,hkey⟩ := h k row hrow
  exact hkey

/-- What is stored under a key. -/
def storedAt (s : FindingStore) (k : String) : Option StoredFinding := (s.get k).join

theorem Encoded.get (h : Encoded s) (k : String) :
    s.get k = some (storedAt s k) ∧ (storedAt s k).map encode = s.findings.get? k := by
  unfold storedAt FindingStore.get
  cases hrow : s.findings.get? k with
  | none => exact ⟨rfl,rfl⟩
  | some row =>
    obtain ⟨record,rfl,-⟩ := h k row hrow
    simp [stored_encode]

theorem mapM_some {α β : Type} {f : α → Option β} {g : α → β} {l : List α}
    (h : ∀ a ∈ l, f a = some (g a)) : l.mapM f = some (l.map g) := by
  induction l with
  | nil => rfl
  | cons a rest ih =>
    rw [List.mapM_cons, h a List.mem_cons_self, ih fun b hb => h b (List.mem_cons_of_mem a hb)]
    rfl

theorem mapM_stored {rows : List FindingRow} (h : ∀ row ∈ rows, ∃ record, row = encode record) :
    ∃ records, rows = records.map encode ∧ rows.mapM stored = some records := by
  induction rows with
  | nil => exact ⟨[],rfl,rfl⟩
  | cons row rest ih =>
    obtain ⟨record,rfl⟩ := h row List.mem_cons_self
    obtain ⟨records,hrest,hread⟩ := ih fun r hr => h r (List.mem_cons_of_mem _ hr)
    refine ⟨record::records,congrArg (encode record :: ·) hrest,?_⟩
    rw [List.mapM_cons, stored_encode, hread]
    rfl

theorem matched_apart (findings : List (RiskFinding sha256)) :
    ((matched findings).map (·.key)).Nodup := by
  have hkeys : (sortedBy id (findings.map (·.key)).dedup).Pairwise (· < ·) := by
    apply sortedBy_strict
    exact (congrArg List.Nodup (List.map_id _)).mpr (List.nodup_dedup _)
  have hordered : (matched findings).Pairwise fun f g => f.key < g.key := by
    refine List.Pairwise.filterMap _ (fun i j hij f hf g hg => ?_) hkeys
    have hfi : f.key = i := by simpa using List.find?_some hf
    have hgj : g.key = j := by simpa using List.find?_some hg
    rwa [hfi, hgj]
  exact List.pairwise_map.mpr (hordered.imp fun h => h.ne)

theorem mem_matched {findings : List (RiskFinding sha256)} {f : RiskFinding sha256}
    (h : f ∈ matched findings) : f ∈ findings := by
  obtain ⟨k,-,hfound⟩ := List.mem_filterMap.mp h
  exact List.mem_reverse.mp (List.mem_of_find?_eq_some hfound)

/-- The open findings are read, each under its key. -/
theorem Encoded.openFindings (h : Encoded s) (rules : List RuleId) :
    ∃ records, s.openFindings rules = some records ∧ (records.map (·.key)).Nodup ∧
      (∀ r ∈ records, s.findings.get? r.key = some (encode r) ∧ r.status = .open) ∧
      ∀ r, s.findings.get? r.key = some (encode r) → r.status = .open →
        r.ruleId.value ∈ rules.map RuleId.value → r ∈ records := by
  let rows := s.findings.values.filter fun row =>
    row.status = .open && row.ruleId ∈ rules.map RuleId.value
  have hheld : ∀ row ∈ sortedBy FindingRow.key rows,
      s.findings.get? row.key = some row ∧ row.status = .open := by
    intro row hrow
    obtain ⟨hvalue,hopen⟩ := List.mem_filter.mp ((mem_sortedBy _).mp hrow)
    obtain ⟨e,he,rfl⟩ := List.mem_map.mp hvalue
    have hget : s.findings.get? e.1 = some e.2 := KeyedTable.get?_eq_some.mpr he
    rw [h.keyed hget]
    simp only [Bool.and_eq_true, decide_eq_true_eq] at hopen
    exact ⟨hget,hopen.1⟩
  have hkeys : ((sortedBy FindingRow.key rows).map (·.key)).Nodup := by
    have hvalues : s.findings.values.map (·.key) = s.findings.entries.map (·.1) := by
      unfold KeyedTable.values
      rw [List.map_map]
      apply List.map_congr_left
      intro e he
      exact h.keyed (KeyedTable.get?_eq_some.mpr he)
    apply ((sortedBy_perm FindingRow.key rows).map (·.key)).nodup_iff.mpr
    exact (hvalues ▸ s.findings.keys_nodup).sublist (List.filter_sublist.map _)
  obtain ⟨records,hrows,hread⟩ := mapM_stored fun row hrow =>
    let ⟨record,hencoded,_⟩ := h row.key row (hheld row hrow).1
    ⟨record,hencoded⟩
  refine ⟨records,hread,?_,fun r hr => hheld (encode r) (hrows ▸ List.mem_map_of_mem hr),?_⟩
  · rw [hrows, List.map_map] at hkeys
    exact hkeys
  · intro r hr hstatus hrule
    have hrow : encode r ∈ sortedBy FindingRow.key rows := by
      rw [mem_sortedBy, List.mem_filter]
      refine ⟨List.mem_map.mpr ⟨_,KeyedTable.get?_eq_some.mp hr,rfl⟩,?_⟩
      rw [Bool.and_eq_true, decide_eq_true_eq, decide_eq_true_eq]
      exact ⟨hstatus,hrule⟩
    rw [hrows] at hrow
    obtain ⟨record,hrecord,hsame⟩ := List.mem_map.mp hrow
    exact encode_injective hsame ▸ hrecord

/-- The four ways a finding that was matched is decided. -/
theorem decideMatched_cases (f : RiskFinding sha256) (current : Option StoredFinding) :
    (current = none ∧ decideMatched f current = .insert f) ∨
    ∃ c, current = some c ∧
      ((c.status = .resolved ∧ decideMatched f current = .reopen f c) ∨
        (c.status = .open ∧ decideMatched f current = .replaceEvidence f c) ∨
        (c.status = .open ∧ c.evidenceDigest = f.evidenceDigest ∧
          decideMatched f current = .reaffirm f)) := by
  cases current with
  | none => exact .inl ⟨rfl,rfl⟩
  | some c =>
    refine .inr ⟨c,rfl,?_⟩
    cases hstatus : c.status with
    | resolved => exact .inl ⟨rfl,if_pos hstatus⟩
    | «open» =>
      have hlive : c.status ≠ .resolved := by simp [hstatus]
      by_cases hdigest : c.evidenceDigest = f.evidenceDigest
      · exact .inr (.inr ⟨rfl,hdigest,(if_neg hlive).trans (if_neg (not_not_intro hdigest))⟩)
      · exact .inr (.inl ⟨rfl,(if_neg hlive).trans (if_pos hdigest)⟩)

theorem decideMatched_key (f : RiskFinding sha256) (current : Option StoredFinding) :
    (decideMatched f current).key = f.key := by
  rcases decideMatched_cases f current with ⟨-,hw⟩ | ⟨c,-,⟨-,hw⟩ | ⟨-,hw⟩ | ⟨-,-,hw⟩⟩ <;>
    exact congrArg FindingWrite.key hw

theorem decideMatched_sound (h : Encoded s) (f : RiskFinding sha256) :
    Sound (s.findings.get? f.key) (decideMatched f (storedAt s f.key)) := by
  obtain ⟨-,hrow⟩ := h.get f.key
  rw [← hrow]
  rcases decideMatched_cases f (storedAt s f.key) with
    ⟨hnone,hw⟩ | ⟨c,hc,⟨hstatus,hw⟩ | ⟨hstatus,hw⟩ | ⟨hstatus,hdigest,hw⟩⟩
  · rw [hw, hnone]
    rfl
  · rw [hw, hc]
    exact ⟨rfl,hstatus⟩
  · rw [hw, hc]
    exact ⟨rfl,hstatus⟩
  · rw [hw, hc]
    exact ⟨c,rfl,hstatus,hdigest⟩

/-- What a call decides is decided from the rows as they are, of each key once. -/
theorem decided_sound (h : Encoded s) (call : Call sha256) {records : List StoredFinding}
    (hapart : (records.map (·.key)).Nodup)
    (hheld : ∀ r ∈ records, s.findings.get? r.key = some (encode r) ∧ r.status = .open) :
    let decided := FindingRecords.decide call
      ((matched call.findings).map fun f => storedAt s f.key) records
    (decided.2.map FindingWrite.key).Nodup ∧
      (∀ w ∈ decided.2, Sound (s.findings.get? w.key) w) ∧
      (∀ w ∈ decided.2, (∃ f ∈ call.findings, w.key = f.key) ∨
        ∃ row, s.findings.get? w.key = some row ∧ row.status = .open) ∧
      ∀ r ∈ decided.1, ∀ w ∈ decided.2, w.key ≠ r.key := by
  let found := matched call.findings
  let missed := records.filter fun record => record.key ∉ found.map (·.key)
  have hwrites : List.zipWith decideMatched found (found.map fun f => storedAt s f.key) =
      found.map fun f => decideMatched f (storedAt s f.key) := by
    rw [List.zipWith_map_right, List.zipWith_self]
  have hmem : ∀ w, w ∈ (FindingRecords.decide call (found.map fun f => storedAt s f.key)
      records).2 ↔ (∃ f ∈ found, decideMatched f (storedAt s f.key) = w) ∨
        ∃ r ∈ missed, entitled call r = true ∧ .resolve r = w := by
    intro w
    show w ∈ List.zipWith decideMatched found (found.map fun f => storedAt s f.key) ++
      (missed.filter (entitled call)).map FindingWrite.resolve ↔ _
    rw [hwrites, List.mem_append, List.mem_map, List.mem_map]
    apply or_congr Iff.rfl
    simp only [List.mem_filter, and_assoc]
  have hunmatched : ∀ r ∈ missed, r ∈ records ∧ ∀ f ∈ found, f.key ≠ r.key := by
    intro r hr
    obtain ⟨hrecord,hnot⟩ := List.mem_filter.mp hr
    refine ⟨hrecord,fun f hf hkey => ?_⟩
    exact (of_decide_eq_true hnot) (hkey ▸ List.mem_map_of_mem hf)
  refine ⟨?_,?_,?_,?_⟩
  · show ((List.zipWith decideMatched found (found.map fun f : RiskFinding sha256 =>
      storedAt s f.key) ++ (missed.filter (entitled call)).map FindingWrite.resolve).map
        FindingWrite.key).Nodup
    rw [hwrites, List.map_append, List.map_map, List.map_map]
    apply List.nodup_append.mpr
    refine ⟨?_,?_,?_⟩
    · have hkeys : (FindingWrite.key ∘ fun f : RiskFinding sha256 =>
          decideMatched f (storedAt s f.key)) = RiskFinding.key :=
        funext fun f => decideMatched_key f _
      rw [hkeys]
      exact matched_apart call.findings
    · exact hapart.sublist ((List.filter_sublist.trans List.filter_sublist).map _)
    · intro a ha b hb hab
      obtain ⟨f,hf,rfl⟩ := List.mem_map.mp ha
      obtain ⟨r,hr,rfl⟩ := List.mem_map.mp hb
      apply (hunmatched r (List.mem_filter.mp hr).1).2 f hf
      exact (decideMatched_key f _).symm.trans hab
  · intro w hw
    rcases (hmem w).mp hw with ⟨f,hf,rfl⟩ | ⟨r,hr,-,rfl⟩
    · rw [decideMatched_key]
      exact decideMatched_sound h f
    · exact hheld r (hunmatched r hr).1
  · intro w hw
    rcases (hmem w).mp hw with ⟨f,hf,rfl⟩ | ⟨r,hr,-,rfl⟩
    · exact .inl ⟨f,mem_matched hf,decideMatched_key f _⟩
    · obtain ⟨hrow,hstatus⟩ := hheld r (hunmatched r hr).1
      exact .inr ⟨encode r,hrow,hstatus⟩
  · intro r hr w hw hkey
    obtain ⟨hr,hleft⟩ := List.mem_filter.mp hr
    rcases (hmem w).mp hw with ⟨f,hf,rfl⟩ | ⟨r',hr',hentitled,rfl⟩
    · exact (hunmatched r hr).2 f hf ((decideMatched_key f _).symm.trans hkey)
    · have hsame : r' = r := List.inj_on_of_nodup_map hapart (hunmatched r' hr').1
        (hunmatched r hr).1 hkey
      rw [← hsame, hentitled] at hleft
      cases hleft

theorem Kept.eventsFor (h : Kept sha256 s m) (k : String) :
    s.eventsFor k = s.events.filter (·.findingKey = k) := by
  unfold FindingStore.eventsFor sortedBy
  exact (h.timed.filter _).insertionSort_eq

/-- The writes about a key are at most one. -/
theorem filter_own {ws : List (FindingWrite sha256)} (h : (ws.map FindingWrite.key).Nodup)
    {w : FindingWrite sha256} (hw : w ∈ ws) : ws.filter (·.key = w.key) = [w] := by
  induction ws with
  | nil => cases hw
  | cons v rest ih =>
    rw [List.map_cons, List.nodup_cons] at h
    rcases List.mem_cons.mp hw with rfl | hw
    · rw [List.filter_cons_of_pos (by simp)]
      congr 1
      apply List.filter_eq_nil_iff.mpr
      intro u hu hk
      exact h.1 (of_decide_eq_true hk ▸ List.mem_map_of_mem hu)
    · have hne : v.key ≠ w.key := fun hk => h.1 (hk ▸ List.mem_map_of_mem hw)
      rw [List.filter_cons_of_neg (by simpa using hne)]
      exact ih h.2 hw

theorem filter_other {ws : List (FindingWrite sha256)} {k : String}
    (h : ∀ w ∈ ws, w.key ≠ k) : ws.filter (·.key = k) = [] := by
  apply List.filter_eq_nil_iff.mpr
  intro w hw hk
  exact h w hw (of_decide_eq_true hk)

/-- Sound writes about different keys keep every row with its events. -/
theorem Kept.performed (h : Kept sha256 s m) {evaluationId : String} {now : Instant}
    (hnow : m ≤ now) {ws : List (FindingWrite sha256)} (hapart : (ws.map FindingWrite.key).Nodup)
    (hsound : ∀ w ∈ ws, Sound (s.findings.get? w.key) w) :
    Kept sha256 (ws.foldl (perform evaluationId now) s) now ∧
      ∀ k row, s.findings.get? k = some row → ∃ row',
        (ws.foldl (perform evaluationId now) s).findings.get? k = some row' ∧
          row'.firstDetectedAt = row.firstDetectedAt := by
  have hlog := performed_log evaluationId now ws s
  have hother : ∀ k, (∀ w ∈ ws, w.key ≠ k) →
      (ws.foldl (perform evaluationId now) s).findings.get? k = s.findings.get? k ∧
      (ws.foldl (perform evaluationId now) s).events.filter (·.findingKey = k) =
        s.events.filter (·.findingKey = k) := by
    intro k hk
    refine ⟨performed_other evaluationId now hk s,?_⟩
    rw [hlog, filter_other hk]
    exact List.append_nil _
  have hown : ∀ w ∈ ws, ∃ row,
      (ws.foldl (perform evaluationId now) s).findings.get? w.key = some row ∧ row.key = w.key ∧
      Written sha256 (s.findings.get? w.key)
        ((ws.foldl (perform evaluationId now) s).events.filter (·.findingKey = w.key)) now row := by
    intro w hw
    rw [performed_own evaluationId now hapart hw, hlog, filter_own hapart hw]
    have hlife : ∀ row, s.findings.get? w.key = some row →
        Life sha256 row (s.events.filter (·.findingKey = w.key)) ∧ row.detectedAt ≤ now :=
      fun row hrow => ⟨(h.lives _ row hrow).1,(h.lives _ row hrow).2.trans hnow⟩
    obtain ⟨row,hafter,hwritten⟩ := @written_sound _ evaluationId now _ _ _
      (hsound w hw) hlife (h.silent w.key)
    exact ⟨row,hafter,rowAfter_key (hsound w hw) (h.keyed w.key) hafter,hwritten⟩
  have hcases : ∀ k, (∀ w ∈ ws, w.key ≠ k) ∨ ∃ w ∈ ws, w.key = k := by
    intro k
    by_cases hk : ∃ w ∈ ws, w.key = k
    · exact .inr hk
    · exact .inl fun w hw hkey => hk ⟨w,hw,hkey⟩
  constructor
  · constructor
    · intro k row hrow
      rcases hcases k with hk | ⟨w,hw,rfl⟩
      · rw [(hother k hk).1] at hrow
        exact h.keyed k row hrow
      · obtain ⟨row',hrow',hkey,-⟩ := hown w hw
        rw [hrow] at hrow'
        rw [Option.some.inj hrow', hkey]
    · intro k row hrow
      rcases hcases k with hk | ⟨w,hw,rfl⟩
      · rw [(hother k hk).1] at hrow
        rw [(hother k hk).2]
        exact ⟨(h.lives k row hrow).1,(h.lives k row hrow).2.trans hnow⟩
      · obtain ⟨row',hrow',-,hwritten⟩ := hown w hw
        rw [hrow] at hrow'
        rw [Option.some.inj hrow']
        exact ⟨hwritten.life,hwritten.recent⟩
    · intro k hnone
      rcases hcases k with hk | ⟨w,hw,rfl⟩
      · rw [(hother k hk).1] at hnone
        rw [(hother k hk).2]
        exact h.silent k hnone
      · obtain ⟨row',hrow',-⟩ := hown w hw
        rw [hnone] at hrow'
        cases hrow'
    · rw [performed_events]
      apply List.pairwise_append.mpr
      refine ⟨h.timed,?_,?_⟩
      · apply List.pairwise_map.mpr
        apply List.pairwise_of_forall
        intro w v
        rw [eventOf_occurredAt, eventOf_occurredAt]
      · intro e he d hd
        obtain ⟨w,-,rfl⟩ := List.mem_map.mp hd
        rw [eventOf_occurredAt]
        exact (h.told e he).trans hnow
    · intro e he
      rw [performed_events] at he
      rcases List.mem_append.mp he with he | he
      · exact (h.told e he).trans hnow
      · obtain ⟨w,-,rfl⟩ := List.mem_map.mp he
        exact (eventOf_occurredAt evaluationId now w).le
  · intro k row hrow
    rcases hcases k with hk | ⟨w,hw,rfl⟩
    · exact ⟨row,(hother k hk).1.trans hrow,rfl⟩
    · obtain ⟨row',hrow',-,hwritten⟩ := hown w hw
      exact ⟨row',hrow',hwritten.first row hrow⟩

/-- One call returns, keeps every row with its events, and leaves what it may not decide. -/
theorem Kept.reconciled (h : Kept sha256 s m) (call : Call sha256) (hnow : m ≤ call.now) :
    ∃ s' outcome, reconcile call s = some (s',outcome) ∧ Kept sha256 s' call.now ∧
      (∀ k row, s.findings.get? k = some row → ∃ row', s'.findings.get? k = some row' ∧
        row'.firstDetectedAt = row.firstDetectedAt) ∧
      (∀ k ∈ outcome.outOfScope, Leaves s s' k) ∧
      ∀ k row, s.findings.get? k = some row → row.status = .resolved →
        k ∉ call.findings.map (·.key) → Leaves s s' k := by
  obtain ⟨records,hopen,hapart,hheld,-⟩ := h.encoded.openFindings call.rulesRun
  have hread : (matched call.findings).mapM (fun f => s.get f.key) =
      some ((matched call.findings).map fun f => storedAt s f.key) :=
    mapM_some fun f _ => (h.encoded.get f.key).1
  obtain ⟨hkeys,hsound,habout,hleft⟩ := decided_sound h.encoded call hapart hheld
  obtain ⟨hkept,hfirst⟩ := @Kept.performed _ _ _ h call.evaluationId _ hnow _ hkeys hsound
  let decided := FindingRecords.decide call
    ((matched call.findings).map fun f => storedAt s f.key) records
  have hleaves : ∀ k, (∀ w ∈ decided.2, w.key ≠ k) →
      Leaves s (decided.2.foldl (perform call.evaluationId call.now) s) k := by
    intro k hk
    constructor
    · exact performed_other call.evaluationId call.now hk s
    · rw [hkept.eventsFor, h.eventsFor, performed_log, filter_other hk]
      exact List.append_nil _
  obtain ⟨outcome,hcall,hout⟩ : ∃ outcome, reconcile call s =
      some (decided.2.foldl (perform call.evaluationId call.now) s,outcome) ∧
        outcome.outOfScope = decided.1.map (·.key) := by
    unfold reconcile
    rw [hread, hopen]
    exact ⟨_,rfl,rfl⟩
  refine ⟨_,outcome,hcall,hkept,hfirst,?_,?_⟩
  · intro k hk
    rw [hout] at hk
    obtain ⟨r,hr,rfl⟩ := List.mem_map.mp hk
    exact hleaves r.key fun w hw => hleft r hr w hw
  · intro k row hrow hstatus hunmatched
    apply hleaves
    intro w hw hkey
    rcases habout w hw with ⟨f,hf,hwf⟩ | ⟨held,hget,hlive⟩
    · exact hunmatched (hkey ▸ hwf ▸ List.mem_map_of_mem hf)
    · rw [hkey, hrow] at hget
      rw [← Option.some.inj hget, hstatus] at hlive
      cases hlive

end Reconciliation

/-! ### Runs -/

theorem run_snoc (calls : List (Call sha256)) (call : Call sha256) :
    run (calls ++ [call]) = (run calls).bind fun s => (reconcile call s).map (·.1) := by
  unfold run
  rw [List.foldlM_append]
  apply congrArg ((List.foldlM (fun s call => (reconcile call s).map (·.1)) _ calls).bind)
  funext s
  rw [List.foldlM_cons]
  exact bind_pure _

theorem onwards_front {calls rest : List (Call sha256)} (h : Onwards (calls ++ rest)) :
    Onwards calls :=
  (List.pairwise_append.mp h).1

/-- The calls return, and leave the findings kept at any instant that is not before theirs. -/
theorem run_kept {calls : List (Call sha256)} (h : Onwards calls) :
    ∃ s, run calls = some s ∧ ∀ m, (∀ c ∈ calls, c.now ≤ m) → Kept sha256 s m := by
  induction calls using List.reverseRecOn with
  | nil => exact ⟨FindingStore.blank,rfl,fun m _ => kept_blank m⟩
  | append_singleton calls call ih =>
    obtain ⟨s,hrun,hkept⟩ := ih (onwards_front h)
    have hbefore : ∀ c ∈ calls, c.now ≤ call.now :=
      fun c hc => (List.pairwise_append.mp h).2.2 c hc call List.mem_cons_self
    obtain ⟨s',outcome,hcall,hkept',-⟩ := (hkept call.now hbefore).reconciled call le_rfl
    refine ⟨s',?_,fun m hm => ?_⟩
    · rw [run_snoc, hrun]
      exact congrArg (Option.map (·.1)) hcall
    · have hlast : call.now ≤ m := hm call (List.mem_append_right _ List.mem_cons_self)
      exact ⟨hkept'.keyed,fun k row hrow => ⟨(hkept'.lives k row hrow).1,
        (hkept'.lives k row hrow).2.trans hlast⟩,hkept'.silent,hkept'.timed,
        fun e he => (hkept'.told e he).trans hlast⟩

/-- No call moves the first instant of a finding. -/
theorem run_fixed {before after : List (Call sha256)} {old s : FindingStore}
    (h : Onwards (before ++ after)) (hold : run before = some old)
    (hrun : run (before ++ after) = some s) {k : String} {row : FindingRow}
    (hrow : old.findings.get? k = some row) :
    ∃ row', s.findings.get? k = some row' ∧ row'.firstDetectedAt = row.firstDetectedAt := by
  induction after using List.reverseRecOn generalizing s with
  | nil =>
    rw [List.append_nil, hold] at hrun
    exact ⟨row,Option.some.inj hrun ▸ hrow,rfl⟩
  | append_singleton after call ih =>
    rw [← List.append_assoc] at h hrun
    obtain ⟨mid,hmid,hkept⟩ := run_kept (onwards_front h)
    obtain ⟨row₁,hrow₁,hfirst₁⟩ := ih (onwards_front h) hmid
    have hbefore : ∀ c ∈ before ++ after, c.now ≤ call.now :=
      fun c hc => (List.pairwise_append.mp h).2.2 c hc call List.mem_cons_self
    obtain ⟨s',outcome,hcall,-,hfixed,-⟩ := (hkept call.now hbefore).reconciled call le_rfl
    rw [run_snoc, hmid, Option.bind_some, hcall] at hrun
    obtain ⟨row₂,hrow₂,hfirst₂⟩ := hfixed k row₁ hrow₁
    exact ⟨row₂,Option.some.inj hrun ▸ hrow₂,hfirst₂.trans hfirst₁⟩

/-- What holds of a store after some calls and of the calls themselves. -/
structure Recorded (calls : List (Call sha256)) (s : FindingStore) : Prop where
  logged : ∀ k row, s.findings.get? k = some row → Logged row (s.eventsFor k)
  admitted : ∀ k row, s.findings.get? k = some row → Admitted row
  rebuilt : ∀ k row, s.findings.get? k = some row → Rebuilt sha256 row
  fixed : ∀ before after, calls = before ++ after → ∃ old, run before = some old ∧
    ∀ k row, old.findings.get? k = some row → ∃ row', s.findings.get? k = some row' ∧
      row'.firstDetectedAt = row.firstDetectedAt
  left : ∀ before call after, calls = before ++ call::after →
    ∃ old new outcome, run before = some old ∧ reconcile call old = some (new,outcome) ∧
      (∀ k ∈ outcome.outOfScope, Leaves old new k) ∧
      ∀ k row, old.findings.get? k = some row → row.status = .resolved →
        k ∉ call.findings.map (·.key) → Leaves old new k

/-- Whatever is found, every stored finding tells its life. -/
theorem record_tells_life (calls : List (Call sha256)) (h : Onwards calls) :
    ∃ s, run calls = some s ∧ Recorded calls s := by
  obtain ⟨s,hrun,hkept⟩ := run_kept h
  obtain ⟨m,hm⟩ : ∃ m, ∀ c ∈ calls, c.now ≤ m := by
    obtain ⟨m,hm⟩ := (calls.map (·.now)).toFinset.bddAbove
    exact ⟨m,fun c hc => hm (List.mem_toFinset.mpr (List.mem_map_of_mem hc))⟩
  refine ⟨s,hrun,?_,?_,?_,?_,?_⟩
  · intro k row hrow
    rw [(hkept m hm).eventsFor]
    exact ((hkept m hm).lives k row hrow).1.logged
  · exact fun k row hrow => ((hkept m hm).lives k row hrow).1.admitted
  · exact fun k row hrow => ((hkept m hm).lives k row hrow).1.rebuilt
  · intro before after heq
    rw [heq] at h hrun
    obtain ⟨old,hold,-⟩ := run_kept (onwards_front h)
    exact ⟨old,hold,fun k row hrow => run_fixed h hold hrun hrow⟩
  · intro before call after heq
    rw [heq] at h
    obtain ⟨old,hold,hkeptOld⟩ := run_kept (onwards_front h)
    have hbefore : ∀ c ∈ before, c.now ≤ call.now :=
      fun c hc => (List.pairwise_append.mp h).2.2 c hc call List.mem_cons_self
    obtain ⟨new,outcome,hcall,-,-,hscope,hresolved⟩ :=
      (hkeptOld call.now hbefore).reconciled call le_rfl
    exact ⟨old,new,outcome,hold,hcall,hscope,hresolved⟩

/-! ### A finding that comes back -/

def sampleFinding : RiskFinding id where
  ruleId := .directUserAce
  ruleVersion := "1"
  key := findingKey id .directUserAce ⟨none,some "fs01/finance",none,none,rfl⟩
  subject := ⟨none,some "fs01/finance",none,none,rfl⟩
  band := .write
  severity := .low
  confidence := .probable
  qualifiers := [.principalUndescribed]
  evidence := Evidence.of []
  detail := []
  keyed := rfl
  derived := rfl

/-- It is found, then looked for and not found, then found again. -/
def sampleCalls : List (Call id) :=
  [⟨"a",0,[sampleFinding],{ complete := true },[.directUserAce]⟩,
    ⟨"b",5,[],{ shareKeys := some ["fs01/finance"] },[.directUserAce]⟩,
    ⟨"c",9,[sampleFinding],{ complete := true },[.directUserAce]⟩]

theorem sample_tells_life : ∃ s, run sampleCalls = some s ∧ Recorded sampleCalls s :=
  record_tells_life sampleCalls (by simp [Onwards, sampleCalls])

example : ((run sampleCalls).map fun s => (s.eventsFor sampleFinding.key).map (·.eventType)) =
    some [.opened, .resolved, .reopened] := by decide +kernel

end Adg.FindingLives
