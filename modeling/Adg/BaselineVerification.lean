import Adg.HistoryRuns
import Adg.Regeneration

/-!
# Verifying a campaign

Verification generates a campaign again from its own row and compares. What it
finds is what was frozen as long as the writer leaves alone which versions
cover the baseline; a reading or a completion from before the baseline that
comes late may open one there, end one, put another state in its place or draw
one back over it.
-/

set_option autoImplicit false

namespace Adg.BaselineVerification
open Adg.Observation Adg.ObjectVersions Adg.VersionTable Adg.VersionReads Adg.SortedLists
open Adg.CurrentState Adg.ScopeClosure Adg.HistoryWriter Adg.HistorySteps Adg.ClosureSteps Adg.HistoryRuns Adg.Timelines
open Adg.ReviewGeneration Adg.Regeneration
open Adg.Fallible (map_ok)

/-- What `record_generation` and `insert_items` leave behind. -/
structure FrozenItems where
  items : List DraftItem
  snapshotDigest : String

structure CampaignRow where
  plan : CampaignPlan
  frozen : Option FrozenItems := none

inductive VerificationError where
  | notGenerated
  | beyondLimits (e : GenerationError)
  | malformed
  deriving DecidableEq, Repr

structure CampaignVerification where
  reproducible : Bool
  storedDigest : String
  recomputedDigest : String
  storedItemCount : ℕ
  recomputedItemCount : ℕ
  missing : List NaturalKey
  unexpected : List NaturalKey
  evidenceChanged : List NaturalKey
  deriving DecidableEq

section Verifying
variable (casefold sha256 : String → String)

/-- `generate`, of a draft. -/
def generate (t : Table) (c : CampaignRow) : Except GenerationError CampaignRow :=
  (generateFromBaseline casefold sha256 t c.plan).map fun r =>
    { c with frozen := some ⟨r.items,r.digest⟩ }

/-- The comparison of `verify_campaign`. -/
def compareItems (stored recomputed : List (NaturalKey × String)) (storedDigest : String)
    (recomputedDigest : String) : CampaignVerification :=
  let keys (l : List (NaturalKey × String)) : List NaturalKey := sortedBy id (l.map (·.1)).dedup
  let missing := (keys recomputed).filter (· ∉ stored.map (·.1))
  let unexpected := (keys stored).filter (· ∉ recomputed.map (·.1))
  let changed := (keys stored).filter fun k =>
    k ∈ recomputed.map (·.1) && stored.lookup k ≠ recomputed.lookup k
  { reproducible := missing = [] ∧ unexpected = [] ∧ changed = [] ∧ storedDigest = recomputedDigest
    storedDigest := storedDigest
    recomputedDigest := recomputedDigest
    storedItemCount := (keys stored).length
    recomputedItemCount := (keys recomputed).length
    missing := missing
    unexpected := unexpected
    evidenceChanged := changed }

/-- `verify_campaign`. -/
def verifyCampaign (t : Table) (c : CampaignRow) :
    Except VerificationError CampaignVerification :=
  match c.frozen with
  | none => .error .notGenerated
  | some frozen =>
    match generateFromBaseline casefold sha256 t c.plan with
    | .error .malformed => .error .malformed
    | .error e => .error (.beyondLimits e)
    | .ok r => .ok (compareItems (fingerprints frozen.items) (fingerprints r.items)
        frozen.snapshotDigest r.digest)

end Verifying

/-- Items that are the same by key and digest compare as the same. -/
theorem compareItems_self (l : List (NaturalKey × String)) (digest : String) :
    (compareItems l l digest digest).reproducible = true := by
  unfold compareItems
  simp

section Runs
variable (hash : State → String) (casefold : String → String) (plan : CampaignPlan)

/-- Whether a version is of those a campaign reads. -/
def readsVersion (t : Table) (v : ObjectVersion) : Bool := reads casefold t plan (said v)

/-- A reading from the time of the baseline or before it leaves the baseline
alone: it finds no room for a version that the campaign would read, or it
confirms one that began by then, or it is older than what it contradicts. -/
def LeavesBaseline (t : Table) (kind : ObservationKind) (e : Incoming) : Prop :=
  e.observedAt ≤ plan.baselineAt → match openVersion t kind e.key with
    | none => readsVersion casefold plan t (newVersion kind e) = false
    | some v =>
      Agrees v e ∧ (v.validFrom ≤ plan.baselineAt ∨ readsVersion casefold plan t v = false) ∨
      ¬ Agrees v e ∧ (e.observedAt < v.lastSeenAt ∨
        (v.isPresent = false ∨ readsVersion casefold plan t v = false) ∧
          readsVersion casefold plan t (newVersion kind e) = false)

/-- What a call must not do to the baseline of a campaign. -/
def Spares (t : Table) : Call → Prop
  | .record kind rows => ∀ e ∈ incoming hash kind rows, LeavesBaseline casefold plan t kind e
  | .affirm kind keys observedAt _ => observedAt ≤ plan.baselineAt → ∀ v ∈ t.rows,
      v.kind = kind ∧ v.key ∈ keys ∧ v.isOpen = true ∧ v.isPresent = true →
        v.validFrom ≤ plan.baselineAt ∨ readsVersion casefold plan t v = false
  | .affirmContained kind containerKeys observedAt _ => observedAt ≤ plan.baselineAt →
      ∀ v ∈ t.rows, openPresent kind containerKeys v = true →
        v.validFrom ≤ plan.baselineAt ∨ readsVersion casefold plan t v = false
  | .closeAbsent db runId collector scopeKind scopeKey completedAt =>
      completedAt ≤ plan.baselineAt → ∀ v ∈ t.rows,
        lostToScope casefold { db with versions := t } runId collector scopeKind scopeKey
          completedAt v = true → v.isPresent = true → readsVersion casefold plan t v = false

/-- The table after a call. What is refused is rolled back. -/
def after (t : Table) (call : Call) : Table :=
  match perform hash casefold t call with
  | .error _ => t
  | .ok t' => t'

def afterAll (t : Table) (calls : List Call) : Table := calls.foldl (after hash casefold) t

/-- Every call of a run leaves the baseline alone where it is made. -/
def Spared : Table → List Call → Prop
  | _, [] => True
  | t, call :: calls => Spares hash casefold plan t call ∧ Spared (after hash casefold t call) calls

end Runs

/-! ### One call -/

section Steps
variable {hash : State → String} {casefold : String → String} {plan : CampaignPlan} {t t' : Table}

/-- A version that a campaign finds at its baseline. -/
def found (casefold : String → String) (plan : CampaignPlan) (t : Table) (v : ObjectVersion) :
    Bool :=
  v.covers plan.baselineAt && v.isPresent && readsVersion casefold plan t v

/-- What moves no version that is found, and adds none, has the table answer alike. -/
theorem alike_of_moves {g : ObjectVersion → ObjectVersion} {news : List ObjectVersion} {n : ℕ}
    (hrows : t'.rows = t.rows.map g ++ numberedFrom n news)
    (hmoved : ∀ v ∈ t.rows, found casefold plan t (g v) = found casefold plan t v ∧
      (found casefold plan t v = true → said (g v) = said v))
    (hnews : ∀ x ∈ news, found casefold plan t x = false) :
    AnswerAlike t t' plan.baselineAt (reads casefold t plan) := by
  have hread : ∀ s : Table, ((answering s plan.baselineAt).map said).filter
      (reads casefold t plan) = (s.rows.filter (found casefold plan t)).map said := by
    intro s
    unfold answering
    rw [List.filter_map, List.filter_filter]
    refine congrArg (List.map said) (List.filter_congr fun v _ => ?_)
    unfold found readsVersion
    rw [Bool.and_comm]
    rfl
  have hadded : (numberedFrom n news).filter (found casefold plan t) = [] := by
    refine List.filter_eq_nil_iff.mpr fun r hr => ?_
    obtain ⟨x,hx,m,-,rfl⟩ := mem_numberedFrom hr
    have hnumbered : found casefold plan t (numbered m x) = found casefold plan t x := rfl
    rw [hnumbered, hnews x hx]
    exact Bool.false_ne_true
  unfold AnswerAlike
  rw [hread, hread, hrows, List.filter_append, hadded, List.append_nil, List.filter_map,
    List.map_map]
  have hsame : t.rows.filter (found casefold plan t ∘ g) = t.rows.filter (found casefold plan t) :=
    List.filter_congr fun v hv => (hmoved v hv).1
  rw [hsame]
  refine List.map_congr_left fun v hv => ?_
  obtain ⟨hv,hf⟩ := List.mem_filter.mp hv
  exact (hmoved v hv).2 hf

theorem covers_of_open {v : ObjectVersion} (h : v.isOpen = true) (moment : Instant) :
    v.covers moment = decide (v.validFrom ≤ moment) := by
  unfold ObjectVersion.covers
  rw [open_iff.mp h]
  by_cases hm : moment < v.validFrom
  · simp [hm, not_le.mpr hm]
  · simp [hm, not_lt.mp hm]

theorem readsVersion_congr {v w : ObjectVersion} (h : said w = said v) :
    readsVersion casefold plan t w = readsVersion casefold plan t v := by
  unfold readsVersion
  rw [h]

theorem said_grow (moment : Instant) (runId : RunId) (v : ObjectVersion) :
    said (grow moment runId v) = said v := by
  rw [grow_eq]
  rfl

/-- A version that is found stays found as it was, when it only grows and does
not grow back over the baseline. -/
theorem found_grow {moment : Instant} (runId : RunId) {v : ObjectVersion} (hopen : v.isOpen = true)
    (h : moment ≤ plan.baselineAt →
      v.validFrom ≤ plan.baselineAt ∨ readsVersion casefold plan t v = false) :
    found casefold plan t (grow moment runId v) = found casefold plan t v := by
  have hpresent : (grow moment runId v).isPresent = v.isPresent := by
    rw [grow_eq]
  unfold found
  rw [hpresent, readsVersion_congr (said_grow moment runId v),
    covers_of_open ((grow_isOpen v).trans hopen), covers_of_open hopen, grow_validFrom]
  rcases le_or_gt moment plan.baselineAt with hearly | hlate
  · rcases h hearly with hbegun | hunread
    · have hboth : (if moment < v.validFrom then moment else v.validFrom) ≤ plan.baselineAt := by
        split_ifs
        · exact hearly
        · exact hbegun
      simp [hbegun, hboth]
    · simp [hunread]
  · have hboth : (if moment < v.validFrom then moment else v.validFrom) ≤ plan.baselineAt ↔
        v.validFrom ≤ plan.baselineAt := by
      split_ifs with hback
      · exact iff_of_false (not_le.mpr hlate) (not_le.mpr (hlate.trans hback))
      · exact Iff.rfl
    simp only [hboth]

theorem unfound_of_late {v : ObjectVersion} (hopen : v.isOpen = true)
    (h : plan.baselineAt < v.validFrom) : found casefold plan t v = false := by
  simp [found, covers_of_open hopen, h]

/-- Ending a version after the baseline has no part in it. -/
theorem found_closing {v : ObjectVersion} (hopen : v.isOpen = true) {moment : Instant}
    (hlate : plan.baselineAt < moment) (reason : CloseReason) (runId : RunId) :
    found casefold plan t ((closing v.versionId moment reason runId).2 v) =
      found casefold plan t v := by
  have hcovers : ((closing v.versionId moment reason runId).2 v).covers plan.baselineAt =
      v.covers plan.baselineAt := by
    rw [covers_of_open hopen]
    simp [ObjectVersion.covers, closing, hlate]
    by_cases hm : plan.baselineAt < v.validFrom
    · simp [hm]
    · simp [hm, not_lt.mp hm]
  unfold found
  rw [hcovers]
  rfl

section Record
variable {kind : ObservationKind} {e : Incoming}

/-- An entry that leaves the baseline alone moves nothing that is found there. -/
theorem moved_found (hl : LeavesBaseline casefold plan t kind e) {v w : ObjectVersion}
    (hv : openVersion t kind e.key = some v) (hm : Moved v e w) :
    found casefold plan t w = found casefold plan t v ∧
      (found casefold plan t v = true → said w = said v) := by
  obtain ⟨-,-,hopen⟩ := openVersion_some.mp hv
  unfold LeavesBaseline at hl
  rw [hv] at hl
  dsimp only at hl
  cases hm with
  | agrees ha hw =>
    rw [hw]
    refine ⟨found_grow e.runId hopen fun hearly => ?_,fun _ => said_grow _ _ v⟩
    rcases hl hearly with ⟨-,hbegun⟩ | ⟨hd,-⟩
    · exact hbegun
    · exact absurd ha hd
  | stale hd hs hw =>
    rw [hw]
    exact ⟨rfl,fun _ => rfl⟩
  | replaced hd hs ht hw =>
    have hsaid : found casefold plan t v = false ∧ found casefold plan t w = false := by
      rcases le_or_gt e.observedAt plan.baselineAt with hearly | hlate
      · rcases hl hearly with ⟨ha,-⟩ | ⟨-,hstale | ⟨hold,hnew⟩⟩
        · exact absurd ha hd
        · exact absurd hstale (not_lt.mpr hs)
        · have hnew : readsVersion casefold plan t w = false := by
            rw [← hnew, hw]
            obtain ⟨hkind,hkey⟩ := Prod.mk.inj (openVersion_some.mp hv).2.1
            exact reads_congr casefold t hkind hkey rfl rfl
          refine ⟨?_,by simp [found, hnew]⟩
          rcases hold with hold | hold <;> simp [found, hold]
      · have hwopen : w.isOpen = true := by
          rw [hw]
          exact hopen
        refine ⟨unfound_of_late hopen (ht ▸ hlate),unfound_of_late hwopen ?_⟩
        rw [hw]
        exact ht ▸ hlate
    exact ⟨hsaid.2.trans hsaid.1.symm,fun h => absurd (h.symm.trans hsaid.1) (by simp)⟩
  | superseded hs hw =>
    rcases le_or_gt e.observedAt plan.baselineAt with hearly | hlate
    · rcases hl hearly with ⟨ha,-⟩ | ⟨-,hstale | ⟨hold,-⟩⟩
      · exact absurd ha hs.differs
      · exact absurd hstale (not_lt.mpr hs.fresh)
      · have hboth : found casefold plan t v = false ∧ found casefold plan t w = false := by
          rw [hw]
          refine ⟨?_,?_⟩
          · rcases hold with hold | hold <;> simp [found, hold]
          · have hended : ¬ plan.baselineAt < e.observedAt := not_lt.mpr hearly
            simp [found, ObjectVersion.covers, closing, hended]
        exact ⟨hboth.2.trans hboth.1.symm,fun h => absurd (h.symm.trans hboth.1) (by simp)⟩
    · rw [hw]
      exact ⟨found_closing hopen hlate _ _,fun _ => rfl⟩

/-- A version that is opened for an entry that leaves the baseline alone is not found there. -/
theorem opened_unfound (hl : LeavesBaseline casefold plan t kind e)
    (hopens : ∀ v, openVersion t kind e.key = some v → Supersedes v e) :
    found casefold plan t (newVersion kind e) = false := by
  rcases le_or_gt e.observedAt plan.baselineAt with hearly | hlate
  · have hunread : readsVersion casefold plan t (newVersion kind e) = false := by
      have hl := hl hearly
      cases hv : openVersion t kind e.key with
      | none => simpa [hv] using hl
      | some v =>
        have hs := hopens v hv
        rw [hv] at hl
        rcases hl with ⟨ha,-⟩ | ⟨-,hstale | ⟨-,hnew⟩⟩
        · exact absurd ha hs.differs
        · exact absurd hstale (not_lt.mpr hs.fresh)
        · exact hnew
    simp [found, hunread]
  · exact unfound_of_late rfl hlate

end Record

/-- Growing open present versions, none of them back over the baseline. -/
theorem alike_of_grown {moment : Instant} {runId : RunId} {p : ObjectVersion → Bool}
    (hrows : t'.rows = t.rows.map fun v => if p v then grow moment runId v else v)
    (hopen : ∀ v, p v = true → v.isOpen = true)
    (hspares : moment ≤ plan.baselineAt → ∀ v ∈ t.rows, p v = true →
      v.validFrom ≤ plan.baselineAt ∨ readsVersion casefold plan t v = false) :
    AnswerAlike t t' plan.baselineAt (reads casefold t plan) := by
  have hmoves : t'.rows = (t.rows.map fun v => if p v then grow moment runId v else v) ++
      numberedFrom 0 [] := by rw [hrows, numberedFrom, List.append_nil]
  refine alike_of_moves hmoves (fun v hv => ?_) (fun x hx => absurd hx List.not_mem_nil)
  by_cases hp : p v = true
  · simp only [hp, if_true]
    exact ⟨found_grow runId (hopen v hp) fun hearly => hspares hearly v hv hp,
      fun _ => said_grow moment runId v⟩
  · rw [if_neg hp]
    exact ⟨rfl,fun _ => rfl⟩

/-- A version that a completion loses, against the baseline. -/
theorem closedBy_found {completedAt : Instant} {runId : RunId} {v : ObjectVersion}
    (hopen : v.isOpen = true) (hunread : completedAt ≤ plan.baselineAt → v.isPresent = true →
      readsVersion casefold plan t v = false) :
    found casefold plan t (closedBy completedAt runId v) = found casefold plan t v ∧
      said (closedBy completedAt runId v) = said v := by
  unfold closedBy
  cases hp : v.isPresent with
  | false => exact ⟨by simp [found, reaffirmation, hp],rfl⟩
  | true =>
    refine ⟨?_,rfl⟩
    rcases le_or_gt completedAt plan.baselineAt with hearly | hlate
    · have hnone := hunread hearly hp
      have hsame : readsVersion casefold plan t
          ((closing v.versionId completedAt .absent runId).2 v) = false := hnone
      rw [if_pos rfl, found, found, hnone, hsame, Bool.and_false, Bool.and_false]
    · exact found_closing hopen hlate _ _

/-- A call that spares the baseline leaves it answering as it did. -/
theorem perform_alike {call : Call} (hspares : Spares hash casefold plan t call)
    (hp : perform hash casefold t call = .ok t') :
    AnswerAlike t t' plan.baselineAt (reads casefold t plan) := by
  cases call with
  | record kind rows =>
    obtain ⟨⟨t1,o⟩,h,rfl⟩ := map_ok.mp hp
    refine alike_of_moves (record_rows h) (fun v hv => ?_) fun x hx => ?_
    · rcases recorded_cases hash kind rows v with hsame | ⟨e,he,hobj,hopen,hm⟩
      · rw [hsame]
        exact ⟨rfl,fun _ => rfl⟩
      · exact moved_found (hspares e he) (openVersion_some.mpr ⟨hv,hobj,hopen⟩) hm
    · obtain ⟨e,he,rfl,hopens⟩ := mem_opened.mp hx
      exact opened_unfound (hspares e he) hopens
  | affirm kind keys observedAt runId =>
    obtain ⟨⟨t1,o⟩,h,rfl⟩ := map_ok.mp hp
    have hgrown : t1.rows = t.rows.map fun v =>
        if decide (v.kind = kind ∧ v.key ∈ keys ∧ v.isOpen ∧ v.isPresent) then
          grow observedAt runId v else v := by
      rw [affirm_rows h]
      refine List.map_congr_left fun v _ => ?_
      simp only [affirmed, decide_eq_true_eq]
    exact alike_of_grown hgrown (fun v hv => (of_decide_eq_true hv).2.2.1)
      fun hearly v hv hp => hspares hearly v hv (of_decide_eq_true hp)
  | affirmContained kind containerKeys observedAt runId =>
    obtain ⟨⟨t1,o⟩,h,rfl⟩ := map_ok.mp hp
    exact alike_of_grown (affirmContained_rows h) (fun v hv => (openPresent_iff.mp hv).2.1)
      fun hearly v hv hp => hspares hearly v hv hp
  | closeAbsent db runId collector scopeKind scopeKey completedAt =>
    obtain ⟨⟨t1,o⟩,h,rfl⟩ := map_ok.mp hp
    obtain ⟨news,hrows,hnews⟩ := closeAbsent_rows h
    refine alike_of_moves hrows (fun v hv => ?_) fun x hx => ?_
    · unfold absented
      split_ifs with hlost
      · have hopen : v.isOpen = true := (lostToScope_open hlost).1
        have hclosed : found casefold plan t (closedBy completedAt runId v) =
            found casefold plan t v ∧ said (closedBy completedAt runId v) = said v :=
          closedBy_found hopen fun hearly hp => hspares hearly v hv hlost hp
        exact ⟨hclosed.1,fun _ => hclosed.2⟩
      · exact ⟨rfl,fun _ => rfl⟩
    · obtain ⟨v,-,-,-,rfl⟩ := (hnews x).mp hx
      simp [found, tombstone]

theorem after_alike {call : Call} (hspares : Spares hash casefold plan t call) :
    AnswerAlike t (after hash casefold t call) plan.baselineAt (reads casefold t plan) := by
  unfold after
  cases hp : perform hash casefold t call with
  | error e => rfl
  | ok t' => exact perform_alike hspares hp

/-- A run whose calls spare the baseline has the campaign generated again as it was. -/
theorem afterAll_prints {sha256 : String → String} {calls : List Call}
    (h : Spared hash casefold plan t calls) :
    (generateFromBaseline casefold sha256 (afterAll hash casefold t calls) plan).map prints =
      (generateFromBaseline casefold sha256 t plan).map prints := by
  induction calls generalizing t with
  | nil => rfl
  | cons call calls ih =>
    obtain ⟨hspares,hrest⟩ := h
    exact (ih hrest).trans (generate_alike (after_alike hspares))

end Steps

/-- A campaign that was generated is found reproducible after every run whose
calls, each where it is made, spare its baseline. -/
theorem campaign_stays_reproducible (hash : State → String) (casefold sha256 : String → String)
    (t : Table) (c c' : CampaignRow) (hgenerated : generate casefold sha256 t c = .ok c')
    (calls : List Call) (hspared : Spared hash casefold c.plan t calls) :
    ∃ v, verifyCampaign casefold sha256 (afterAll hash casefold t calls) c' = .ok v ∧
      v.reproducible = true := by
  unfold generate at hgenerated
  cases hr : generateFromBaseline casefold sha256 t c.plan with
  | error e =>
    rw [hr] at hgenerated
    cases hgenerated
  | ok r =>
    rw [hr] at hgenerated
    obtain rfl : { c with frozen := some ⟨r.items,r.digest⟩ } = c' := Except.ok.inj hgenerated
    have hprints : (generateFromBaseline casefold sha256 (afterAll hash casefold t calls)
        c.plan).map prints = (generateFromBaseline casefold sha256 t c.plan).map prints :=
      afterAll_prints hspared
    rw [hr] at hprints
    cases hagain : generateFromBaseline casefold sha256 (afterAll hash casefold t calls) c.plan with
    | error e =>
      rw [hagain] at hprints
      cases hprints
    | ok r' =>
      rw [hagain] at hprints
      obtain ⟨hitems,hdigest⟩ := Prod.mk.inj (Except.ok.inj hprints)
      refine ⟨compareItems (fingerprints r.items) (fingerprints r'.items) r.digest r'.digest,?_,?_⟩
      · unfold verifyCampaign
        simp only [hagain]
      · rw [hitems, hdigest]
        exact compareItems_self _ _

namespace Sample

/-- A digest that tells the states below apart. -/
def levelDigest (state : State) : String :=
  match state.lookup "permission" with
  | some (.text s) => s
  | _ => ""

def entry (name trustee permission : String) (observedAt : Instant) : Reading where
  key := name
  columns :=
    [("share_key",.text "fs01|data"), ("trustee_sid",.text trustee), ("trustee_key",.text trustee),
      ("ace_type",.text "allow"), ("access_mask",.null), ("permission",.text permission),
      ("order_index",.whole 0)]
  observedAt := observedAt
  runId := "r1"

def share : Reading where
  key := "fs01|data"
  columns := [("server_key",.text "fs01"), ("name",.text "data")]
  observedAt := 1
  runId := "r1"

/-- One entry was seen before the baseline and another one after it. -/
def history : List Call :=
  [.record .smbShare [share], .record .smbAce [entry "e1" "S-1-5-21-1-2-3-1001" "read" 1],
    .record .smbAce [entry "e2" "S-1-5-21-1-2-3-1002" "full" 10]]

def start : Table := afterAll levelDigest id Table.blank history

theorem share_keyed : Adg.SecurityIdentifier.strip "fs01|data".toList ≠ [] := by decide

def draft : CampaignRow where
  plan :=
    { focus := .resource
      scopes := [⟨.share,"fs01|data",share_keyed⟩]
      options := {}
      baselineAt := 5 }

/-- A reading of the second entry from before the baseline, arriving now. -/
def late : Call := .record .smbAce [entry "e2" "S-1-5-21-1-2-3-1002" "full" 3]

/-- A reading from after the baseline that contradicts the record. -/
def later : Call := .record .smbAce [entry "e1" "S-1-5-21-1-2-3-1001" "change" 12]

end Sample

theorem campaign_stays_reproducible_sample :
    ∃ c', generate id id Sample.start Sample.draft = .ok c' ∧
      ∃ v, verifyCampaign id id (afterAll Sample.levelDigest id Sample.start [Sample.later]) c' =
        .ok v ∧ v.reproducible = true := by
  have hgenerates : (generate id id Sample.start Sample.draft).toOption.isSome = true := by
    decide +kernel
  obtain ⟨c',hc⟩ := returned hgenerates
  refine ⟨c',hc,campaign_stays_reproducible _ _ _ _ _ _ hc _ ⟨fun e he hearly => ?_,trivial⟩⟩
  obtain ⟨r,hr,rfl⟩ := incoming_origin he
  obtain rfl := List.mem_singleton.mp hr
  exact absurd hearly (by decide)

/-- A late reading draws a version back over the baseline, and an item is missing. -/
theorem late_reading_unreproducible :
    ∃ c', generate id id Sample.start Sample.draft = .ok c' ∧
      ∃ v, verifyCampaign id id (after Sample.levelDigest id Sample.start Sample.late) c' = .ok v ∧
        v.reproducible = false := by
  have hcheck : ((generate id id Sample.start Sample.draft).toOption.bind fun c' =>
      (verifyCampaign id id (after Sample.levelDigest id Sample.start Sample.late) c').toOption.map
        (·.reproducible)) = some false := by
    decide +kernel
  obtain ⟨c',hc,hcheck⟩ := Option.bind_eq_some_iff.mp hcheck
  obtain ⟨v,hv,hfalse⟩ := Option.map_eq_some_iff.mp hcheck
  have hok : ∀ {ε α : Type} {x : Except ε α} {a : α}, x.toOption = some a → x = .ok a := by
    intro ε α x a h
    cases x with
    | error e => cases h
    | ok b => exact congrArg Except.ok (Option.some.inj h)
  exact ⟨c',hok hc,v,hok hv,hfalse⟩

end Adg.BaselineVerification
