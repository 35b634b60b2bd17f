import Adg.AuditChain

/-!
# The reported head of an audit chain

Four readers report the newest event of a chain. Each of them reads a page from
the beginning of the chain and takes the last event on it. That is the newest
one as long as the chain fits on the page.
-/

set_option autoImplicit false

namespace Adg.ChainHeads
open Adg.CanonicalJson Adg.SortedLists Adg.AuditChain

def campaignChain (campaignId : Uuid) : String := "campaign:" ++ campaignId

def planChain (planId : Uuid) : String := "plan:" ++ planId

section Readers
variable (sha256 : String → String) (table : List GovernanceEvent)

/-- `events_for_chain`, and whether there is more. -/
def eventsForChain (chainKey : String) (limit offset : ℕ) : List GovernanceEvent × Bool :=
  let rows := ((inChainOrder (chainOf table chainKey)).drop offset).take (limit+1)
  (rows.take limit,limit < rows.length)

/-- `campaign_events`. -/
def campaignEvents (campaignId : Uuid) (limit offset : ℕ) : List GovernanceEvent × Bool :=
  eventsForChain table (campaignChain campaignId) limit offset

/-- `_chain_head`, the `audit_head` of `campaign_status`. -/
def auditHead (campaignId : Uuid) : Option String :=
  (campaignEvents table campaignId 1000 0).1.getLast?.map (·.digest)

/-- The events `audit_trail` verifies, whatever page is asked for. -/
def wholeTrail (campaignId : Uuid) : List GovernanceEvent :=
  (campaignEvents table campaignId 100000 0).1

/-- `audit_trail`. -/
def auditTrail (campaignId : Uuid) (limit offset : ℕ) :
    List GovernanceEvent × Bool × ChainVerification :=
  let (page,hasMore) := campaignEvents table campaignId limit offset
  (page,hasMore,verifyChain sha256 (wholeTrail table campaignId))

/-- The events of a plan, by the limit that is there unless another is given. -/
def planEvents (planId : Uuid) : List GovernanceEvent :=
  (eventsForChain table (planChain planId) 1000 0).1

/-- `audit` of a plan. -/
def audit (planId : Uuid) : List GovernanceEvent × ChainVerification :=
  (planEvents table planId,verifyChain sha256 (planEvents table planId))

/-- The head `export` signs: a digest and a place. -/
def exportHead (planId : Uuid) : Option String × Option ℤ :=
  ((planEvents table planId).getLast?.map (·.digest),
    (planEvents table planId).getLast?.map (·.chainIndex))

/-- Event `n-1` of a chain with `n` events. -/
def newest (chainKey : String) : Option GovernanceEvent :=
  (chainOf table chainKey).find? fun e => e.chainIndex = (chainOf table chainKey).length-1

/-- A verification of all of a chain: it read every event and names the newest. -/
structure Covers (chainKey : String) (verified : List GovernanceEvent)
    (v : ChainVerification) : Prop where
  every : verified.Perm (chainOf table chainKey)
  length : v.length = (chainOf table chainKey).length
  head : v.headDigest = (newest table chainKey).map (·.digest)

/-- What a campaign reports about its chain. -/
structure CampaignReports (campaignId : Uuid) : Prop where
  status : auditHead table campaignId = (newest table (campaignChain campaignId)).map (·.digest)
  trail : ∀ limit offset, Covers table (campaignChain campaignId) (wholeTrail table campaignId)
    (auditTrail sha256 table campaignId limit offset).2.2

/-- What a plan reports about its chain. -/
structure PlanReports (planId : Uuid) : Prop where
  audit : Covers table (planChain planId) (audit sha256 table planId).1
    (audit sha256 table planId).2
  signed : exportHead table planId = ((newest table (planChain planId)).map (·.digest),
    (newest table (planChain planId)).map (·.chainIndex))

end Readers

/-! ### Pages of an unbroken chain -/

section Pages
variable {sha256 : String → String} {es : List GovernanceEvent}
  (h : firstBreak sha256 0 none es = none)
include h

theorem find_newest : es.find? (fun e => e.chainIndex = (es.length : ℤ)-1) = es.getLast? := by
  induction es using List.reverseRecOn with
  | nil => rfl
  | append_singleton es x _ =>
    obtain ⟨hes,hx,-,-⟩ := firstBreak_append.mp h
    have hlength : ((es ++ [x]).length : ℤ)-1 = es.length := by
      rw [List.length_append, List.length_singleton]
      omega
    have hbefore : es.find? (fun e => e.chainIndex = (es.length : ℤ)) = none := by
      rw [List.find?_eq_none]
      intro e he
      have hbelow := (index_walk hes).2 e he
      simp only [decide_eq_true_eq]
      omega
    rw [hlength, List.find?_append, hbefore, List.getLast?_concat]
    simp [hx]

/-- The walk along the beginning of an unbroken chain. -/
theorem walk_take (n : ℕ) : firstBreak sha256 0 none (es.take n) = none := by
  induction es using List.reverseRecOn with
  | nil => rw [List.take_nil]; rfl
  | append_singleton es x ih =>
    by_cases hn : n ≤ es.length
    · rw [List.take_append_of_le_length hn]
      exact ih (firstBreak_append.mp h).1
    · rw [List.take_of_length_le]
      · exact h
      · rw [List.length_append, List.length_singleton]
        omega

/-- The last event of a page is the newest one just when the page holds them all. -/
theorem page_head_iff (collisionFree : Function.Injective sha256) {n : ℕ} :
    (es.take n).getLast?.map (·.digest) = es.getLast?.map (·.digest) ↔ es.length ≤ n := by
  constructor
  · intro hhead
    by_contra hlong
    have hshort := Nat.lt_of_not_le hlong
    have hlast := walks_agree collisionFree (walk_take h n) h hhead
    have hlength := hlast.length_eq
    rw [List.length_take] at hlength
    omega
  · intro hn
    rw [List.take_of_length_le hn]

theorem verifyChain_length : (verifyChain sha256 es).length = es.length := by
  unfold verifyChain
  rw [inChainOrder_of_walk h (List.Perm.refl es)]
  cases es with
  | nil => rfl
  | cons e es => simp [h]

theorem verifyChain_head : (verifyChain sha256 es).headDigest = es.getLast?.map (·.digest) := by
  have horder := inChainOrder_of_walk h (List.Perm.refl es)
  rw [(verifyChain_of_walk (by rw [horder]; exact h)).2, horder]

end Pages

section Reports
variable {sha256 : String → String} {table : List GovernanceEvent}
  (hwalk : Unbroken sha256 table) (collisionFree : Function.Injective sha256)
include hwalk

/-- A page from the beginning of a chain is a beginning of the chain. -/
theorem eventsForChain_page (chainKey : String) (limit : ℕ) :
    (eventsForChain table chainKey limit 0).1 = (chainOf table chainKey).take limit := by
  unfold eventsForChain
  rw [inChainOrder_of_walk (hwalk chainKey) (List.Perm.refl _), List.drop_zero]
  dsimp only
  rw [List.take_take, Nat.min_eq_left (Nat.le_succ limit)]

theorem newest_last (chainKey : String) :
    newest table chainKey = (chainOf table chainKey).getLast? := find_newest (hwalk chainKey)

/-- A verification covers a chain just when the page it is made of holds it. -/
theorem covers_page_iff (chainKey : String) (limit : ℕ) :
    Covers table chainKey ((chainOf table chainKey).take limit)
      (verifyChain sha256 ((chainOf table chainKey).take limit)) ↔
        (chainOf table chainKey).length ≤ limit := by
  have hpage := walk_take (hwalk chainKey) limit
  constructor
  · intro h
    have hlength := h.every.length_eq
    rw [List.length_take] at hlength
    omega
  · intro hn
    constructor
    · rw [List.take_of_length_le hn]
    · rw [verifyChain_length hpage, List.take_of_length_le hn]
    · rw [verifyChain_head hpage, List.take_of_length_le hn, newest_last hwalk]

include collisionFree

theorem campaign_reports_iff (campaignId : Uuid) : CampaignReports sha256 table campaignId ↔
    (chainOf table (campaignChain campaignId)).length ≤ 1000 := by
  have hstatus : auditHead table campaignId =
      (newest table (campaignChain campaignId)).map (·.digest) ↔
        (chainOf table (campaignChain campaignId)).length ≤ 1000 := by
    unfold auditHead campaignEvents
    rw [eventsForChain_page hwalk, newest_last hwalk]
    exact page_head_iff (hwalk _) collisionFree
  have htrail : ∀ limit offset, Covers table (campaignChain campaignId)
      (wholeTrail table campaignId) (auditTrail sha256 table campaignId limit offset).2.2 ↔
        (chainOf table (campaignChain campaignId)).length ≤ 100000 := by
    intro limit offset
    have hwhole : wholeTrail table campaignId =
        (chainOf table (campaignChain campaignId)).take 100000 := eventsForChain_page hwalk _ _
    show Covers table _ (wholeTrail table campaignId)
      (verifyChain sha256 (wholeTrail table campaignId)) ↔ _
    rw [hwhole]
    exact covers_page_iff hwalk _ _
  constructor
  · intro h
    exact hstatus.mp h.status
  · intro hn
    exact ⟨hstatus.mpr hn,fun limit offset => (htrail limit offset).mpr (hn.trans (by decide))⟩

omit collisionFree in
theorem plan_reports_iff (planId : Uuid) : PlanReports sha256 table planId ↔
    (chainOf table (planChain planId)).length ≤ 1000 := by
  have hevents : planEvents table planId = (chainOf table (planChain planId)).take 1000 :=
    eventsForChain_page hwalk _ _
  constructor
  · intro h
    have haudit := h.audit
    unfold audit at haudit
    rw [hevents] at haudit
    exact (covers_page_iff hwalk _ _).mp haudit
  · intro hn
    constructor
    · unfold audit
      rw [hevents]
      exact (covers_page_iff hwalk _ _).mpr hn
    · unfold exportHead
      rw [hevents, List.take_of_length_le hn, newest_last hwalk]

end Reports

/-- However a table was filled, campaigns and plans report the newest events of their
chains, and verify all of them, just when no chain is longer than a page. -/
theorem reports_newest_iff (sha256 : String → String) (collisionFree : Function.Injective sha256)
    (entries : List Entry) (campaignId planId : Uuid) :
    (CampaignReports sha256 (appendAll sha256 [] entries) campaignId ∧
      PlanReports sha256 (appendAll sha256 [] entries) planId) ↔
    (chainOf (appendAll sha256 [] entries) (campaignChain campaignId)).length ≤ 1000 ∧
      (chainOf (appendAll sha256 [] entries) (planChain planId)).length ≤ 1000 := by
  have hwalk : Unbroken sha256 (appendAll sha256 [] entries) :=
    appendAll_unbroken nothing_unbroken entries
  rw [campaign_reports_iff hwalk collisionFree, plan_reports_iff hwalk]

/-- A chain holds what was appended to it. -/
theorem chain_length (sha256 : String → String) (table : List GovernanceEvent)
    (entries : List Entry) (key : String) :
    (chainOf (appendAll sha256 table entries) key).length =
      (chainOf table key).length+entries.countP (·.chainKey = key) := by
  induction entries generalizing table with
  | nil => rfl
  | cons entry entries ih =>
    show (chainOf (appendAll sha256 (appendEvent sha256 table entry) entries) key).length = _
    rw [ih, chainOf_appendEvent, List.countP_cons]
    by_cases hkey : entry.chainKey = key
    · simp only [hkey, if_true, List.length_append, List.length_singleton, decide_true]
      omega
    · simp [hkey]

theorem reports_newest_sample : CampaignReports sampleHash
      (appendAll sampleHash [] [created,canceled]) "7" ∧
    PlanReports sampleHash (appendAll sampleHash [] [created,canceled]) "p1" := by
  apply (reports_newest_iff sampleHash sampleHash_injective [created,canceled] "7" "p1").mpr
  rw [chain_length, chain_length]
  decide +kernel

/-- After 1001 events of a campaign its reported head is the 1000th. -/
theorem long_chain_misreported : ¬ CampaignReports sampleHash
    (appendAll sampleHash [] (List.replicate 1001 created)) "7" := by
  rw [campaign_reports_iff (appendAll_unbroken nothing_unbroken _) sampleHash_injective,
    chain_length, List.countP_replicate]
  decide +kernel

end Adg.ChainHeads
