import Adg.ReviewRecords

/-!
# The record of a campaign over whole runs

Every kind of call keeps the tables in order, leaves the items of a campaign
that is no longer a draft as they were frozen, and records a decision only by
who is asked for it while the campaign is open. Over a run of calls, whatever
they are and whoever makes them, the record of every campaign is well formed.
-/

set_option autoImplicit false

namespace Adg.CampaignRecord
open Adg.AuditChain Adg.CanonicalJson Adg.LinkedRows Adg.ReviewGeneration Adg.ReviewCampaigns
open Adg.ReviewCalls Adg.ReviewRecords Adg.SortedLists Adg.Transactions

section Answering
variable {subject : String} {item : ReviewItem} {record : ReviewDecision} {db db' : Store}

/-- A decision on an item, once an answer to it is there. -/
def mark (item : ReviewItem) (moment : UtcMoment) (record d : ReviewDecision) : ReviewDecision :=
  if d.itemId = item.itemId ∧ d.isCurrent = true then superseded moment record.decisionId d else d

theorem mark_keeps (item : ReviewItem) (moment : UtcMoment) (record d : ReviewDecision) :
    (mark item moment record d).decisionId = d.decisionId ∧
      (mark item moment record d).itemId = d.itemId ∧
      (mark item moment record d).campaignId = d.campaignId := by
  unfold mark
  split <;> exact ⟨rfl,rfl,rfl⟩

theorem decidedRow_keeps (itemId decisionId : Uuid) (moment : UtcMoment) (i : ReviewItem) :
    (decidedRow itemId decisionId moment i).itemId = i.itemId ∧
      (decidedRow itemId decisionId moment i).campaignId = i.campaignId ∧
      (decidedRow itemId decisionId moment i).frozen = i.frozen ∧
      (decidedRow itemId decisionId moment i).createdAt = i.createdAt ∧
      (decidedRow itemId decisionId moment i).assignmentId = i.assignmentId := by
  unfold decidedRow
  split <;> exact ⟨rfl,rfl,rfl,rfl,rfl⟩

/-- The decisions on an item after an answer: on another item they are as they were. -/
theorem answers_decisionsOn {moment : UtcMoment} (h : Answers subject item record db db')
    (hdecisions : db'.decisions = db.decisions.map (mark item moment record) ++ [record])
    (itemId : Uuid) : decisionsOn itemId db' =
      if itemId = item.itemId then
        (decisionsOn itemId db).map (mark item moment record) ++ [record]
      else decisionsOn itemId db := by
  have hpulled : (fun d : ReviewDecision => decide (d.itemId = itemId)) ∘ mark item moment record =
      fun d => decide (d.itemId = itemId) := by
    funext d
    simp only [Function.comp_apply, (mark_keeps item moment record d).2.1]
  unfold decisionsOn
  rw [hdecisions, List.filter_append, List.filter_map, hpulled]
  by_cases hid : itemId = item.itemId
  · rw [if_pos hid, List.filter_cons_of_pos (by simp [h.onItem, hid]), List.filter_nil]
  · have hoff : ([record].filter fun d => decide (d.itemId = itemId)) = [] := by
      simp [h.onItem, Ne.symm hid]
    rw [if_neg hid, hoff, List.append_nil]
    conv_rhs => rw [← List.map_id (db.decisions.filter fun d => decide (d.itemId = itemId))]
    apply List.map_congr_left
    intro d hd
    have hon : d.itemId = itemId := by simpa using (List.mem_filter.mp hd).2
    unfold mark
    rw [if_neg fun hc => hid (hon.symm.trans hc.1)]
    rfl

theorem records_mark {moment : UtcMoment} {e : GovernanceEvent} {d : ReviewDecision}
    {items items' : List ReviewItem} (h : Records items e d)
    (hitems : ∀ i ∈ items', ∃ j ∈ items, i.itemId = j.itemId ∧ i.frozen = j.frozen) :
    Records items' e (mark item moment record d) := by
  obtain ⟨hid,hon,-⟩ := mark_keeps item moment record d
  refine ⟨hid ▸ h.1,hon ▸ h.2.1,fun i hi heq => ?_⟩
  obtain ⟨j,hj,hids,hfrozen⟩ := hitems i hi
  rw [hfrozen]
  exact h.2.2 j hj (hids.symm.trans (heq.trans hon))

/-- An answer keeps the tables in order. -/
theorem answers_kept (h : Answers subject item record db db') (hkept : WellKept db) :
    WellKept db' := by
  obtain ⟨moment,hdecisions⟩ := h.decisions
  obtain ⟨stamp,hitems⟩ := h.items
  have hon := answers_decisionsOn h hdecisions
  have hdecisions : db'.decisions = db.decisions.map (mark item moment record) ++ [record] :=
    hdecisions
  have hback : ∀ i ∈ db'.items, ∃ j ∈ db.items, i.itemId = j.itemId ∧ i.frozen = j.frozen := by
    intro i hi
    rw [hitems] at hi
    obtain ⟨j,hj,rfl⟩ := List.mem_map.mp hi
    obtain ⟨hid,-,hfrozen,-⟩ := decidedRow_keeps item.itemId record.decisionId stamp j
    exact ⟨j,hj,hid,hfrozen⟩
  have hcurrent : (currentDecisions item.itemId db).head? = (decisionsOn item.itemId db).getLast? := by
    have hsplit : currentDecisions item.itemId db =
        (decisionsOn item.itemId db).filter (·.isCurrent) := by
      unfold currentDecisions decisionsOn
      rw [List.filter_filter]
      apply List.filter_congr
      intro d hd
      rw [Bool.and_comm]
    rw [hsplit, (hkept.chains item.itemId).current]
    cases (decisionsOn item.itemId db).getLast? <;> rfl
  constructor
  case campaignIds => rw [h.campaigns]; exact hkept.campaignIds
  case itemIds =>
    rw [hitems, List.map_map]
    have hsame : (fun i : ReviewItem => i.itemId) ∘ decidedRow item.itemId record.decisionId stamp =
        fun i => i.itemId := by
      funext i
      exact (decidedRow_keeps _ _ _ i).1
    rw [hsame]
    exact hkept.itemIds
  case decisionIds => exact h.nodup hkept.decisionIds
  case placed =>
    intro d hd
    have hplaced : ∃ i ∈ db.items, i.itemId = d.itemId ∧ i.campaignId = d.campaignId := by
      rw [hdecisions] at hd
      rcases List.mem_append.mp hd with hold | hnew
      · obtain ⟨x,hx,rfl⟩ := List.mem_map.mp hold
        obtain ⟨-,hxitem,hxcampaign⟩ := mark_keeps item moment record x
        rw [hxitem, hxcampaign]
        exact hkept.placed x hx
      · rw [List.mem_singleton.mp hnew]
        exact ⟨item,h.mem,h.onItem.symm,h.onCampaign.symm⟩
    obtain ⟨i,hi,hid,hcampaign⟩ := hplaced
    obtain ⟨hkid,hkcampaign,-⟩ := decidedRow_keeps item.itemId record.decisionId stamp i
    rw [hitems]
    exact ⟨_,List.mem_map_of_mem hi,hkid.trans hid,hkcampaign.trans hcampaign⟩
  case opened =>
    intro d hd
    rw [h.campaigns]
    rw [hdecisions] at hd
    rcases List.mem_append.mp hd with hold | hnew
    · obtain ⟨x,hx,rfl⟩ := List.mem_map.mp hold
      rw [(mark_keeps item moment record x).2.2]
      exact hkept.opened x hx
    · rw [List.mem_singleton.mp hnew, h.onCampaign]
      obtain ⟨c,hc,hcid,hactive⟩ := h.entitled.accepting
      exact ⟨c,hc,hcid,by rw [hactive]; decide⟩
  case chains =>
    intro itemId
    rw [hon]
    split
    · next hid =>
      subst hid
      have hmarks : ∀ d ∈ db.decisions.filter (fun d => decide (d.itemId = item.itemId)),
          mark item moment record d
            = if d.isCurrent then superseded moment record.decisionId d else d := by
        intro d hd
        have hitem : d.itemId = item.itemId := by simpa using (List.mem_filter.mp hd).2
        simp only [mark, hitem, true_and]
      apply (hkept.chains item.itemId).extend hmarks
      · rw [Option.or_none, ← hcurrent]
        exact h.follows
      · exact h.current
      · exact h.last
    · exact hkept.chains itemId
  case pointed =>
    intro i hi
    rw [hitems] at hi
    obtain ⟨j,hj,rfl⟩ := List.mem_map.mp hi
    rw [(decidedRow_keeps _ _ _ j).1, hon]
    unfold decidedRow
    split
    · simp
    · exact hkept.pointed j hj
  case answered =>
    intro i hi
    rw [hitems] at hi
    obtain ⟨j,hj,rfl⟩ := List.mem_map.mp hi
    unfold decidedRow
    split
    · simp
    · exact hkept.answered j hj
  case trail =>
    obtain ⟨before,e,hevents,hquiet,htype,hdecision,hitem,hdigest⟩ := h.events
    have hbefore : (before.filter fun x => x.eventType = .decisionRecorded) = [] := by
      apply List.filter_eq_nil_iff.mpr
      intro x hx
      simpa using hquiet x hx
    have hrecordings : recordings db' = recordings db ++ [e] := by
      unfold recordings
      rw [hevents, List.filter_append, List.filter_append, hbefore, List.append_nil,
        List.filter_cons_of_pos (by simpa using htype), List.filter_nil]
    rw [hrecordings, hdecisions]
    apply List.rel_append
    · rw [List.forall₂_map_right_iff]
      exact hkept.trail.imp fun e' d hrec => records_mark hrec hback
    · refine .cons ⟨hdecision,h.onItem ▸ hitem,fun i hi heq => ?_⟩ .nil
      obtain ⟨j,hj,hids,hfrozen⟩ := hback i hi
      have hsame : j = item := List.inj_on_of_nodup_map hkept.itemIds hj h.mem
        (hids.symm.trans (heq.trans h.onItem))
      rw [hfrozen, hsame]
      exact hdigest

end Answering

/-! ### One call -/

section Steps
variable {subject : String} {db db' : Store}

theorem answersAll_kept {items : List ReviewItem} (h : AnswersAll subject items db db')
    (hkept : WellKept db) : WellKept db' := by
  induction h with
  | none db => exact hkept
  | next first others ih => exact ih (answers_kept first hkept)

/-- What leaves the decisions, the recordings and all of an item but its
reviewer alone keeps the tables in order. -/
theorem kept_of_same {g : ReviewItem → ReviewItem} (hkept : WellKept db)
    (hids : (db'.campaigns.map (·.campaignId)).Nodup)
    (hopened : ∀ c ∈ db.campaigns, c.status ≠ .draft →
      ∃ c' ∈ db'.campaigns, c'.campaignId = c.campaignId ∧ c'.status ≠ .draft)
    (hdecisions : db'.decisions = db.decisions) (hrecordings : recordings db' = recordings db)
    (hitems : db'.items = db.items.map g)
    (hg : ∀ i, (g i).itemId = i.itemId ∧ (g i).campaignId = i.campaignId ∧
      (g i).frozen = i.frozen ∧ (g i).status = i.status ∧
      (g i).currentDecisionId = i.currentDecisionId) : WellKept db' := by
  have hon : ∀ itemId, decisionsOn itemId db' = decisionsOn itemId db := by
    intro itemId
    unfold decisionsOn
    rw [hdecisions]
  have hback : ∀ i ∈ db'.items, ∃ j ∈ db.items, i = g j := by
    intro i hi
    rw [hitems] at hi
    obtain ⟨j,hj,rfl⟩ := List.mem_map.mp hi
    exact ⟨j,hj,rfl⟩
  constructor
  case campaignIds => exact hids
  case itemIds =>
    have hsame : (fun i : ReviewItem => i.itemId) ∘ g = fun i => i.itemId := by
      funext i
      exact (hg i).1
    rw [hitems, List.map_map, hsame]
    exact hkept.itemIds
  case decisionIds =>
    rw [hdecisions]
    exact hkept.decisionIds
  case placed =>
    intro d hd
    rw [hdecisions] at hd
    obtain ⟨i,hi,hid,hcampaign⟩ := hkept.placed d hd
    rw [hitems]
    exact ⟨g i,List.mem_map_of_mem hi,(hg i).1.trans hid,(hg i).2.1.trans hcampaign⟩
  case opened =>
    intro d hd
    rw [hdecisions] at hd
    obtain ⟨c,hc,hid,hstatus⟩ := hkept.opened d hd
    obtain ⟨c',hc',hid',hstatus'⟩ := hopened c hc hstatus
    exact ⟨c',hc',hid'.trans hid,hstatus'⟩
  case chains =>
    intro itemId
    rw [hon]
    exact hkept.chains itemId
  case pointed =>
    intro i hi
    obtain ⟨j,hj,rfl⟩ := hback i hi
    rw [hon, (hg j).1, (hg j).2.2.2.2]
    exact hkept.pointed j hj
  case answered =>
    intro i hi
    obtain ⟨j,hj,rfl⟩ := hback i hi
    rw [(hg j).2.2.2.1, (hg j).2.2.2.2]
    exact hkept.answered j hj
  case trail =>
    rw [hdecisions, hrecordings]
    refine hkept.trail.imp fun e d hrec => ⟨hrec.1,hrec.2.1,fun i hi hid => ?_⟩
    obtain ⟨j,hj,rfl⟩ := hback i hi
    rw [(hg j).2.2.1]
    exact hrec.2.2 j hj ((hg j).1.symm.trans hid)

theorem recordings_quiet {e : GovernanceEvent} (hquiet : e.eventType ≠ .decisionRecorded) :
    recordings { db with events := db.events ++ [e] } = recordings db := by
  have hnone : ([e].filter fun x => decide (x.eventType = .decisionRecorded)) = [] := by
    simp [hquiet]
  unfold recordings
  rw [List.filter_append, hnone, List.append_nil]

theorem campaign_ids_map {f : ReviewCampaign → ReviewCampaign} (hkept : WellKept db)
    (hf : ∀ c, (f c).campaignId = c.campaignId) :
    ((db.campaigns.map f).map (·.campaignId)).Nodup := by
  have hsame : (fun c : ReviewCampaign => c.campaignId) ∘ f = fun c => c.campaignId := funext hf
  rw [List.map_map, hsame]
  exact hkept.campaignIds

/-- A regeneration touches a draft only, which has no decisions. -/
theorem generated_kept {campaignId : Uuid} {rows : List ReviewItem}
    {f : ReviewCampaign → ReviewCampaign} {e : GovernanceEvent} (hkept : WellKept db)
    (hdraft : ∀ x ∈ db.campaigns, x.campaignId = campaignId → x.status = .draft)
    (hrows : ∀ i ∈ rows, i.campaignId = campaignId ∧ i.status = .pending ∧
      i.currentDecisionId = none)
    (hnodup : (rows.map (·.itemId)).Nodup)
    (hnew : ∀ i ∈ db.items, i.campaignId ≠ campaignId → i.itemId ∉ rows.map (·.itemId))
    (hf : ∀ x, (f x).campaignId = x.campaignId ∧ (f x).status = x.status)
    (hquiet : e.eventType ≠ .decisionRecorded) :
    WellKept { db with
      campaigns := db.campaigns.map f
      items := db.items.filter (·.campaignId ≠ campaignId) ++ rows
      events := db.events ++ [e] } := by
  have helsewhere : ∀ d ∈ db.decisions, d.campaignId ≠ campaignId := by
    intro d hd heq
    obtain ⟨c,hc,hid,hstatus⟩ := hkept.opened d hd
    exact hstatus (hdraft c hc (hid.trans heq))
  have hplaced : ∀ d ∈ db.decisions, ∃ i ∈ db.items.filter (·.campaignId ≠ campaignId),
      i.itemId = d.itemId ∧ i.campaignId = d.campaignId := by
    intro d hd
    obtain ⟨i,hi,hid,hcampaign⟩ := hkept.placed d hd
    have hstays : i.campaignId ≠ campaignId := hcampaign ▸ helsewhere d hd
    exact ⟨i,List.mem_filter.mpr ⟨hi,by simpa using hstays⟩,hid,hcampaign⟩
  have hapart : ∀ d ∈ db.decisions, ∀ i ∈ rows, i.itemId ≠ d.itemId := by
    intro d hd i hi heq
    obtain ⟨j,hj,hid,-⟩ := hplaced d hd
    obtain ⟨hj,hstays⟩ := List.mem_filter.mp hj
    exact hnew j hj (by simpa using hstays)
      (hid.trans heq.symm ▸ List.mem_map_of_mem hi)
  constructor
  case campaignIds => exact campaign_ids_map hkept fun c => (hf c).1
  case itemIds =>
    rw [List.map_append]
    apply List.nodup_append.mpr
    refine ⟨hkept.itemIds.sublist (List.filter_sublist.map _),hnodup,?_⟩
    intro x hx y hy hxy
    obtain ⟨i,hi,rfl⟩ := List.mem_map.mp hx
    obtain ⟨hi,hstays⟩ := List.mem_filter.mp hi
    exact hnew i hi (by simpa using hstays) (hxy ▸ hy)
  case decisionIds => exact hkept.decisionIds
  case placed =>
    intro d hd
    obtain ⟨i,hi,hids⟩ := hplaced d hd
    exact ⟨i,List.mem_append_left _ hi,hids⟩
  case opened =>
    intro d hd
    obtain ⟨c,hc,hid,hstatus⟩ := hkept.opened d hd
    exact ⟨f c,List.mem_map_of_mem hc,(hf c).1.trans hid,by rw [(hf c).2]; exact hstatus⟩
  case chains => exact hkept.chains
  case pointed =>
    intro i hi
    rcases List.mem_append.mp hi with hold | hrow
    · exact hkept.pointed i (List.mem_filter.mp hold).1
    · have hnone : db.decisions.filter (fun d => decide (d.itemId = i.itemId)) = [] := by
        apply List.filter_eq_nil_iff.mpr
        intro d hd heq
        exact hapart d hd i hrow (by simpa using (of_decide_eq_true heq).symm)
      rw [(hrows i hrow).2.2]
      show none = Option.map _ (db.decisions.filter _).getLast?
      rw [hnone]
      rfl
  case answered =>
    intro i hi
    rcases List.mem_append.mp hi with hold | hrow
    · exact hkept.answered i (List.mem_filter.mp hold).1
    · obtain ⟨-,hpending,hnone⟩ := hrows i hrow
      simp [hpending, hnone]
  case trail =>
    have hsame : recordings { db with events := db.events ++ [e] } = recordings db :=
      recordings_quiet hquiet
    show List.Forall₂ _ (recordings { db with events := db.events ++ [e] }) db.decisions
    rw [hsame]
    have hboth := (List.forall₂_and_left db.decisions (recordings db)).mpr ⟨hapart,hkept.trail.flip⟩
    refine hboth.flip.imp fun e' d ⟨hapart,hrec⟩ => ⟨hrec.1,hrec.2.1,fun i hi hid => ?_⟩
    rcases List.mem_append.mp hi with hold | hrow
    · exact hrec.2.2 i (List.mem_filter.mp hold).1 hid
    · exact absurd hid (hapart i hrow)

theorem never_draft_again {current status : CampaignStatus}
    (h : status ∈ campaignTransitions current) : status ≠ .draft := by
  intro heq
  subst heq
  revert h
  cases current <;> decide

theorem effect_kept (h : Effect subject db db') (hkept : WellKept db) : WellKept db' := by
  have hopened : ∀ c ∈ db.campaigns, c.status ≠ .draft →
      ∃ c' ∈ db.campaigns, c'.campaignId = c.campaignId ∧ c'.status ≠ .draft :=
    fun c hc hstatus => ⟨c,hc,rfl,hstatus⟩
  have hself : ∀ i : ReviewItem, (id i).itemId = i.itemId ∧ (id i).campaignId = i.campaignId ∧
      (id i).frozen = i.frozen ∧ (id i).status = i.status ∧
      (id i).currentDecisionId = i.currentDecisionId := fun i => ⟨rfl,rfl,rfl,rfl,rfl⟩
  cases h with
  | created campaign e hdraft hfresh hquiet h =>
    subst h
    refine kept_of_same hkept ?_ ?_ rfl (recordings_quiet hquiet) (List.map_id _).symm hself
    · rw [List.map_append]
      apply List.nodup_append.mpr
      refine ⟨hkept.campaignIds,List.nodup_singleton _,?_⟩
      intro x hx y hy hxy
      obtain ⟨c,hc,rfl⟩ := List.mem_map.mp hx
      rw [List.mem_singleton.mp hy] at hxy
      exact hfresh c hc hxy
    · intro c hc hstatus
      exact ⟨c,List.mem_append_left _ hc,rfl,hstatus⟩
  | generated campaignId rows f e hdraft hrows hnodup hnew hf hquiet h =>
    subst h
    exact generated_kept hkept hdraft hrows hnodup hnew hf hquiet
  | moved campaignId status f e hallowed hf hquiet h =>
    subst h
    have hkeeps : ∀ x : ReviewCampaign,
        (if x.campaignId = campaignId then f x else x).campaignId = x.campaignId := by
      intro x
      split
      · exact (hf x).1
      · rfl
    refine kept_of_same hkept (campaign_ids_map hkept hkeeps) ?_ rfl (recordings_quiet hquiet)
      (List.map_id _).symm hself
    intro c hc hstatus
    refine ⟨_,List.mem_map_of_mem hc,hkeeps c,?_⟩
    split
    · obtain ⟨x,-,-,hallowed⟩ := hallowed
      rw [(hf c).2]
      exact never_draft_again hallowed
    · exact hstatus
  | assigned a g e hg hquiet h =>
    subst h
    refine kept_of_same hkept hkept.campaignIds hopened rfl (recordings_quiet hquiet) rfl
      fun i => ?_
    rcases hg i with hi | hi <;> rw [hi] <;> exact ⟨rfl,rfl,rfl,rfl,rfl⟩
  | revoked g e hg hquiet h =>
    subst h
    exact kept_of_same hkept hkept.campaignIds hopened rfl (recordings_quiet hquiet)
      (List.map_id _).symm hself
  | answered items h => exact answersAll_kept h hkept
  | proposed p e hquiet h =>
    subst h
    exact kept_of_same hkept hkept.campaignIds hopened rfl (recordings_quiet hquiet)
      (List.map_id _).symm hself

/-! ### What stays frozen -/

/-- What generation froze for a campaign. -/
def frozenItems (campaignId : Uuid) (db : Store) : List (Uuid × DraftItem × UtcMoment) :=
  (db.items.filter (·.campaignId = campaignId)).map fun i => (i.itemId,i.frozen,i.createdAt)

/-- A campaign that is no longer a draft keeps its items, does not become a
draft again, and stays closed or canceled once it is. -/
def Keeps (db db' : Store) : Prop :=
  ∀ c ∈ db.campaigns, c.status ≠ .draft →
    frozenItems c.campaignId db' = frozenItems c.campaignId db ∧
      ∃ c' ∈ db'.campaigns, c'.campaignId = c.campaignId ∧ c'.status ≠ .draft ∧
        (c.status = .closed ∨ c.status = .canceled → c'.status = c.status)

theorem keeps_refl (db : Store) : Keeps db db :=
  fun c hc hstatus => ⟨rfl,c,hc,rfl,hstatus,fun _ => rfl⟩

theorem keeps_trans {db'' : Store} (h : Keeps db db') (h' : Keeps db' db'') : Keeps db db'' := by
  intro c hc hstatus
  obtain ⟨hfrozen,c',hc',hid,hstatus',hended⟩ := h c hc hstatus
  obtain ⟨hfrozen',c'',hc'',hid',hstatus'',hended'⟩ := h' c' hc' hstatus'
  rw [hid] at hfrozen' hid'
  refine ⟨hfrozen'.trans hfrozen,c'',hc'',hid',hstatus'',fun hend => ?_⟩
  have hsame := hended hend
  rw [← hsame] at hend ⊢
  exact hended' hend

/-- What was frozen is read past what the calls may change of an item. -/
theorem frozenItems_map {g : ReviewItem → ReviewItem} (hitems : db'.items = db.items.map g)
    (hg : ∀ i, (g i).itemId = i.itemId ∧ (g i).campaignId = i.campaignId ∧
      (g i).frozen = i.frozen ∧ (g i).createdAt = i.createdAt) (campaignId : Uuid) :
    frozenItems campaignId db' = frozenItems campaignId db := by
  have hpulled : (fun i : ReviewItem => decide (i.campaignId = campaignId)) ∘ g =
      fun i => decide (i.campaignId = campaignId) := by
    funext i
    simp only [Function.comp_apply, (hg i).2.1]
  unfold frozenItems
  rw [hitems, List.filter_map, hpulled, List.map_map]
  apply List.map_congr_left
  intro i hi
  obtain ⟨hid,-,hfrozen,hcreated⟩ := hg i
  simp only [Function.comp_apply, hid, hfrozen, hcreated]

theorem keeps_of_same {g : ReviewItem → ReviewItem} (hcampaigns : db'.campaigns = db.campaigns)
    (hitems : db'.items = db.items.map g)
    (hg : ∀ i, (g i).itemId = i.itemId ∧ (g i).campaignId = i.campaignId ∧
      (g i).frozen = i.frozen ∧ (g i).createdAt = i.createdAt) : Keeps db db' := by
  intro c hc hstatus
  rw [hcampaigns]
  exact ⟨frozenItems_map hitems hg _,c,hc,rfl,hstatus,fun _ => rfl⟩

theorem effect_keeps (h : Effect subject db db') (hkept : WellKept db) : Keeps db db' := by
  have hself : ∀ i : ReviewItem, (id i).itemId = i.itemId ∧ (id i).campaignId = i.campaignId ∧
      (id i).frozen = i.frozen ∧ (id i).createdAt = i.createdAt := fun i => ⟨rfl,rfl,rfl,rfl⟩
  cases h with
  | created campaign e hdraft hfresh hquiet h =>
    subst h
    exact fun c hc hstatus => ⟨rfl,c,List.mem_append_left _ hc,rfl,hstatus,fun _ => rfl⟩
  | generated campaignId rows f e hdraft hrows hnodup hnew hf hquiet h =>
    subst h
    intro c hc hstatus
    have hother : c.campaignId ≠ campaignId := fun heq => hstatus (hdraft c hc heq)
    refine ⟨?_,f c,List.mem_map_of_mem hc,(hf c).1,by rw [(hf c).2]; exact hstatus,
      fun _ => (hf c).2⟩
    have hrest : (db.items.filter fun i => decide (i.campaignId ≠ campaignId)).filter
        (fun i => decide (i.campaignId = c.campaignId)) =
        db.items.filter fun i => decide (i.campaignId = c.campaignId) := by
      rw [List.filter_filter]
      apply List.filter_congr
      intro i hi
      by_cases hin : i.campaignId = c.campaignId <;> simp [hin, hother]
    have hnone : rows.filter (fun i => decide (i.campaignId = c.campaignId)) = [] := by
      apply List.filter_eq_nil_iff.mpr
      intro i hi
      rw [(hrows i hi).1]
      simpa using Ne.symm hother
    unfold frozenItems
    rw [List.filter_append, hrest, hnone, List.append_nil]
  | moved campaignId status f e hallowed hf hquiet h =>
    subst h
    intro c hc hstatus
    refine ⟨rfl,_,List.mem_map_of_mem hc,?_⟩
    obtain ⟨x,hx,hid,hallowed⟩ := hallowed
    split
    · next hmoved =>
      have hsame : x = c :=
        List.inj_on_of_nodup_map hkept.campaignIds hx hc (hid.trans hmoved.symm)
      rw [hsame] at hallowed
      refine ⟨(hf c).1,?_,?_⟩
      · rw [(hf c).2]
        exact never_draft_again hallowed
      · rintro (hend | hend) <;> rw [hend] at hallowed <;> exact nomatch hallowed
    · exact ⟨rfl,hstatus,fun _ => rfl⟩
  | assigned a g e hg hquiet h =>
    subst h
    refine keeps_of_same rfl rfl fun i => ?_
    rcases hg i with hi | hi <;> rw [hi] <;> exact ⟨rfl,rfl,rfl,rfl⟩
  | revoked g e hg hquiet h =>
    subst h
    exact keeps_of_same rfl (List.map_id _).symm hself
  | answered items h =>
    induction h with
    | none db => exact keeps_refl db
    | next first others ih =>
      obtain ⟨stamp,hitems⟩ := first.items
      refine keeps_trans (keeps_of_same first.campaigns hitems fun i => ?_)
        (ih (answers_kept first hkept))
      obtain ⟨hid,hcampaign,hfrozen,hcreated,-⟩ := decidedRow_keeps _ _ stamp i
      exact ⟨hid,hcampaign,hfrozen,hcreated⟩
  | proposed p e hquiet h =>
    subst h
    exact keeps_of_same rfl (List.map_id _).symm hself

end Steps

/-! ### Who recorded a decision -/

/-- A decision as it was written, before anything superseded it. -/
def asRecorded (d : ReviewDecision) : ReviewDecision :=
  { d with supersededAt := none, supersededByDecisionId := none }

/-- A call recorded a decision: it was not there before the call, and is after
it; who made the call was asked for the item, and the campaign was open. -/
structure RecordedBy (c : ServiceCall) (db db' : Store) (d : ReviewDecision) : Prop where
  new : ∀ x ∈ db.decisions, x.decisionId ≠ d.decisionId
  written : ∃ x ∈ db'.decisions, asRecorded x = asRecorded d
  byActor : d.decidedBySubject = c.actor.subject
  entitled : Entitled db d.decidedBySubject d.itemId d.campaignId

section Recording
variable {subject : String} {db db' : Store}

theorem asRecorded_same {x d : ReviewDecision} (h : asRecorded x = asRecorded d) :
    x.decisionId = d.decisionId ∧ x.itemId = d.itemId ∧ x.campaignId = d.campaignId ∧
      x.decidedBySubject = d.decidedBySubject := by
  simp only [asRecorded, ReviewDecision.mk.injEq] at h
  exact ⟨h.1,h.2.1,h.2.2.1,h.2.2.2.2.2.1⟩

theorem asRecorded_mark (item : ReviewItem) (moment : UtcMoment) (record d : ReviewDecision) :
    asRecorded (mark item moment record d) = asRecorded d := by
  unfold mark
  split <;> rfl

/-- Who is asked after an answer was asked before it. -/
theorem entitled_back {item : ReviewItem} {record : ReviewDecision} {itemId campaignId : Uuid}
    (h : Answers subject item record db db') (hafter : Entitled db' subject itemId campaignId) :
    Entitled db subject itemId campaignId := by
  obtain ⟨⟨i,hi,hid,hcampaign,id,a,hassigned,ha,hstanding⟩,haccepting⟩ := hafter
  obtain ⟨stamp,hitems⟩ := h.items
  rw [hitems] at hi
  obtain ⟨j,hj,rfl⟩ := List.mem_map.mp hi
  obtain ⟨hkid,hkcampaign,-,-,hkassigned⟩ :=
    decidedRow_keeps item.itemId record.decisionId stamp j
  rw [h.campaigns] at haccepting
  have hrow : assignmentRow id db = some a := by
    rw [← ha]
    unfold assignmentRow
    rw [h.assignments]
  exact ⟨⟨j,hj,hkid.symm.trans hid,hkcampaign.symm.trans hcampaign,id,a,
    hkassigned.symm.trans hassigned,hrow,hstanding⟩,haccepting⟩

/-- A decision after a call was there before it, or who made the call recorded it. -/
theorem answersAll_recorded {items : List ReviewItem} (h : AnswersAll subject items db db')
    {d : ReviewDecision} (hd : d ∈ db'.decisions) :
    (∃ x ∈ db.decisions, asRecorded x = asRecorded d) ∨
      (∀ x ∈ db.decisions, x.decisionId ≠ d.decisionId) ∧ d.decidedBySubject = subject ∧
        Entitled db subject d.itemId d.campaignId := by
  induction h with
  | none db => exact .inl ⟨d,hd,rfl⟩
  | @next item rest record db mid db' first others ih =>
    obtain ⟨moment,hdecisions⟩ := first.decisions
    have hdecisions : mid.decisions = db.decisions.map (mark item moment record) ++ [record] :=
      hdecisions
    rcases ih hd with ⟨x,hx,hsame⟩ | ⟨hnew,hsubject,hentitled⟩
    · rw [hdecisions] at hx
      rcases List.mem_append.mp hx with hold | hrecord
      · obtain ⟨y,hy,rfl⟩ := List.mem_map.mp hold
        exact .inl ⟨y,hy,(asRecorded_mark item moment record y).symm.trans hsame⟩
      · rw [List.mem_singleton.mp hrecord] at hsame
        obtain ⟨hid,hitem,hcampaign,hby⟩ := asRecorded_same hsame
        refine .inr ⟨fun y hy => hid ▸ first.fresh y hy,hby.symm.trans first.bySubject,?_⟩
        rw [← hitem, ← hcampaign, first.onItem, first.onCampaign]
        exact first.entitled
    · refine .inr ⟨fun y hy => ?_,hsubject,entitled_back first hentitled⟩
      have hmid : mark item moment record y ∈ mid.decisions := by
        rw [hdecisions]
        exact List.mem_append_left _ (List.mem_map_of_mem hy)
      exact (mark_keeps item moment record y).1 ▸ hnew _ hmid

theorem effect_recorded (h : Effect subject db db') {d : ReviewDecision}
    (hd : d ∈ db'.decisions) :
    (∃ x ∈ db.decisions, asRecorded x = asRecorded d) ∨
      (∀ x ∈ db.decisions, x.decisionId ≠ d.decisionId) ∧ d.decidedBySubject = subject ∧
        Entitled db subject d.itemId d.campaignId := by
  cases h with
  | created campaign e hdraft hfresh hquiet h =>
    subst h
    exact .inl ⟨d,hd,rfl⟩
  | generated campaignId rows f e hdraft hrows hnodup hnew hf hquiet h =>
    subst h
    exact .inl ⟨d,hd,rfl⟩
  | moved campaignId status f e hallowed hf hquiet h =>
    subst h
    exact .inl ⟨d,hd,rfl⟩
  | assigned a g e hg hquiet h =>
    subst h
    exact .inl ⟨d,hd,rfl⟩
  | revoked g e hg hquiet h =>
    subst h
    exact .inl ⟨d,hd,rfl⟩
  | answered items h => exact answersAll_recorded h hd
  | proposed p e hquiet h =>
    subst h
    exact .inl ⟨d,hd,rfl⟩

end Recording

/-! ### Runs -/

section Runs
variable (casefold sha256 : String → String)

/-- A call is refused and changes nothing, or it answers and had its effect. -/
theorem serve_cases {db : Store} (hkept : WellKept db) (c : ServiceCall) :
    (∃ e, serve casefold sha256 c db = (.error e,db)) ∨
      ∃ a db', serve casefold sha256 c db = (.ok a,db') ∧ Effect c.actor.subject db db' := by
  unfold serve
  cases hbody : (program casefold sha256 c).alone db with
  | error e => exact .inl ⟨e,perform_of_refused hbody⟩
  | ok r =>
    obtain ⟨heffect,a,ha⟩ := program_effect hkept hbody
    refine .inr ⟨a,r.2,?_,heffect⟩
    rw [perform_of_committed hbody]
    exact congrArg (·,r.2) ha

theorem afterAll_snoc (calls : List ServiceCall) (c : ServiceCall) :
    afterAll casefold sha256 (calls ++ [c]) =
      (serve casefold sha256 c (afterAll casefold sha256 calls)).2 := by
  simp only [afterAll, List.foldl_append, List.foldl_cons, List.foldl_nil]

theorem kept_afterAll (calls : List ServiceCall) : WellKept (afterAll casefold sha256 calls) := by
  induction calls using List.reverseRecOn with
  | nil => exact blank_kept
  | append_singleton calls c ih =>
    rw [afterAll_snoc]
    rcases serve_cases casefold sha256 ih c with
      ⟨e,h⟩ | ⟨a,db',h,heffect⟩
    · rw [h]
      exact ih
    · rw [h]
      exact effect_kept heffect ih

theorem keeps_afterAll (earlier later : List ServiceCall) :
    Keeps (afterAll casefold sha256 earlier) (afterAll casefold sha256 (earlier ++ later)) := by
  induction later using List.reverseRecOn with
  | nil =>
    rw [List.append_nil]
    exact keeps_refl _
  | append_singleton later c ih =>
    rw [← List.append_assoc, afterAll_snoc]
    have hkept := kept_afterAll casefold sha256 (earlier ++ later)
    rcases serve_cases casefold sha256 hkept c with
      ⟨e,h⟩ | ⟨a,db',h,heffect⟩
    · rw [h]
      exact ih
    · rw [h]
      exact keeps_trans ih (effect_keeps heffect hkept)

/-- Every decision of a run was recorded by one of its calls. -/
theorem recorded_afterAll (calls : List ServiceCall) {d : ReviewDecision}
    (hd : d ∈ (afterAll casefold sha256 calls).decisions) :
    ∃ earlier c later, calls = earlier ++ c :: later ∧
      RecordedBy c (afterAll casefold sha256 earlier)
        (afterAll casefold sha256 (earlier ++ [c])) d := by
  induction calls using List.reverseRecOn generalizing d with
  | nil => exact nomatch hd
  | append_singleton calls c ih =>
    have hkept := kept_afterAll casefold sha256 calls
    have hthere : (∃ x ∈ (afterAll casefold sha256 calls).decisions, asRecorded x = asRecorded d) →
        ∃ earlier c' later, calls ++ [c] = earlier ++ c' :: later ∧
          RecordedBy c' (afterAll casefold sha256 earlier)
            (afterAll casefold sha256 (earlier ++ [c'])) d := by
      intro ⟨x,hx,hsame⟩
      obtain ⟨earlier,c',later,hcalls,hnew,⟨y,hy,hwritten⟩,hby,hentitled⟩ := ih hx
      obtain ⟨hid,hitem,hcampaign,hsubject⟩ := asRecorded_same hsame
      rw [hitem, hcampaign, hsubject] at hentitled
      exact ⟨earlier,c',later ++ [c],by rw [hcalls, List.append_assoc, List.cons_append],
        fun z hz => hid ▸ hnew z hz,⟨y,hy,hwritten.trans hsame⟩,hsubject ▸ hby,hentitled⟩
    have hstep := afterAll_snoc casefold sha256 calls c
    rcases serve_cases casefold sha256 hkept c with
      ⟨e,h⟩ | ⟨a,db',h,heffect⟩
    · rw [hstep, h] at hd
      exact hthere ⟨d,hd,rfl⟩
    · rw [h] at hstep
      have hafter : d ∈ db'.decisions := by
        rw [hstep] at hd
        exact hd
      rcases effect_recorded heffect hafter with hold | ⟨hnew,hby,hentitled⟩
      · exact hthere hold
      · refine ⟨calls,c,[],rfl,hnew,⟨d,hd,rfl⟩,hby,?_⟩
        rw [hby]
        exact hentitled

/-! ### The record -/

/-- An item and its decisions: at most one is current, the item says whether
there is one and which, and they are read back as one list of supersessions. -/
structure ItemInOrder (db : Store) (item : ReviewItem) : Prop where
  one : (currentDecisions item.itemId db).length ≤ 1
  decided : item.status = .decided ↔ currentDecisions item.itemId db ≠ []
  pointer : item.currentDecisionId = (currentDecisions item.itemId db).head?.map (·.decisionId)
  chain : Superseding none (decisionsForItem item.itemId db)
  whole : (decisionsForItem item.itemId db).Perm (decisionsOn item.itemId db)

/-- The trail has one event that records a decision, and it carries the digest
of the evidence of its item. -/
def RecordedOnce (db : Store) (d : ReviewDecision) : Prop :=
  ∃ e, (db.events.filter fun e =>
      e.eventType = .decisionRecorded && e.decisionId = some d.decisionId) = [e] ∧
    ∃ item ∈ db.items, item.itemId = d.itemId ∧
      e.payload.lookup "evidence_digest" = some (.text item.frozen.digest)

section Reading
variable {db : Store}

theorem currentDecisions_eq (hkept : WellKept db) (itemId : Uuid) :
    currentDecisions itemId db = (decisionsOn itemId db).getLast?.toList := by
  rw [← (hkept.chains itemId).current]
  unfold currentDecisions decisionsOn
  rw [List.filter_filter]
  apply List.filter_congr
  intro d hd
  rw [Bool.and_comm]

theorem decisionsForItem_eq (hkept : WellKept db) (itemId : Uuid) :
    decisionsForItem itemId db = decisionsOn itemId db := by
  apply inLinkOrder_eq (hkept.chains itemId).linked
  · exact hkept.decisionIds.sublist (List.filter_sublist.map _)
  · exact sortedBy_perm _ _

theorem item_inOrder (hkept : WellKept db) {item : ReviewItem} (hitem : item ∈ db.items) :
    ItemInOrder db item := by
  have hcurrent := currentDecisions_eq hkept item.itemId
  have hpointed := hkept.pointed item hitem
  constructor
  case one =>
    rw [hcurrent]
    cases (decisionsOn item.itemId db).getLast? <;> simp
  case decided =>
    rw [hkept.answered item hitem, hpointed, hcurrent]
    cases (decisionsOn item.itemId db).getLast? <;> simp
  case pointer =>
    rw [hpointed, hcurrent]
    cases (decisionsOn item.itemId db).getLast? <;> rfl
  case chain =>
    rw [decisionsForItem_eq hkept]
    exact hkept.chains item.itemId
  case whole =>
    rw [decisionsForItem_eq hkept]

/-- Where rows pair off with keyed rows, one row has a key. -/
theorem paired_once {α β κ : Type} [DecidableEq κ] {R : α → β → Prop} {f : α → κ} {g : β → κ}
    {l : List α} {m : List β} (h : List.Forall₂ R l m) (hR : ∀ a b, R a b → f a = g b)
    (hkeys : (m.map g).Nodup) {b : β} (hb : b ∈ m) :
    ∃ a, (l.filter fun a => decide (f a = g b)) = [a] ∧ R a b := by
  have habsent : ∀ {l : List α} {m : List β}, List.Forall₂ R l m → g b ∉ m.map g →
      (l.filter fun a => decide (f a = g b)) = [] := by
    intro l m h hb
    induction h with
    | nil => rfl
    | @cons a c l m hac h ih =>
      rw [List.map_cons, List.mem_cons, not_or] at hb
      rw [List.filter_cons_of_neg (by simpa [hR a c hac] using Ne.symm hb.1), ih hb.2]
  induction h with
  | nil => exact nomatch hb
  | @cons a c l m hac h ih =>
    rw [List.map_cons, List.nodup_cons] at hkeys
    rcases List.mem_cons.mp hb with rfl | hrest
    · rw [List.filter_cons_of_pos (by simpa using hR a b hac), habsent h hkeys.1]
      exact ⟨a,rfl,hac⟩
    · have hother : f a ≠ g b := by
        rw [hR a c hac]
        intro heq
        exact hkeys.1 (heq ▸ List.mem_map_of_mem hrest)
      rw [List.filter_cons_of_neg (by simpa using hother)]
      exact ih hkeys.2 hrest

theorem recordedOnce (hkept : WellKept db) {d : ReviewDecision} (hd : d ∈ db.decisions) :
    RecordedOnce db d := by
  have hkeys : (db.decisions.map fun d => some d.decisionId).Nodup := by
    have hinj := hkept.decisionIds.map (Option.some_injective Uuid)
    rw [List.map_map] at hinj
    exact hinj
  obtain ⟨e,hone,hrecords⟩ := paired_once hkept.trail (f := (·.decisionId))
    (fun e d hrec => hrec.1) hkeys hd
  obtain ⟨item,hitem,hid,-⟩ := hkept.placed d hd
  refine ⟨e,?_,item,hitem,hid,hrecords.2.2 item hitem hid⟩
  rw [← hone]
  unfold recordings
  rw [List.filter_filter]
  apply List.filter_congr
  intro x hx
  rw [Bool.and_comm]

end Reading

/-- Over every run of calls, each refused or not, the items and their decisions
are in order, every decision was recorded once, by who was asked for it while
its campaign was open, a campaign that was opened keeps its items and does not
leave its end, and a call that is refused changes nothing. -/
theorem campaign_record_well_formed (calls : List ServiceCall) :
    (∀ item ∈ (afterAll casefold sha256 calls).items,
      ItemInOrder (afterAll casefold sha256 calls) item) ∧
    (∀ d ∈ (afterAll casefold sha256 calls).decisions,
      RecordedOnce (afterAll casefold sha256 calls) d ∧
        ∃ earlier c later, calls = earlier ++ c :: later ∧
          RecordedBy c (afterAll casefold sha256 earlier)
            (afterAll casefold sha256 (earlier ++ [c])) d) ∧
    (∀ earlier later, calls = earlier ++ later →
      Keeps (afterAll casefold sha256 earlier) (afterAll casefold sha256 calls)) ∧
    ∀ c e, (serve casefold sha256 c (afterAll casefold sha256 calls)).1 = .error e →
      (serve casefold sha256 c (afterAll casefold sha256 calls)).2 =
        afterAll casefold sha256 calls := by
  have hkept := kept_afterAll casefold sha256 calls
  refine ⟨fun item hitem => item_inOrder hkept hitem,fun d hd => ⟨recordedOnce hkept hd,?_⟩,?_,?_⟩
  · exact recorded_afterAll casefold sha256 calls hd
  · rintro earlier later rfl
    exact keeps_afterAll casefold sha256 earlier later
  · intro c e hrefused
    rcases serve_cases casefold sha256 hkept c with ⟨e',h⟩ | ⟨a,db',h,-⟩
    · rw [h]
    · rw [h] at hrefused
      exact nomatch hrefused

end Runs

end Adg.CampaignRecord
