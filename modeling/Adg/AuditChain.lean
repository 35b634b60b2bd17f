import Adg.CanonicalJson

/-!
# The audit chain

Every governance act appends one event to its chain. An event carries the
digest of the one before it, and its own digest is taken over its content and
that link. The digest of the newest event therefore stands for the whole
chain before it.
-/

set_option autoImplicit false

namespace Adg.AuditChain
open Adg.CanonicalJson Adg.SortedLists

inductive GovernanceEventType where
  | campaignCreated
  | campaignGenerated
  | campaignActivated
  | campaignClosed
  | campaignCanceled
  | reviewerAssigned
  | reviewerRevoked
  | decisionRecorded
  | decisionSuperseded
  | remediationProposed
  | remediationWithdrawn
  | ownerAssigned
  | ownerRevoked
  | planCreated
  | planSimulated
  | planSubmitted
  | planApproved
  | planRejected
  | planExported
  | planInvalidated
  | planCanceled
  deriving DecidableEq, Repr

def GovernanceEventType.value : GovernanceEventType → String
  | .campaignCreated => "campaign.created"
  | .campaignGenerated => "campaign.generated"
  | .campaignActivated => "campaign.activated"
  | .campaignClosed => "campaign.closed"
  | .campaignCanceled => "campaign.canceled"
  | .reviewerAssigned => "reviewer.assigned"
  | .reviewerRevoked => "reviewer.revoked"
  | .decisionRecorded => "decision.recorded"
  | .decisionSuperseded => "decision.superseded"
  | .remediationProposed => "remediation.proposed"
  | .remediationWithdrawn => "remediation.withdrawn"
  | .ownerAssigned => "owner.assigned"
  | .ownerRevoked => "owner.revoked"
  | .planCreated => "plan.created"
  | .planSimulated => "plan.simulated"
  | .planSubmitted => "plan.submitted"
  | .planApproved => "plan.approved"
  | .planRejected => "plan.rejected"
  | .planExported => "plan.exported"
  | .planInvalidated => "plan.invalidated"
  | .planCanceled => "plan.canceled"

/-- An aware `datetime` brought to UTC. -/
structure UtcMoment where
  year : ℕ
  month : ℕ
  day : ℕ
  hour : ℕ
  minute : ℕ
  second : ℕ
  microsecond : ℕ
  calendar : year < 10^4 ∧ month < 10^2 ∧ day < 10^2
  clock : hour < 10^2 ∧ minute < 10^2 ∧ second < 10^2 ∧ microsecond < 10^6
  deriving DecidableEq

/-- A number behind as many zeros as its width asks for. -/
def padded (width n : ℕ) : List Char :=
  List.replicate (width-(Nat.toDigits 10 n).length) '0' ++ Nat.toDigits 10 n

/-- `isoformat(timespec="microseconds")`. -/
def UtcMoment.isoformat (m : UtcMoment) : String :=
  String.ofList (padded 4 m.year ++ '-' :: (padded 2 m.month ++ '-' :: (padded 2 m.day ++ 'T' ::
    (padded 2 m.hour ++ ':' :: (padded 2 m.minute ++ ':' :: (padded 2 m.second ++ '.' ::
      (padded 6 m.microsecond ++ ['+', '0', '0', ':', '0', '0'])))))))

theorem padded_length {width n : ℕ} (hw : 0 < width) (h : n < 10^width) :
    (padded width n).length = width := by
  have := (Nat.length_toDigits_le_iff (b := 10) (by decide) hw).mpr h
  simp only [padded, List.length_append, List.length_replicate]
  omega

theorem padded_injective (width : ℕ) : Function.Injective (padded width) := by
  intro m n h
  have hread : ∀ k, Nat.ofDigitChars 10 (padded width k) 0 = k := by
    intro k
    rw [padded, Nat.ofDigitChars_append, Nat.ofDigitChars_replicate_zero, Nat.mul_zero,
      Nat.ofDigitChars_ten_toDigits]
  rw [← hread m, h, hread]

/-- The two leading numbers of two texts agree, and so does what follows them. -/
theorem padded_cancel {width m n : ℕ} {c : Char} {s t : List Char} (hw : 0 < width)
    (hm : m < 10^width) (hn : n < 10^width)
    (h : padded width m ++ c :: s = padded width n ++ c :: t) : m = n ∧ s = t := by
  obtain ⟨hpad,hrest⟩ := List.append_inj h (by rw [padded_length hw hm, padded_length hw hn])
  exact ⟨padded_injective width hpad,(List.cons.inj hrest).2⟩

theorem isoformat_injective : Function.Injective UtcMoment.isoformat := by
  rintro ⟨y,mo,d,h,mi,s,u,hc,hk⟩ ⟨y',mo',d',h',mi',s',u',hc',hk'⟩ heq
  have hyear := congrArg String.toList heq
  simp only [UtcMoment.isoformat, String.toList_ofList] at hyear
  obtain ⟨rfl,hmonth⟩ := padded_cancel (by decide) hc.1 hc'.1 hyear
  obtain ⟨rfl,hday⟩ := padded_cancel (by decide) hc.2.1 hc'.2.1 hmonth
  obtain ⟨rfl,hhour⟩ := padded_cancel (by decide) hc.2.2 hc'.2.2 hday
  obtain ⟨rfl,hminute⟩ := padded_cancel (by decide) hk.1 hk'.1 hhour
  obtain ⟨rfl,hsecond⟩ := padded_cancel (by decide) hk.2.1 hk'.2.1 hminute
  obtain ⟨rfl,hmicro⟩ := padded_cancel (by decide) hk.2.2.1 hk'.2.2.1 hsecond
  obtain ⟨rfl,-⟩ := padded_cancel (by decide) hk.2.2.2 hk'.2.2.2 hmicro
  rfl

/-- The text of a UUID. -/
abbrev Uuid := String

structure GovernanceEvent where
  eventId : Uuid
  chainKey : String
  chainIndex : ℤ
  eventType : GovernanceEventType
  occurredAt : UtcMoment
  actorSubject : String
  actorDisplayName : Option String
  actorRoles : List String
  campaignId : Option Uuid
  itemId : Option Uuid
  decisionId : Option Uuid
  payload : List (String × Json)
  previousDigest : Option String
  digest : String

def optionalText : Option String → Json
  | none => .null
  | some s => .text s

def sortedRoles (roles : List String) : List String := sortedBy id roles

/-- What `event_digest` hashes. The display name is left out. -/
def material (e : GovernanceEvent) : List (String × Json) :=
  [("chain_key",.text e.chainKey),
    ("chain_index",.whole e.chainIndex),
    ("event_type",.text e.eventType.value),
    ("occurred_at",.text e.occurredAt.isoformat),
    ("actor_subject",.text e.actorSubject),
    ("actor_roles",.array ((sortedRoles e.actorRoles).map .text)),
    ("campaign_id",optionalText e.campaignId),
    ("item_id",optionalText e.itemId),
    ("decision_id",optionalText e.decisionId),
    ("payload",.object e.payload),
    ("previous_digest",optionalText e.previousDigest)]

inductive Breakage where
  | gap (position : ℕ)
  | link (found expected : Option String)
  | content
  deriving DecidableEq, Repr

structure ChainVerification where
  chainKey : String
  length : ℕ
  intact : Bool
  headDigest : Option String
  brokenAt : Option ℤ
  reason : Option Breakage
  deriving DecidableEq, Repr

section Digests
variable (sha256 : String → String)

/-- `digest_of`: the digest of an event's own content. -/
def digestOf (e : GovernanceEvent) : String := sha256 (canonical (.object (material e)))

/-- The first place where the walk along a chain breaks, and how. -/
def firstBreak : ℕ → Option GovernanceEvent → List GovernanceEvent → Option (ℤ × Breakage)
  | _, _, [] => none
  | position, previous, e :: es =>
    if e.chainIndex ≠ position then some (e.chainIndex,.gap position)
    else if e.previousDigest ≠ previous.map (·.digest) then
      some (e.chainIndex,.link e.previousDigest (previous.map (·.digest)))
    else if digestOf sha256 e ≠ e.digest then some (e.chainIndex,.content)
    else firstBreak (position+1) (some e) es

def inChainOrder (events : List GovernanceEvent) : List GovernanceEvent :=
  sortedBy GovernanceEvent.chainIndex events

def verifyChain (events : List GovernanceEvent) : ChainVerification :=
  match inChainOrder events with
  | [] => ⟨"",0,true,none,none,none⟩
  | first :: rest =>
    let head := ((first :: rest).getLast?).map (·.digest)
    match firstBreak sha256 0 none (first :: rest) with
    | none => ⟨first.chainKey,(first :: rest).length,true,head,none,none⟩
    | some (index,reason) =>
      ⟨first.chainKey,(first :: rest).length,false,head,some index,some reason⟩

/-- What a caller of `append_event` supplies. -/
structure Entry where
  eventId : Uuid
  chainKey : String
  eventType : GovernanceEventType
  occurredAt : UtcMoment
  actorSubject : String
  actorDisplayName : Option String
  actorRoles : List String
  campaignId : Option Uuid := none
  itemId : Option Uuid := none
  decisionId : Option Uuid := none
  payload : List (String × Json) := []

def chainOf (table : List GovernanceEvent) (chainKey : String) : List GovernanceEvent :=
  table.filter (·.chainKey = chainKey)

/-- The newest event of a chain, as `append_event` reads it. -/
def chainHead (table : List GovernanceEvent) (chainKey : String) : Option GovernanceEvent :=
  (sortedBy (fun e => OrderDual.toDual e.chainIndex) (chainOf table chainKey)).head?

def Entry.event (entry : Entry) (head : Option GovernanceEvent) : GovernanceEvent :=
  let unsigned : GovernanceEvent :=
    { eventId := entry.eventId
      chainKey := entry.chainKey
      chainIndex := match head with
        | none => 0
        | some e => e.chainIndex+1
      eventType := entry.eventType
      occurredAt := entry.occurredAt
      actorSubject := entry.actorSubject
      actorDisplayName := entry.actorDisplayName
      actorRoles := sortedRoles entry.actorRoles
      campaignId := entry.campaignId
      itemId := entry.itemId
      decisionId := entry.decisionId
      payload := entry.payload
      previousDigest := head.map (·.digest)
      digest := "" }
  { unsigned with digest := digestOf sha256 unsigned }

/-- `append_event`. -/
def appendEvent (table : List GovernanceEvent) (entry : Entry) : List GovernanceEvent :=
  table ++ [entry.event sha256 (chainHead table entry.chainKey)]

def appendAll (table : List GovernanceEvent) (entries : List Entry) : List GovernanceEvent :=
  entries.foldl (appendEvent sha256) table

end Digests

/-- What two events with one digest have in common. -/
structure Agrees (e o : GovernanceEvent) : Prop where
  chainKey : e.chainKey = o.chainKey
  chainIndex : e.chainIndex = o.chainIndex
  eventType : e.eventType = o.eventType
  occurredAt : e.occurredAt = o.occurredAt
  actorSubject : e.actorSubject = o.actorSubject
  actorRoles : ∀ role, role ∈ e.actorRoles ↔ role ∈ o.actorRoles
  campaignId : e.campaignId = o.campaignId
  itemId : e.itemId = o.itemId
  decisionId : e.decisionId = o.decisionId
  payload : Same (.object e.payload) (.object o.payload)
  previousDigest : e.previousDigest = o.previousDigest

section Content

theorem value_injective : Function.Injective GovernanceEventType.value := by
  intro a b h
  cases a <;> cases b <;> first | rfl | (revert h; decide)

theorem Same.text_eq {a b : String} (h : Same (.text a) (.text b)) : a = b := by
  simpa [Same, sortKeys] using h

theorem Same.whole_eq {a b : ℤ} (h : Same (.whole a) (.whole b)) : a = b := by
  simpa [Same, sortKeys] using h

theorem Same.optional_eq {a b : Option String} (h : Same (optionalText a) (optionalText b)) :
    a = b := by
  cases a <;> cases b <;> simp_all [Same, sortKeys, optionalText]

theorem Same.roles_iff {a b : List String}
    (h : Same (.array ((sortedRoles a).map .text)) (.array ((sortedRoles b).map .text)))
    (role : String) : role ∈ a ↔ role ∈ b := by
  have hsort : ∀ l : List String, (l.map Json.text).map sortKeys = l.map Json.text := by
    intro l
    simp [sortKeys]
  have hmap := Same.items h
  rw [hsort, hsort] at hmap
  have hinj : Function.Injective Json.text := fun _ _ h => Json.text.inj h
  have hsorted : sortedRoles a = sortedRoles b := hinj.list_map hmap
  have hmem : ∀ l : List String, role ∈ sortedRoles l ↔ role ∈ l := fun l => mem_sortedBy id
  rw [← hmem a, hsorted, hmem]

theorem material_keys (e : GovernanceEvent) : ((material e).map (·.1)).Nodup := by
  simp only [material, List.map_cons, List.map_nil]
  decide

theorem agrees_of_material {e o : GovernanceEvent}
    (h : Same (.object (material e)) (.object (material o))) : Agrees e o := by
  have hfield : ∀ {k : String} {v w : Json}, (k,v) ∈ material e → (k,w) ∈ material o → Same v w :=
    fun hv hw => h.field (material_keys o) hv hw
  exact
    { chainKey := Same.text_eq (hfield (k := "chain_key") (by simp [material]) (by simp [material]))
      chainIndex :=
        Same.whole_eq (hfield (k := "chain_index") (by simp [material]) (by simp [material]))
      eventType := value_injective
        (Same.text_eq (hfield (k := "event_type") (by simp [material]) (by simp [material])))
      occurredAt := isoformat_injective
        (Same.text_eq (hfield (k := "occurred_at") (by simp [material]) (by simp [material])))
      actorSubject :=
        Same.text_eq (hfield (k := "actor_subject") (by simp [material]) (by simp [material]))
      actorRoles :=
        Same.roles_iff (hfield (k := "actor_roles") (by simp [material]) (by simp [material]))
      campaignId :=
        Same.optional_eq (hfield (k := "campaign_id") (by simp [material]) (by simp [material]))
      itemId := Same.optional_eq (hfield (k := "item_id") (by simp [material]) (by simp [material]))
      decisionId :=
        Same.optional_eq (hfield (k := "decision_id") (by simp [material]) (by simp [material]))
      payload := hfield (k := "payload") (by simp [material]) (by simp [material])
      previousDigest :=
        Same.optional_eq (hfield (k := "previous_digest") (by simp [material]) (by simp [material])) }

theorem agrees_of_digest {sha256 : String → String} (hinj : Function.Injective sha256)
    {e o : GovernanceEvent} (h : digestOf sha256 e = digestOf sha256 o) : Agrees e o :=
  agrees_of_material (canonical_eq_iff.mp (hinj h))

end Content

section Walk
variable {sha256 : String → String}

theorem firstBreak_append {n : ℕ} {p : Option GovernanceEvent} {es : List GovernanceEvent}
    {e : GovernanceEvent} :
    firstBreak sha256 n p (es ++ [e]) = none ↔ firstBreak sha256 n p es = none ∧
      e.chainIndex = ↑(n+es.length) ∧ e.previousDigest = (es.getLast?.or p).map (·.digest) ∧
      digestOf sha256 e = e.digest := by
  induction es generalizing n p with
  | nil =>
    simp only [List.nil_append, firstBreak]
    split_ifs <;> simp_all
  | cons x es ih =>
    have hlast : ((x :: es).getLast?.or p) = es.getLast?.or (some x) := by
      cases h : es.getLast? with
      | none => rw [List.getLast?_eq_none_iff.mp h]; rfl
      | some y => simp [List.getLast?_cons, h]
    have hplace : n+(x :: es).length = n+1+es.length := by
      rw [List.length_cons]
      omega
    rw [List.cons_append, firstBreak, firstBreak, hlast, hplace]
    split_ifs <;> simp [ih]

theorem digest_walk {n : ℕ} {p : Option GovernanceEvent} {es : List GovernanceEvent}
    (h : firstBreak sha256 n p es = none) {e : GovernanceEvent} (he : e ∈ es) :
    digestOf sha256 e = e.digest := by
  induction es using List.reverseRecOn with
  | nil => cases he
  | append_singleton es x ih =>
    obtain ⟨hes,-,-,hx⟩ := firstBreak_append.mp h
    rcases List.mem_append.mp he with he | he
    · exact ih hes he
    · rw [List.mem_singleton.mp he]
      exact hx

/-- Along an unbroken chain the places count up. -/
theorem index_walk {es : List GovernanceEvent} (h : firstBreak sha256 0 none es = none) :
    (es.Pairwise fun a b => a.chainIndex < b.chainIndex) ∧ ∀ e ∈ es, e.chainIndex < es.length := by
  induction es using List.reverseRecOn with
  | nil => exact ⟨List.Pairwise.nil,by simp⟩
  | append_singleton es x ih =>
    obtain ⟨hes,hx,-,-⟩ := firstBreak_append.mp h
    obtain ⟨hsorted,hbelow⟩ := ih hes
    rw [Nat.zero_add] at hx
    constructor
    · refine List.pairwise_append.mpr ⟨hsorted,List.pairwise_singleton _ _,?_⟩
      intro a ha b hb
      rw [List.mem_singleton.mp hb, hx]
      exact hbelow a ha
    · intro e he
      rw [List.length_append, List.length_singleton]
      rcases List.mem_append.mp he with he | he
      · have := hbelow e he
        omega
      · rw [List.mem_singleton.mp he, hx]
        omega

theorem inChainOrder_of_walk {es read : List GovernanceEvent}
    (h : firstBreak sha256 0 none es = none) (hp : read.Perm es) : inChainOrder read = es :=
  sortedBy_eq_of_perm GovernanceEvent.chainIndex hp (index_walk h).1

theorem newest_of_walk {es : List GovernanceEvent} (h : firstBreak sha256 0 none es = none) :
    (sortedBy (fun e => OrderDual.toDual e.chainIndex) es).head? = es.getLast? := by
  have hdown : es.reverse.Pairwise fun a b => b.chainIndex < a.chainIndex :=
    List.pairwise_reverse.mpr (index_walk h).1
  rw [sortedBy_eq_of_perm (fun e => OrderDual.toDual e.chainIndex) es.reverse_perm.symm hdown,
    List.head?_reverse]

/-- What `verifyChain` reports of an unbroken chain. -/
theorem verifyChain_of_walk {events : List GovernanceEvent}
    (h : firstBreak sha256 0 none (inChainOrder events) = none) :
    (verifyChain sha256 events).intact = true ∧
      (verifyChain sha256 events).headDigest = (inChainOrder events).getLast?.map (·.digest) := by
  unfold verifyChain
  cases hes : inChainOrder events with
  | nil => exact ⟨rfl,rfl⟩
  | cons e es =>
    rw [hes] at h
    simp [h]

/-- Two unbroken chains with one newest digest agree all the way back. -/
theorem walks_agree (hinj : Function.Injective sha256) {es os : List GovernanceEvent}
    (he : firstBreak sha256 0 none es = none) (ho : firstBreak sha256 0 none os = none)
    (hhead : es.getLast?.map (·.digest) = os.getLast?.map (·.digest)) :
    List.Forall₂ Agrees es os := by
  induction es using List.reverseRecOn generalizing os with
  | nil =>
    have hos : os.getLast? = none := by simpa using hhead.symm
    rw [List.getLast?_eq_none_iff.mp hos]
    exact .nil
  | append_singleton es x ih =>
    obtain ⟨hes,hxi,hxp,hxd⟩ := firstBreak_append.mp he
    induction os using List.reverseRecOn with
    | nil => simp at hhead
    | append_singleton os y _ =>
      obtain ⟨hos,hyi,hyp,hyd⟩ := firstBreak_append.mp ho
      have hdigest : digestOf sha256 x = digestOf sha256 y := by
        rw [hxd, hyd]
        simpa using hhead
      have hagree := agrees_of_digest hinj hdigest
      have hlink : es.getLast?.map (·.digest) = os.getLast?.map (·.digest) := by
        rw [Option.or_none] at hxp hyp
        rw [← hxp, ← hyp, hagree.previousDigest]
      exact List.rel_append (ih hes hos hlink) (.cons hagree .nil)

end Walk

section Appending
variable (sha256 : String → String)

theorem digestOf_signed (e : GovernanceEvent) (digest : String) :
    digestOf sha256 { e with digest := digest } = digestOf sha256 e := rfl

theorem event_digest (entry : Entry) (head : Option GovernanceEvent) :
    digestOf sha256 (entry.event sha256 head) = (entry.event sha256 head).digest := by
  unfold Entry.event
  rw [digestOf_signed]

/-- Every chain of a table is unbroken. -/
def Unbroken (table : List GovernanceEvent) : Prop :=
  ∀ key, firstBreak sha256 0 none (chainOf table key) = none

variable {sha256}

/-- The next free place of an unbroken chain is its length. -/
theorem event_index {es : List GovernanceEvent} (h : firstBreak sha256 0 none es = none)
    (entry : Entry) : (entry.event sha256 es.getLast?).chainIndex = es.length := by
  induction es using List.reverseRecOn with
  | nil => rfl
  | append_singleton es x _ =>
    obtain ⟨-,hx,-,-⟩ := firstBreak_append.mp h
    have hlast : (es ++ [x]).getLast? = some x := by simp
    rw [hlast, List.length_append, List.length_singleton]
    simp [Entry.event, hx]

theorem chainOf_appendEvent (table : List GovernanceEvent) (entry : Entry) (key : String) :
    chainOf (appendEvent sha256 table entry) key =
      if entry.chainKey = key then
        chainOf table key ++ [entry.event sha256 (chainHead table entry.chainKey)]
      else chainOf table key := by
  have hown : (entry.event sha256 (chainHead table entry.chainKey)).chainKey = entry.chainKey := rfl
  unfold appendEvent
  generalize entry.event sha256 (chainHead table entry.chainKey) = e at hown
  unfold chainOf
  rw [List.filter_append]
  by_cases hkey : entry.chainKey = key <;> simp [hown, hkey]

theorem append_unbroken {table : List GovernanceEvent} (h : Unbroken sha256 table)
    (entry : Entry) : Unbroken sha256 (appendEvent sha256 table entry) := by
  intro key
  rw [chainOf_appendEvent]
  split_ifs with hkey
  · subst hkey
    have hchain := h entry.chainKey
    have hhead : chainHead table entry.chainKey = (chainOf table entry.chainKey).getLast? :=
      newest_of_walk hchain
    rw [hhead]
    refine firstBreak_append.mpr ⟨hchain,?_,?_,event_digest sha256 _ _⟩
    · rw [event_index hchain, Nat.zero_add]
    · rw [Option.or_none]
      rfl
  · exact h key

theorem appendAll_unbroken {table : List GovernanceEvent} (h : Unbroken sha256 table)
    (entries : List Entry) : Unbroken sha256 (appendAll sha256 table entries) := by
  induction entries generalizing table with
  | nil => exact h
  | cons entry entries ih => exact ih (append_unbroken h entry)

theorem nothing_unbroken : Unbroken sha256 [] := fun _ => rfl

end Appending

section Sample

theorem sample_calendar : 2026 < 10^4 ∧ 3 < 10^2 ∧ 9 < 10^2 := by decide

theorem sample_clock : 8 < 10^2 ∧ 30 < 10^2 ∧ 0 < 10^2 ∧ 125 < 10^6 := by decide

def sampleMoment : UtcMoment := ⟨2026,3,9,8,30,0,125,sample_calendar,sample_clock⟩

example : sampleMoment.isoformat = "2026-03-09T08:30:00.000125+00:00" := by decide +kernel

def created : Entry where
  eventId := "e0"
  chainKey := "campaign:7"
  eventType := .campaignCreated
  occurredAt := sampleMoment
  actorSubject := "alice"
  actorDisplayName := some "Alice"
  actorRoles := ["reviewer", "admin"]
  campaignId := some "7"
  payload := [("name",.text "Q3 \"finance\""), ("due_at",.null),
    ("scopes",.array [.text "share:fs01|finance"])]

def canceled : Entry where
  eventId := "e1"
  chainKey := "campaign:7"
  eventType := .campaignCanceled
  occurredAt := sampleMoment
  actorSubject := "alice"
  actorDisplayName := some "Alice"
  actorRoles := ["admin"]
  campaignId := some "7"
  payload := [("status",.text "canceled"), ("reason",.null)]

def createdDigest : String := "7e432a577380c702c44d0ef657d8d084d68e3c011d357b7fd505ee20507829c0"
def canceledDigest : String := "1b24b2231769cb53b0bf15cc52ce7d0a8faac8a28d3eaa22f23e62ded38a15de"

def createdDocument : String :=
  canonical (.object (material (created.event (fun _ => createdDigest) none)))

def canceledDocument : String :=
  canonical (.object (material (canceled.event (fun _ => canceledDigest)
    (created.event (fun _ => createdDigest) none))))

/-- SHA-256 on the two documents of the sample. -/
def sampleHash (text : String) : String :=
  Equiv.swap createdDocument createdDigest (Equiv.swap canceledDocument canceledDigest text)

theorem sampleHash_injective : Function.Injective sampleHash :=
  (Equiv.injective _).comp (Equiv.injective _)

end Sample

end Adg.AuditChain
