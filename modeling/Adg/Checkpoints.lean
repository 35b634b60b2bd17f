import Adg.KeyedTables
import Adg.ScopeClosure

/-!
# Job checkpoints

A cursor is read against whoever issued it. The store keeps one cursor a job,
moves it only to a cursor it can show to be no earlier, and writes down why it
refused any other.
-/

set_option autoImplicit false

namespace Adg.Checkpoints
open Adg.Observation Adg.SecurityIdentifier Adg.ObjectVersions Adg.KeyedTables Adg.ScopeClosure

inductive CollectionMode where
  | full
  | delta
  | reconcile
  deriving DecidableEq, Repr

def CollectionMode.isIncremental (m : CollectionMode) : Bool := m = .delta

inductive CheckpointKind where
  | usn
  | timestamp
  | opaqueCursor
  deriving DecidableEq, Repr

def CheckpointKind.value : CheckpointKind → String
  | .usn => "usn"
  | .timestamp => "timestamp"
  | .opaqueCursor => "opaque"

def CheckpointKind.isOrdered (k : CheckpointKind) : Bool := k ≠ .opaqueCursor

def maxCheckpointTokenLength : ℕ := 512

/-- What the standard library does with text: `str.casefold`, and
`datetime.fromisoformat` where the result is aware of its zone. -/
structure TextRules where
  casefold : String → String
  fromisoformat : String → Option Instant

/-- Text that folds to itself and holds no timestamps. -/
def asciiText : TextRules := ⟨id,fun _ => none⟩

section Cursor
variable (text : TextRules)

/-- `ordering_value`. Numbers and instants are both whole numbers here, and are
compared within one kind only. -/
def orderingValueOf (kind : CheckpointKind) (token : String) : Option ℤ :=
  let stripped := strip token.toList
  match kind with
  | .usn => (number decimalDigit 10 maxCheckpointTokenLength stripped).map Int.ofNat
  | .timestamp =>
    text.fromisoformat ("+00:00".intercalate ((stripped.splitOn 'Z').map String.ofList))
  | .opaqueCursor => none

/-- `__post_init__`, in the order the source checks. -/
def postInit (kind : CheckpointKind) (token issuer : String) : Except DomainError Unit := do
  if strip token.toList = [] then
    throw { message := "A checkpoint's token must not be empty. A cursor with no value cannot be resumed from safely, and storing one would let the next run believe it had a resume point when it has none.", field := "token" }
  if strip issuer.toList = [] then
    throw { message := "A checkpoint's issuer must not be empty. A cursor with no issuer cannot be resumed from safely, and storing one would let the next run believe it had a resume point when it has none.", field := "issuer" }
  if maxCheckpointTokenLength < token.length then
    throw { message := s!"A checkpoint token may be at most 512 characters; received {token.length}. A cursor is a resume point, not a place to keep collector state the server cannot interpret.", field := "token" }
  if kind = .usn ∧ orderingValueOf text kind token = none then
    throw { message := s!"A usn checkpoint's token must be a non-negative integer; received '{token}'. uSNChanged is a counter, and a token that does not parse as one cannot be compared to the stored watermark — so the server could neither accept nor refuse the next one on its merits.", field := "token" }
  if kind = .timestamp ∧ orderingValueOf text kind token = none then
    throw { message := s!"A timestamp checkpoint's token must be an RFC 3339 timestamp with an offset; received '{token}'.", field := "token" }

@[ext] structure Checkpoint where
  kind : CheckpointKind
  token : String
  issuer : String
  issuedAt : Instant
  valid : postInit text kind token issuer = .ok ()

instance : DecidableEq (Checkpoint text) := fun a b =>
  decidable_of_iff (a.kind = b.kind ∧ a.token = b.token ∧ a.issuer = b.issuer ∧
    a.issuedAt = b.issuedAt) Checkpoint.ext_iff.symm

end Cursor

structure CheckpointRejection where
  code : String
  message : String
  deriving DecidableEq, Repr

namespace Checkpoint
variable {text : TextRules}

def orderingValue (c : Checkpoint text) : Option ℤ := orderingValueOf text c.kind c.token

/-- What passed its check is readable on its own scale. -/
theorem orderingValue_isSome (c : Checkpoint text) (h : c.kind.isOrdered = true) :
    ∃ n, c.orderingValue = some n := by
  have hv := c.valid
  cases ho : c.orderingValue with
  | some n => exact ⟨n,rfl⟩
  | none =>
    unfold orderingValue at ho
    unfold postInit at hv
    cases hk : c.kind with
    | opaqueCursor =>
      rw [hk] at h
      cases h
    | usn =>
      rw [hk] at hv ho
      simp only [ho, and_self, if_true, bind, Except.bind, throw, throwThe, MonadExceptOf.throw,
        pure, Except.pure] at hv
      split_ifs at hv
    | timestamp =>
      rw [hk] at hv ho
      simp only [ho, and_self, if_true, bind, Except.bind, throw, throwThe, MonadExceptOf.throw,
        pure, Except.pure] at hv
      split_ifs at hv

/-- Whether two cursors are measured on the same scale. -/
def comparableTo (c other : Checkpoint text) : Bool :=
  c.kind = other.kind ∧ c.kind.isOrdered ∧ text.casefold c.issuer = text.casefold other.issuer

/-- `advances_over`: why a cursor may not replace the stored one. -/
def advancesOver (c : Checkpoint text) (previous : Option (Checkpoint text)) :
    Option CheckpointRejection :=
  match previous with
  | none => none
  | some p =>
    if ¬ c.comparableTo p then
      if c.kind ≠ p.kind then
        some ⟨"checkpoint_kind_changed",
          s!"This checkpoint is a {c.kind.value} cursor and the stored one is {p.kind.value}. The two are not measured on the same scale, so the new one cannot be shown to be ahead of the old. The next run must read its whole scope."⟩
      else if ¬ c.kind.isOrdered then none
      else some ⟨"checkpoint_issuer_changed",
        s!"This checkpoint was issued by '{c.issuer}' and the stored one by '{p.issuer}'. A {c.kind.value} cursor is local to its issuer, so the new value cannot be shown to be ahead of the old one. The next run must read its whole scope rather than resume."⟩
    else match c.orderingValue, p.orderingValue with
      | some mine, some theirs =>
        if mine < theirs then
          some ⟨"checkpoint_went_backwards",
            s!"This checkpoint ({c.token}) is behind the stored one ({p.token}) from the same issuer. Accepting it would make the next delta re-read a range already covered, or — if the source was rolled back — treat reused cursor values as new ones. The stored checkpoint is kept."⟩
        else none
      | _, _ => none

/-- A cursor of the same kind, and on an ordered scale one of the same issuer
that is no earlier. -/
def Follows (p c : Checkpoint text) : Prop :=
  c.kind = p.kind ∧ (p.kind.isOrdered = true →
    text.casefold c.issuer = text.casefold p.issuer ∧
      ∃ a b, p.orderingValue = some a ∧ c.orderingValue = some b ∧ a ≤ b)

theorem Follows.refl (c : Checkpoint text) : c.Follows c := by
  refine ⟨rfl,fun h => ⟨rfl,?_⟩⟩
  obtain ⟨n,hn⟩ := c.orderingValue_isSome h
  exact ⟨n,n,hn,hn,le_refl n⟩

theorem Follows.trans {p q c : Checkpoint text} (hpq : p.Follows q) (hqc : q.Follows c) :
    p.Follows c := by
  refine ⟨hqc.1.trans hpq.1,fun h => ?_⟩
  obtain ⟨hi,a,b,ha,hb,hab⟩ := hpq.2 h
  obtain ⟨hi',b',d,hb',hd,hbd⟩ := hqc.2 (by rw [hpq.1]; exact h)
  obtain rfl : b = b' := Option.some.inj (hb.symm.trans hb')
  exact ⟨hi'.trans hi,a,d,ha,hd,hab.trans hbd⟩

/-- What the store accepts follows what it held. -/
theorem follows_of_advances {p c : Checkpoint text} (h : c.advancesOver (some p) = none) :
    p.Follows c := by
  simp only [advancesOver] at h
  by_cases hc : c.comparableTo p = true
  · obtain ⟨hkind,hord,hissuer⟩ :
        c.kind = p.kind ∧ c.kind.isOrdered = true ∧
          text.casefold c.issuer = text.casefold p.issuer := by
      simpa [comparableTo] using hc
    refine ⟨hkind,fun hp => ⟨hissuer,?_⟩⟩
    obtain ⟨b,hb⟩ := c.orderingValue_isSome hord
    obtain ⟨a,ha⟩ := p.orderingValue_isSome hp
    refine ⟨a,b,ha,hb,?_⟩
    rw [if_neg (not_not.mpr hc), hb, ha] at h
    by_contra hlt
    have hbehind : b < a := not_le.mp hlt
    simp [hbehind] at h
  · rw [if_pos hc] at h
    by_cases hkind : c.kind = p.kind
    · rw [if_neg (not_not.mpr hkind)] at h
      by_cases hord : c.kind.isOrdered = true
      · rw [if_neg (not_not.mpr hord)] at h
        cases h
      · exact ⟨hkind,fun hp => absurd (hkind ▸ hp) hord⟩
    · rw [if_pos hkind] at h
      cases h

end Checkpoint

/-! ### The store -/

section Store
variable (text : TextRules)

/-- A job is named by its collector and its name. -/
abbrev JobKey := CollectorKind × String

structure StoredCheckpoint where
  checkpoint : Checkpoint text
  runId : Option RunId
  batchId : Option String
  collectorHost : Option String
  advancedAt : Instant
  lastRejectionCode : Option String := none
  lastRejectionMessage : Option String := none
  lastRejectedAt : Option Instant := none

/-- The cursor, and the run and batch that moved it there. -/
def StoredCheckpoint.origin {text : TextRules} (r : StoredCheckpoint text) :
    Checkpoint text × Option RunId × Option String := (r.checkpoint,r.runId,r.batchId)

structure CheckpointAdvance where
  accepted : Bool
  checkpoint : Checkpoint text
  previous : Option (Checkpoint text) := none
  rejection : Option CheckpointRejection := none

end Store

section Advance
variable {text : TextRules}

/-- `_record_rejection`. -/
def recordRejection (key : JobKey) (rejection : CheckpointRejection) (now : Instant)
    (t : KeyedTable JobKey (StoredCheckpoint text)) : KeyedTable JobKey (StoredCheckpoint text) :=
  t.update (fun k _ => k = key) fun r =>
    { r with
      lastRejectionCode := some rejection.code
      lastRejectionMessage := some rejection.message
      lastRejectedAt := some now }

/-- `CheckpointStore.advance`. -/
def advance (key : JobKey) (checkpoint : Checkpoint text) (runId : Option RunId)
    (batchId collectorHost : Option String) (now : Instant)
    (t : KeyedTable JobKey (StoredCheckpoint text)) :
    KeyedTable JobKey (StoredCheckpoint text) × CheckpointAdvance text :=
  let previous := (t.get? key).map (·.checkpoint)
  match checkpoint.advancesOver previous with
  | some rejection =>
    (recordRejection key rejection now t,
      { accepted := false
        checkpoint := checkpoint
        previous := previous
        rejection := some rejection })
  | none =>
    (t.upsert (fun _ excluded => excluded)
        (key,{ checkpoint := checkpoint
               runId := runId
               batchId := batchId
               collectorHost := collectorHost
               advancedAt := now }),
      { accepted := true
        checkpoint := checkpoint
        previous := previous })

variable {key : JobKey} {checkpoint : Checkpoint text} {runId : Option RunId}
  {batchId collectorHost : Option String} {now : Instant}
  {t : KeyedTable JobKey (StoredCheckpoint text)}

/-- What an attempt does to the cursor of a job: it stays what it was and where
it came from, or the attempt moves the job's own one to a later cursor. -/
theorem advance_cases (k : JobKey) :
    (((advance key checkpoint runId batchId collectorHost now t).1.get? k).map
        StoredCheckpoint.origin = (t.get? k).map StoredCheckpoint.origin) ∨
    (k = key ∧ ((advance key checkpoint runId batchId collectorHost now t).1.get? k).map
        StoredCheckpoint.origin = some (checkpoint,runId,batchId) ∧
      ∀ s, t.get? k = some s → s.checkpoint.Follows checkpoint) := by
  cases hadv : checkpoint.advancesOver ((t.get? key).map (·.checkpoint)) with
  | some rejection =>
    left
    simp only [advance, hadv, recordRejection]
    rw [KeyedTable.get?_update, Option.map_map]
    congr 1
    funext r
    simp only [Function.comp]
    split <;> rfl
  | none =>
    simp only [advance, hadv]
    by_cases hk : k = key
    · right
      refine ⟨hk,?_,fun s hs => ?_⟩
      · rw [KeyedTable.get?_upsert, if_pos hk]
        cases t.get? k <;> rfl
      · subst hk
        rw [hs] at hadv
        exact Checkpoint.follows_of_advances hadv
    · left
      rw [KeyedTable.get?_upsert, if_neg hk]

end Advance

end Adg.Checkpoints
