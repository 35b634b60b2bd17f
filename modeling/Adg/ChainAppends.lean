import Adg.AuditChain

/-!
# Appending to one chain from several transactions

A transaction appends its events one after the other. For each it locks the row
that is the newest to it when its statement starts, and inserts the row after
that one. A statement that waits for the lock reads the row it waited for, not
the newest row again, and a row whose place is taken is refused. Transactions
that begin to read only when no other is under way come out one behind the other.
-/

set_option autoImplicit false

namespace Adg.ChainAppends
open Adg.AuditChain

/-- Between two statements, waiting for the lock on a row, with the head that was read,
or at its end. -/
inductive Phase where
  | idle
  | waiting (row : GovernanceEvent)
  | holding (head : Option GovernanceEvent)
  | committed
  | failed

def Phase.reading : Phase → Bool
  | .waiting _ | .holding _ => true
  | .idle | .committed | .failed => false

/-- The unique constraint has refused a row. -/
def Phase.refused : Phase → Bool
  | .failed => true
  | .idle | .waiting _ | .holding _ | .committed => false

/-- A transaction: what it still has to append, its rows and the places of the rows it
has locked. -/
structure Txn where
  todo : List Entry
  pending : List GovernanceEvent := []
  locked : List ℤ := []
  phase : Phase := .idle

/-- A transaction that has looked at the chain and is not at its end. -/
def Txn.underway (t : Txn) : Bool := t.phase.reading || !t.pending.isEmpty

/-- The committed rows and the transactions. -/
structure Session (ι : Type) where
  table : List GovernanceEvent
  txns : ι → Txn

/-- Whose next statement comes. -/
inductive Turn (ι : Type) where
  | read (i : ι)
  | wake (i : ι)
  | insert (i : ι)
  | commit (i : ι)

section Statements
variable (sha256 : String → String) (key : String) {ι : Type} [DecidableEq ι]

def Session.set (s : Session ι) (i : ι) (t : Txn) : Session ι :=
  { s with txns := Function.update s.txns i t }

/-- What a transaction sees: the committed rows and its own. -/
def Session.visible (s : Session ι) (i : ι) : List GovernanceEvent :=
  s.table ++ (s.txns i).pending

def Txn.lock (t : Txn) (row : GovernanceEvent) : Txn :=
  { t with
    locked := row.chainIndex :: t.locked
    phase := .holding (some row) }

/-- A transaction that has inserted a row and has the rest still to come. -/
def Txn.append (t : Txn) (row : GovernanceEvent) (rest : List Entry) : Txn :=
  { t with
    todo := rest
    pending := t.pending ++ [row]
    phase := .idle }

/-- A transaction after an error: its rows and its locks are gone. -/
def Txn.abort (t : Txn) : Txn :=
  { t with
    pending := []
    locked := []
    phase := .failed }

variable [Fintype ι]

/-- Another transaction holds the lock on a row. -/
def Session.heldElsewhere (s : Session ι) (i : ι) (row : GovernanceEvent) : Bool :=
  decide (∃ j, j ≠ i ∧ row.chainIndex ∈ (s.txns j).locked)

/-- Another transaction has a row at a place and may still commit it. -/
def Session.contested (s : Session ι) (i : ι) (place : ℤ) : Bool :=
  decide (∃ j, j ≠ i ∧ ∃ row ∈ (s.txns j).pending, row.chainIndex = place)

/-- The place is taken by a row the transaction sees. -/
def Session.taken (s : Session ι) (i : ι) (place : ℤ) : Bool :=
  (chainOf (s.visible i) key).any fun row => row.chainIndex = place

/-- `SELECT … FOR UPDATE` of the newest row. -/
def Session.read (s : Session ι) (i : ι) : Session ι :=
  match chainHead (s.visible i) key with
  | none => s.set i { s.txns i with phase := .holding none }
  | some row =>
    if s.heldElsewhere i row then s.set i { s.txns i with phase := .waiting row }
    else s.set i ((s.txns i).lock row)

/-- The insertion behind the head that was read. -/
def Session.insert (s : Session ι) (i : ι) (head : Option GovernanceEvent) (entry : Entry)
    (rest : List Entry) : Option (Session ι) :=
  let event := entry.event sha256 head
  if s.taken key i event.chainIndex then some (s.set i (s.txns i).abort)
  else if s.contested i event.chainIndex then none
  else some (s.set i ((s.txns i).append event rest))

/-- One statement of one transaction, unless it has to wait. -/
def step (s : Session ι) : Turn ι → Option (Session ι)
  | .read i =>
    match (s.txns i).phase, (s.txns i).todo with
    | .idle, _ :: _ => some (s.read key i)
    | _, _ => none
  | .wake i =>
    match (s.txns i).phase with
    | .waiting row => if s.heldElsewhere i row then none else some (s.set i ((s.txns i).lock row))
    | _ => none
  | .insert i =>
    match (s.txns i).phase, (s.txns i).todo with
    | .holding head, entry :: rest => s.insert sha256 key i head entry rest
    | _, _ => none
  | .commit i =>
    match (s.txns i).phase, (s.txns i).todo with
    | .idle, [] => some
      { table := s.visible i
        txns := Function.update s.txns i ⟨[],[],[],.committed⟩ }
    | _, _ => none

/-- The statements in turn. -/
def run : Session ι → List (Turn ι) → Option (Session ι)
  | s, [] => some s
  | s, turn :: turns => (step sha256 key s turn).bind fun s' => run s' turns

/-- A turn that lets a transaction look at the chain while another one is under way. -/
def hasty (s : Session ι) : Turn ι → Bool
  | .read i => decide (∃ j, j ≠ i ∧ (s.txns j).underway = true)
  | _ => false

/-- The statements in turn, none of them hasty. -/
def carefulRun : Session ι → List (Turn ι) → Option (Session ι)
  | s, [] => some s
  | s, turn :: turns =>
    if hasty s turn then none else (step sha256 key s turn).bind fun s' => carefulRun s' turns

end Statements

/-- What one transaction appends: events of the chain, and at least one. -/
structure Program (key : String) where
  entries : List Entry
  own : ∀ e ∈ entries, e.chainKey = key
  some_entry : entries ≠ []

def begin {key : String} {ι : Type} (table : List GovernanceEvent) (programs : ι → Program key) :
    Session ι where
  table := table
  txns := fun i => { todo := (programs i).entries }

section Careful
variable {sha256 : String → String} {key : String}

/-- A transaction that came alone: its head is the newest row it sees, and it waits for
nothing. -/
structure Sound (sha256 : String → String) (key : String) (table : List GovernanceEvent)
    (t : Txn) : Prop where
  own : ∀ entry ∈ t.todo, entry.chainKey = key
  rows : ∀ row ∈ t.pending, row.chainKey = key
  walk : firstBreak sha256 0 none (chainOf (table ++ t.pending) key) = none
  calm : t.underway = false → t.locked = []
  stands : t.phase = .idle ∨
    (t.phase = .holding (chainHead (table ++ t.pending) key) ∧ t.todo ≠ []) ∨
    (t.phase = .committed ∧ t.todo = [] ∧ t.pending = [])

theorem underway_of_reading {t : Txn} (h : t.phase.reading = true) : t.underway = true := by
  rw [Txn.underway, h]
  rfl

theorem pending_of_calm {t : Txn} (h : t.underway = false) : t.pending = [] := by
  rw [Txn.underway, Bool.or_eq_false_iff] at h
  simpa using h.2

theorem Sound.some_rows {table : List GovernanceEvent} {t : Txn} (h : Sound sha256 key table t) :
    chainOf (table ++ t.pending) key = chainOf table key ++ t.pending := by
  have hown : t.pending.filter (fun row => row.chainKey = key) = t.pending := by
    apply List.filter_eq_self.mpr
    intro row hrow
    exact decide_eq_true (h.rows row hrow)
  rw [chainOf, List.filter_append, hown, chainOf]

/-- What a transaction that is not under way is does not hang on the table. -/
theorem Sound.over {table other : List GovernanceEvent} {t : Txn} (h : Sound sha256 key table t)
    (hcalm : t.underway = false) (hother : firstBreak sha256 0 none (chainOf other key) = none) :
    Sound sha256 key other t := by
  have hpending := pending_of_calm hcalm
  refine ⟨h.own,h.rows,?_,h.calm,?_⟩
  · rw [hpending, List.append_nil]
    exact hother
  · rcases h.stands with hidle | ⟨hholding,-⟩ | hdone
    · exact .inl hidle
    · rw [underway_of_reading (by rw [hholding]; rfl)] at hcalm
      cases hcalm
    · exact .inr (.inr hdone)

variable {ι : Type}

/-- Every transaction is sound, and at most one is under way. -/
structure Orderly (sha256 : String → String) (key : String) (s : Session ι) : Prop where
  walk : firstBreak sha256 0 none (chainOf s.table key) = none
  sound : ∀ i, Sound sha256 key s.table (s.txns i)
  alone : ∀ i j, (s.txns i).underway = true → (s.txns j).underway = true → i = j

theorem Orderly.others {s : Session ι} (h : Orderly sha256 key s) {i j : ι}
    (hi : (s.txns i).underway = true) (hj : j ≠ i) : (s.txns j).underway = false := by
  by_contra hbusy
  exact hj (h.alone j i (Bool.eq_true_of_not_eq_false hbusy) hi)

/-- What a transaction sees is unbroken. -/
theorem Orderly.visible_walk {s : Session ι} (h : Orderly sha256 key s) (i : ι) :
    firstBreak sha256 0 none (chainOf (s.visible i) key) = none :=
  (h.sound i).walk

theorem Orderly.head_eq {s : Session ι} (h : Orderly sha256 key s) {i : ι}
    {head : Option GovernanceEvent} (hphase : (s.txns i).phase = .holding head) :
    head = (chainOf (s.visible i) key).getLast? := by
  have hnewest : chainHead (s.visible i) key = (chainOf (s.visible i) key).getLast? :=
    newest_of_walk (h.visible_walk i)
  rcases (h.sound i).stands with hidle | ⟨hholding,-⟩ | ⟨hdone,-⟩
  · rw [hidle] at hphase
    cases hphase
  · rw [hholding] at hphase
    rw [← hnewest]
    exact (Phase.holding.inj hphase).symm
  · rw [hdone] at hphase
    cases hphase

/-- The place behind the head is free. -/
theorem Orderly.untaken {s : Session ι} (h : Orderly sha256 key s) {i : ι}
    {head : Option GovernanceEvent} (hphase : (s.txns i).phase = .holding head) (entry : Entry) :
    s.taken key i (entry.event sha256 head).chainIndex = false := by
  rw [h.head_eq hphase, event_index (h.visible_walk i), Session.taken, List.any_eq_false]
  intro row hrow htaken
  have hbelow := (index_walk (h.visible_walk i)).2 row hrow
  have hplace := of_decide_eq_true htaken
  rw [hplace] at hbelow
  exact lt_irrefl _ hbelow

variable [DecidableEq ι]

@[simp] theorem set_table (s : Session ι) (i : ι) (t : Txn) : (s.set i t).table = s.table := rfl

@[simp] theorem set_self (s : Session ι) (i : ι) (t : Txn) : (s.set i t).txns i = t :=
  Function.update_self ..

theorem set_other (s : Session ι) {i j : ι} (t : Txn) (h : j ≠ i) :
    (s.set i t).txns j = s.txns j :=
  Function.update_of_ne h ..

theorem Orderly.set {s : Session ι} (h : Orderly sha256 key s) {i : ι} {t : Txn}
    (ht : Sound sha256 key s.table t) (halone : ∀ j, j ≠ i → (s.txns j).underway = false) :
    Orderly sha256 key (s.set i t) := by
  refine ⟨h.walk,?_,?_⟩
  · intro j
    by_cases hj : j = i
    · subst hj
      rw [set_self]
      exact ht
    · rw [set_other s t hj]
      exact h.sound j
  · intro j k hj hk
    have hown : ∀ l, ((s.set i t).txns l).underway = true → l = i := by
      intro l hl
      by_contra hne
      rw [set_other s t hne, halone l hne] at hl
      cases hl
    rw [hown j hj, hown k hk]

theorem Orderly.inserts {s : Session ι} (h : Orderly sha256 key s) {i : ι}
    {head : Option GovernanceEvent} (hphase : (s.txns i).phase = .holding head) {entry : Entry}
    {rest : List Entry} (htodo : (s.txns i).todo = entry :: rest) :
    Orderly sha256 key (s.set i ((s.txns i).append (entry.event sha256 head) rest)) := by
  have hbusy : (s.txns i).underway = true := underway_of_reading (by rw [hphase]; rfl)
  have hkey : (entry.event sha256 head).chainKey = key :=
    (h.sound i).own entry (by rw [htodo]; exact List.mem_cons_self)
  have hchain : chainOf (s.visible i ++ [entry.event sha256 head]) key =
      chainOf (s.visible i) key ++ [entry.event sha256 head] := by
    rw [chainOf, List.filter_append, chainOf]
    simp [hkey]
  have hwalk := h.visible_walk i
  apply h.set _ fun j hj => h.others hbusy hj
  refine ⟨?_,?_,?_,?_,.inl rfl⟩
  · intro other hother
    exact (h.sound i).own other (by rw [htodo]; exact List.mem_cons_of_mem _ hother)
  · intro row hrow
    rcases List.mem_append.mp hrow with hrow | hrow
    · exact (h.sound i).rows row hrow
    · rw [List.mem_singleton.mp hrow]
      exact hkey
  · show firstBreak sha256 0 none
      (chainOf (s.table ++ ((s.txns i).pending ++ [entry.event sha256 head])) key) = none
    rw [← List.append_assoc]
    have hhead := h.head_eq hphase
    show firstBreak sha256 0 none (chainOf (s.visible i ++ [entry.event sha256 head]) key) = none
    rw [hchain, hhead]
    apply firstBreak_append.mpr ⟨hwalk,_,_,event_digest sha256 _ _⟩
    · rw [Nat.zero_add]
      exact event_index hwalk entry
    · rw [Option.or_none]
      rfl
  · intro hquiet
    exact absurd (pending_of_calm hquiet) (by simp [Txn.append])

theorem Orderly.commits {s : Session ι} (h : Orderly sha256 key s) (i : ι) :
    Orderly sha256 key
      { table := s.visible i
        txns := Function.update s.txns i ⟨[],[],[],.committed⟩ } := by
  have hwalk := h.visible_walk i
  have hrest : ∀ j, j ≠ i → Sound sha256 key (s.visible i) (s.txns j) := by
    intro j hj
    by_cases hempty : (s.txns i).pending = []
    · rw [Session.visible, hempty, List.append_nil]
      exact h.sound j
    · have hbusy : (s.txns i).underway = true := by
        by_contra hquiet
        exact hempty (pending_of_calm (Bool.eq_false_of_not_eq_true hquiet))
      exact (h.sound j).over (h.others hbusy hj) hwalk
  refine ⟨hwalk,?_,?_⟩
  · intro j
    by_cases hj : j = i
    · subst hj
      show Sound sha256 key (s.visible j) (Function.update s.txns j ⟨[],[],[],.committed⟩ j)
      rw [Function.update_self]
      refine ⟨by simp,by simp,?_,fun _ => rfl,.inr (.inr ⟨rfl,rfl,rfl⟩)⟩
      rw [List.append_nil]
      exact hwalk
    · show Sound sha256 key (s.visible i) (Function.update s.txns i ⟨[],[],[],.committed⟩ j)
      rw [Function.update_of_ne hj]
      exact hrest j hj
  · intro j k hj hk
    have hother : ∀ l, (Function.update s.txns i ⟨[],[],[],.committed⟩ l).underway = true →
        (s.txns l).underway = true := by
      intro l hl
      by_cases hli : l = i
      · rw [hli, Function.update_self] at hl
        cases hl
      · rwa [Function.update_of_ne hli] at hl
    exact h.alone j k (hother j hj) (hother k hk)

variable [Fintype ι]

theorem others_calm {s : Session ι} {i : ι} (hread : hasty s (.read i) = false) :
    ∀ j, j ≠ i → (s.txns j).underway = false := by
  intro j hj
  by_contra hbusy
  exact of_decide_eq_false hread ⟨j,hj,Bool.eq_true_of_not_eq_false hbusy⟩

theorem Orderly.unheld {s : Session ι} (h : Orderly sha256 key s) {i : ι}
    (hcalm : ∀ j, j ≠ i → (s.txns j).underway = false) (row : GovernanceEvent) :
    s.heldElsewhere i row = false := by
  apply decide_eq_false
  rintro ⟨j,hj,hrow⟩
  rw [(h.sound j).calm (hcalm j hj)] at hrow
  cases hrow

theorem uncontested {s : Session ι} {i : ι}
    (hcalm : ∀ j, j ≠ i → (s.txns j).underway = false) (place : ℤ) :
    s.contested i place = false := by
  apply decide_eq_false
  rintro ⟨j,hj,row,hrow,-⟩
  rw [pending_of_calm (hcalm j hj)] at hrow
  cases hrow

/-- A transaction that has read the newest row, and the places it has locked by then. -/
def Txn.hold (t : Txn) (places : List ℤ) (head : Option GovernanceEvent) : Txn :=
  { t with
    locked := places
    phase := .holding head }

/-- A transaction that comes alone reads the newest row and need not wait. -/
theorem Orderly.read_eq {s : Session ι} (h : Orderly sha256 key s) {i : ι}
    (hcalm : ∀ j, j ≠ i → (s.txns j).underway = false) :
    ∃ places, s.read key i = s.set i ((s.txns i).hold places (chainHead (s.visible i) key)) := by
  unfold Session.read
  cases hhead : chainHead (s.visible i) key with
  | none => exact ⟨(s.txns i).locked,rfl⟩
  | some row =>
    refine ⟨row.chainIndex :: (s.txns i).locked,?_⟩
    simp only [h.unheld hcalm row]
    rfl

theorem Orderly.reads {s : Session ι} (h : Orderly sha256 key s) {i : ι}
    (hcalm : ∀ j, j ≠ i → (s.txns j).underway = false) (htodo : (s.txns i).todo ≠ []) :
    Orderly sha256 key (s.read key i) := by
  obtain ⟨places,hread⟩ := h.read_eq hcalm
  rw [hread]
  apply h.set _ hcalm
  exact
    { own := (h.sound i).own
      rows := (h.sound i).rows
      walk := (h.sound i).walk
      calm := by
        intro hquiet
        rw [underway_of_reading rfl] at hquiet
        cases hquiet
      stands := .inr (.inl ⟨rfl,htodo⟩) }

theorem Orderly.insert_eq {s : Session ι} (h : Orderly sha256 key s) {i : ι}
    {head : Option GovernanceEvent} (hphase : (s.txns i).phase = .holding head) (entry : Entry)
    (rest : List Entry) :
    s.insert sha256 key i head entry rest =
      some (s.set i ((s.txns i).append (entry.event sha256 head) rest)) := by
  have hbusy : (s.txns i).underway = true := underway_of_reading (by rw [hphase]; rfl)
  have hcalm : ∀ j, j ≠ i → (s.txns j).underway = false := fun j hj => h.others hbusy hj
  simp only [Session.insert, h.untaken hphase entry, uncontested hcalm]
  rfl

end Careful

section Progress
variable {sha256 : String → String} {key : String} {ι : Type}

/-- How many statements a transaction still needs. -/
def Txn.work (t : Txn) : ℕ :=
  match t.phase with
  | .idle => 2*t.todo.length+1
  | .waiting _ | .holding _ => 2*t.todo.length
  | .committed | .failed => 0

/-- How many rows a transaction still owes to the table. -/
def Txn.owed (t : Txn) : ℕ := t.pending.length+t.todo.length

variable [DecidableEq ι] [Fintype ι]

def Session.work (s : Session ι) : ℕ := ∑ i, (s.txns i).work

/-- The rows of the chain, those that are still to come counted in. -/
def Session.tally (key : String) (s : Session ι) : ℕ :=
  (chainOf s.table key).length+∑ i, (s.txns i).owed

/-- The three statements of a transaction that comes alone. -/
theorem careful_cases {s s' : Session ι} (h : Orderly sha256 key s) {turn : Turn ι}
    (hturn : hasty s turn = false) (hstep : step sha256 key s turn = some s') :
    (∃ i places, (∀ j, j ≠ i → (s.txns j).underway = false) ∧ (s.txns i).phase = .idle ∧
      (s.txns i).todo ≠ [] ∧ s' = s.read key i ∧
      s' = s.set i ((s.txns i).hold places (chainHead (s.visible i) key))) ∨
    (∃ i head entry rest, (s.txns i).phase = .holding head ∧ (s.txns i).todo = entry :: rest ∧
      s' = s.set i ((s.txns i).append (entry.event sha256 head) rest)) ∨
    ∃ i, (s.txns i).phase = .idle ∧ (s.txns i).todo = [] ∧
      s' = { table := s.visible i
             txns := Function.update s.txns i ⟨[],[],[],.committed⟩ } := by
  cases turn with
  | read i =>
    have hcalm := others_calm hturn
    simp only [step] at hstep
    split at hstep
    next entry rest hphase htodo =>
      have hread := Option.some.inj hstep
      obtain ⟨places,hplaces⟩ := h.read_eq hcalm
      refine .inl ⟨i,places,hcalm,hphase,by simp [htodo],hread.symm,?_⟩
      rw [← hread, hplaces]
    next => cases hstep
  | wake i =>
    simp only [step] at hstep
    split at hstep
    next row hphase =>
      rcases (h.sound i).stands with hidle | ⟨hholding,-⟩ | ⟨hdone,-⟩
      · rw [hidle] at hphase
        cases hphase
      · rw [hholding] at hphase
        cases hphase
      · rw [hdone] at hphase
        cases hphase
    next => cases hstep
  | insert i =>
    simp only [step] at hstep
    split at hstep
    next head entry rest hphase htodo =>
      rw [h.insert_eq hphase entry rest] at hstep
      exact .inr (.inl ⟨i,head,entry,rest,hphase,htodo,(Option.some.inj hstep).symm⟩)
    next => cases hstep
  | commit i =>
    simp only [step] at hstep
    split at hstep
    next hphase htodo =>
      exact .inr (.inr ⟨i,hphase,htodo,(Option.some.inj hstep).symm⟩)
    next => cases hstep

theorem sum_set (f : Txn → ℕ) (txns : ι → Txn) (i : ι) (t : Txn) :
    ∑ j, f (Function.update txns i t j)+f (txns i) = ∑ j, f (txns j)+f t := by
  have hrest : ∑ j ∈ Finset.univ.erase i, f (Function.update txns i t j) =
      ∑ j ∈ Finset.univ.erase i, f (txns j) := by
    apply Finset.sum_congr rfl
    intro j hj
    rw [Function.update_of_ne (Finset.ne_of_mem_erase hj)]
  rw [← Finset.add_sum_erase _ _ (Finset.mem_univ i), hrest, Function.update_self,
    ← Finset.add_sum_erase _ (fun j => f (txns j)) (Finset.mem_univ i)]
  omega

theorem work_set (s : Session ι) (i : ι) (t : Txn) :
    (s.set i t).work+(s.txns i).work = s.work+t.work :=
  sum_set Txn.work s.txns i t

theorem tally_set (key : String) (s : Session ι) (i : ι) (t : Txn) :
    (s.set i t).tally key+(s.txns i).owed = s.tally key+t.owed := by
  have hsum := sum_set Txn.owed s.txns i t
  simp only [Session.tally, Session.set]
  omega

/-- A statement that is not hasty keeps the order, brings the end nearer and loses no row. -/
theorem careful_step {s s' : Session ι} (h : Orderly sha256 key s) {turn : Turn ι}
    (hturn : hasty s turn = false) (hstep : step sha256 key s turn = some s') :
    Orderly sha256 key s' ∧ s'.work+1 = s.work ∧ s'.tally key = s.tally key := by
  rcases careful_cases h hturn hstep with ⟨i,places,hcalm,hphase,htodo,hread,hset⟩ |
    ⟨i,head,entry,rest,hphase,htodo,hset⟩ | ⟨i,hphase,htodo,hset⟩
  · refine ⟨by rw [hread]; exact h.reads hcalm htodo,?_,?_⟩
    · rw [hset]
      have hwork := work_set s i ((s.txns i).hold places (chainHead (s.visible i) key))
      simp only [Txn.work, hphase, Txn.hold] at hwork ⊢
      omega
    · rw [hset]
      exact Nat.add_right_cancel
        (tally_set key s i ((s.txns i).hold places (chainHead (s.visible i) key)))
  · rw [hset]
    refine ⟨h.inserts hphase htodo,?_,?_⟩
    · have hwork := work_set s i ((s.txns i).append (entry.event sha256 head) rest)
      simp only [Txn.work, hphase, htodo, Txn.append, List.length_cons] at hwork ⊢
      omega
    · have htally := tally_set key s i ((s.txns i).append (entry.event sha256 head) rest)
      simp only [Txn.owed, htodo, Txn.append, List.length_cons, List.length_append,
        List.length_nil] at htally ⊢
      omega
  · rw [hset]
    refine ⟨h.commits i,?_,?_⟩
    · have hwork := sum_set Txn.work s.txns i ⟨[],[],[],.committed⟩
      simp only [Txn.work, hphase, htodo, List.length_nil] at hwork
      simp only [Session.work, Txn.work]
      omega
    · have howed := sum_set Txn.owed s.txns i ⟨[],[],[],.committed⟩
      have hlength := congrArg List.length (h.sound i).some_rows
      rw [List.length_append] at hlength
      simp only [Txn.owed, htodo, List.length_nil] at howed
      simp only [Session.tally, Session.visible, Txn.owed, hlength]
      omega

/-- A transaction that is not at its end and finds no other under way can go on. -/
theorem Orderly.goes_on {s : Session ι} (h : Orderly sha256 key s) {i : ι}
    (hcalm : ∀ j, j ≠ i → (s.txns j).underway = false) (hopen : (s.txns i).phase ≠ .committed) :
    ∃ turn s', hasty s turn = false ∧ step sha256 key s turn = some s' := by
  rcases (h.sound i).stands with hidle | ⟨hholding,htodo⟩ | ⟨hdone,-⟩
  · cases htodo : (s.txns i).todo with
    | nil =>
      refine ⟨.commit i,⟨s.visible i,Function.update s.txns i ⟨[],[],[],.committed⟩⟩,rfl,?_⟩
      simp only [step, hidle, htodo]
    | cons entry rest =>
      refine ⟨.read i,s.read key i,?_,?_⟩
      · apply decide_eq_false
        rintro ⟨j,hj,hbusy⟩
        rw [hcalm j hj] at hbusy
        cases hbusy
      · simp only [step, hidle, htodo]
  · obtain ⟨entry,rest,hcons⟩ := List.exists_cons_of_ne_nil htodo
    refine ⟨.insert i,s.set i ((s.txns i).append
      (entry.event sha256 (chainHead (s.table ++ (s.txns i).pending) key)) rest),rfl,?_⟩
    simp only [step, hholding, hcons]
    exact h.insert_eq hholding entry rest
  · exact absurd hdone hopen

/-- While a transaction is not at its end, some statement can come that is not hasty. -/
theorem Orderly.progress {s : Session ι} (h : Orderly sha256 key s)
    (hopen : ∃ i, (s.txns i).phase ≠ .committed) :
    ∃ turn s', hasty s turn = false ∧ step sha256 key s turn = some s' := by
  obtain ⟨i,hi⟩ := hopen
  by_cases hbusy : ∃ k, (s.txns k).underway = true
  · obtain ⟨k,hk⟩ := hbusy
    apply h.goes_on (fun j hj => h.others hk hj) (i := k)
    intro hdone
    rcases (h.sound k).stands with hidle | ⟨hholding,-⟩ | ⟨-,-,hpending⟩
    · rw [hidle] at hdone
      cases hdone
    · rw [hholding] at hdone
      cases hdone
    · rw [Txn.underway, hdone, hpending] at hk
      cases hk
  · have hcalm : ∀ j, (s.txns j).underway = false := by
      intro j
      by_contra hj
      exact hbusy ⟨j,Bool.eq_true_of_not_eq_false hj⟩
    exact h.goes_on (fun j _ => hcalm j) hi

theorem careful_run {s s' : Session ι} {turns : List (Turn ι)} (h : Orderly sha256 key s)
    (hrun : carefulRun sha256 key s turns = some s') :
    Orderly sha256 key s' ∧ s'.work+turns.length = s.work ∧ s'.tally key = s.tally key := by
  induction turns generalizing s with
  | nil =>
    cases hrun
    exact ⟨h,rfl,rfl⟩
  | cons turn turns ih =>
    rw [carefulRun] at hrun
    by_cases hturn : hasty s turn = true
    · rw [if_pos hturn] at hrun
      cases hrun
    · rw [if_neg hturn] at hrun
      obtain ⟨next,hstep,hrest⟩ := Option.bind_eq_some_iff.mp hrun
      obtain ⟨hnext,hwork,htally⟩ := careful_step h (Bool.eq_false_of_not_eq_true hturn) hstep
      obtain ⟨hend,hworks,htallies⟩ := ih hnext hrest
      refine ⟨hend,?_,htallies.trans htally⟩
      rw [List.length_cons]
      omega

/-- A run that has not brought every transaction to its end can be brought there. -/
theorem Orderly.completes {s : Session ι} (h : Orderly sha256 key s) :
    ∃ more s', carefulRun sha256 key s more = some s' ∧ ∀ i, (s'.txns i).phase = .committed := by
  induction hwork : s.work using Nat.strong_induction_on generalizing s with
  | _ n ih =>
    by_cases hopen : ∃ i, (s.txns i).phase ≠ .committed
    · obtain ⟨turn,next,hturn,hstep⟩ := h.progress hopen
      obtain ⟨hnext,hless,-⟩ := careful_step h hturn hstep
      obtain ⟨more,last,hmore,hdone⟩ := ih next.work (by omega) hnext rfl
      refine ⟨turn :: more,last,?_,hdone⟩
      rw [carefulRun, if_neg (by rw [hturn]; decide), hstep]
      exact hmore
    · push Not at hopen
      exact ⟨[],s,rfl,hopen⟩

end Progress

section Runs
variable {key : String} {ι : Type}

theorem begin_orderly {sha256 : String → String} {table : List GovernanceEvent}
    (htable : firstBreak sha256 0 none (chainOf table key) = none) (programs : ι → Program key) :
    Orderly sha256 key (begin table programs) := by
  refine ⟨htable,?_,?_⟩
  · intro i
    refine ⟨(programs i).own,by simp [begin],?_,fun _ => rfl,.inl rfl⟩
    show firstBreak sha256 0 none (chainOf (table ++ []) key) = none
    rw [List.append_nil]
    exact htable
  · intro i j hi
    cases hi

/-- The places along an unbroken chain, from the first on. -/
theorem places_walk {sha256 : String → String} {es : List GovernanceEvent}
    (h : firstBreak sha256 0 none es = none) :
    es.map (·.chainIndex) = (List.range es.length).map fun n : ℕ => (n : ℤ) := by
  induction es using List.reverseRecOn with
  | nil => rfl
  | append_singleton es x ih =>
    obtain ⟨hes,hx,-,-⟩ := firstBreak_append.mp h
    rw [List.map_append, ih hes, List.length_append, List.length_singleton, List.range_succ,
      List.map_append]
    simp [hx]

theorem Sound.unrefused {sha256 : String → String} {table : List GovernanceEvent} {t : Txn}
    (h : Sound sha256 key table t) : t.phase.refused = false := by
  rcases h.stands with hidle | ⟨hholding,-⟩ | ⟨hdone,-⟩
  · rw [hidle]
    rfl
  · rw [hholding]
    rfl
  · rw [hdone]
    rfl

theorem Sound.owes_nothing {sha256 : String → String} {table : List GovernanceEvent} {t : Txn}
    (h : Sound sha256 key table t) (hdone : t.phase = .committed) : t.owed = 0 := by
  rcases h.stands with hidle | ⟨hholding,-⟩ | ⟨-,htodo,hpending⟩
  · rw [hidle] at hdone
    cases hdone
  · rw [hholding] at hdone
    cases hdone
  · rw [Txn.owed, htodo, hpending]
    rfl

variable [DecidableEq ι] [Fintype ι]

/-- Appends of any number of transactions to one chain, when none of them begins to read
the chain while another one is under way: at no moment is a transaction refused, the
chain is intact and its places count up from zero, no transaction takes more than two
statements an event and the last one, all of them can come to their end, and then every
event has its row. -/
theorem careful_appends (sha256 : String → String) (earlier : List Entry)
    (programs : ι → Program key) {turns : List (Turn ι)} {s : Session ι}
    (hrun : carefulRun sha256 key (begin (appendAll sha256 [] earlier) programs) turns = some s) :
    (∀ i, (s.txns i).phase.refused = false) ∧
    (verifyChain sha256 (chainOf s.table key)).intact = true ∧
    (chainOf s.table key).map (·.chainIndex) =
      (List.range (chainOf s.table key).length).map (fun n : ℕ => (n : ℤ)) ∧
    turns.length ≤ ∑ i, (2*(programs i).entries.length+1) ∧
    (∃ more s', carefulRun sha256 key s more = some s' ∧
      ∀ i, (s'.txns i).phase = .committed) ∧
    ((∀ i, (s.txns i).phase = .committed) → (chainOf s.table key).length =
      (chainOf (appendAll sha256 [] earlier) key).length+∑ i, (programs i).entries.length) := by
  have hfirst : firstBreak sha256 0 none (chainOf (appendAll sha256 [] earlier) key) = none :=
    appendAll_unbroken nothing_unbroken earlier key
  have hstart := begin_orderly hfirst programs
  obtain ⟨horder,hwork,htally⟩ := careful_run hstart hrun
  have hplaces := inChainOrder_of_walk horder.walk (List.Perm.refl _)
  refine ⟨fun i => (horder.sound i).unrefused,?_,places_walk horder.walk,?_,horder.completes,?_⟩
  · exact (verifyChain_of_walk (by rw [hplaces]; exact horder.walk)).1
  · have hall : (begin (appendAll sha256 [] earlier) programs).work =
        ∑ i, (2*(programs i).entries.length+1) := rfl
    omega
  · intro hdone
    have hnone : ∑ i, (s.txns i).owed = 0 :=
      Finset.sum_eq_zero fun i _ => (horder.sound i).owes_nothing (hdone i)
    have hall : ∑ i, ((begin (appendAll sha256 [] earlier) programs).txns i).owed =
        ∑ i, (programs i).entries.length := by
      apply Finset.sum_congr rfl
      intro i _
      exact Nat.zero_add _
    have htable : (begin (appendAll sha256 [] earlier) programs).table =
        appendAll sha256 [] earlier := rfl
    rw [Session.tally, Session.tally, hnone, hall, htable] at htally
    exact htally

end Runs

section Sample

theorem own_created : ∀ e ∈ [created], e.chainKey = "campaign:7" := by
  intro e he
  rw [List.mem_singleton.mp he]
  rfl

theorem own_canceled : ∀ e ∈ [canceled], e.chainKey = "campaign:7" := by
  intro e he
  rw [List.mem_singleton.mp he]
  rfl

theorem some_created : [created] ≠ [] := by simp

theorem some_canceled : [canceled] ≠ [] := by simp

/-- One transaction creates the campaign and the other one cancels it. -/
def twoWriters (second : Bool) : Program "campaign:7" :=
  if second then ⟨[canceled],own_canceled,some_canceled⟩
  else ⟨[created],own_created,some_created⟩

/-- The chain and the transactions of a run: how long it is, and who was refused. -/
def outcome (s : Session Bool) : ℕ × Bool × Bool :=
  (s.table.length,(s.txns false).phase.refused,(s.txns true).phase.refused)

/-- One after the other the two transactions leave an intact chain. -/
theorem careful_appends_in_turn :
    (carefulRun sampleHash "campaign:7" (begin (appendAll sampleHash [] []) twoWriters)
      [.read false, .insert false, .commit false, .read true, .insert true, .commit true]).map
      (fun s => (verifyChain sampleHash (chainOf s.table "campaign:7")).intact) = some true := by
  have hgoes : (carefulRun sampleHash "campaign:7" (begin (appendAll sampleHash [] []) twoWriters)
      [.read false, .insert false, .commit false, .read true, .insert true,
        .commit true]).isSome = true := by decide +kernel
  obtain ⟨s,hs⟩ := Option.isSome_iff_exists.mp hgoes
  rw [hs]
  exact congrArg some (careful_appends sampleHash [] twoWriters hs).2.1

/-- Two transactions that look at the chain before either of them has appended: on a chain
that is still empty neither of them waits, and on one that is not the second one waits for a
row that is no longer the newest. Both times the second one is refused, with one event lost. -/
theorem late_append_refused :
    (run sampleHash "campaign:7" (begin (appendAll sampleHash [] []) twoWriters)
      [.read false, .read true, .insert false, .commit false, .insert true]).map outcome =
        some (1,false,true) ∧
    (run sampleHash "campaign:7" (begin (appendAll sampleHash [] [created]) twoWriters)
      [.read false, .read true, .insert false, .commit false, .wake true, .insert true]).map
        outcome = some (2,false,true) := by
  constructor <;> decide +kernel

end Sample

end Adg.ChainAppends
