import Mathlib

/-!
# Programs of statements

A call on a database is a program: statements one after the other, each chosen
by the answers to those before it. A statement first finds rows in what it sees,
may have to hold some of them, and then does its work. A program run alone sees
only what it wrote itself; a call whose program is refused leaves the database as
it was.
-/

set_option autoImplicit false

namespace Adg.Transactions

/-- A statement over a database `σ`, with rows `κ` to hold, errors `ε` and answers `β`. -/
structure Statement (σ κ ε τ β : Type) where
  find : σ → τ
  holds : τ → List κ
  work : τ → σ → Except ε (β × σ)

inductive Program (σ κ ε α : Type) : Type 1 where
  | done (a : α)
  | refuse (e : ε)
  | perform {τ β : Type} (s : Statement σ κ ε τ β) (next : β → Program σ κ ε α)

variable {σ κ ε α β γ τ : Type}

namespace Program

def bind : Program σ κ ε α → (α → Program σ κ ε β) → Program σ κ ε β
  | .done a, f => f a
  | .refuse e, _ => .refuse e
  | .perform s next, f => .perform s fun b => (next b).bind f

instance : Monad (Program σ κ ε) where
  pure := .done
  bind := bind

theorem bind_done (p : Program σ κ ε α) : p.bind .done = p := by
  induction p with
  | done a => rfl
  | refuse e => rfl
  | perform s next ih => exact congrArg (Program.perform s) (funext ih)

theorem bind_bind (p : Program σ κ ε α) (f : α → Program σ κ ε β) (g : β → Program σ κ ε γ) :
    (p.bind f).bind g = p.bind fun a => (f a).bind g := by
  induction p with
  | done a => rfl
  | refuse e => rfl
  | perform s next ih => exact congrArg (Program.perform s) (funext ih)

instance : LawfulMonad (Program σ κ ε) := LawfulMonad.mk' _ bind_done (fun _ _ => rfl) bind_bind

/-- One statement, and its answer. -/
def run (s : Statement σ κ ε τ β) : Program σ κ ε β := .perform s .done

/-- A plain read, which holds no row. -/
def read (f : σ → β) : Program σ κ ε β :=
  run { find := fun _ => ()
        holds := fun _ => []
        work := fun _ db => .ok (f db,db) }

/-- A read of rows that are held from then on. -/
def lock (find : σ → τ) (holds : τ → List κ) : Program σ κ ε τ :=
  run { find := find
        holds := holds
        work := fun rows db => .ok (rows,db) }

/-- An insert, which holds the keys that its row takes and is refused when one
of them is taken. -/
def insert (keys : List κ) (free : σ → Bool) (e : ε) (into : σ → σ) : Program σ κ ε Unit :=
  run { find := fun _ => ()
        holds := fun _ => keys
        work := fun _ db => if free db then .ok ((),into db) else .error e }

/-- An update or a delete of the rows that its condition found. The condition is
tried again on them once they are held. -/
def change (find : σ → List κ) (allowed : List κ → σ → Bool) (e : ε)
    (effect : List κ → σ → σ) : Program σ κ ε Unit :=
  run { find := find
        holds := fun rows => rows
        work := fun rows db => if allowed rows db then .ok ((),effect rows db) else .error e }

/-- A check of what is known already. -/
def require (p : Prop) [Decidable p] (e : ε) : Program σ κ ε Unit :=
  if p then .done () else .refuse e

/-- A computation that may fail. -/
def ofExcept : Except ε α → Program σ κ ε α
  | .ok a => .done a
  | .error e => .refuse e

/-- A row that is asked for, or a refusal. -/
def found (e : ε) : Option α → Program σ κ ε α
  | some a => .done a
  | none => .refuse e

/-- A program with the database to itself. -/
def alone : Program σ κ ε α → σ → Except ε (α × σ)
  | .done a, db => .ok (a,db)
  | .refuse e, _ => .error e
  | .perform s next, db => match s.work (s.find db) db with
    | .error e => .error e
    | .ok (b,db') => (next b).alone db'

end Program

open Program

/-- A call: its program up to the commit, and what it reads back after it. -/
structure Call (σ κ ε α β : Type) where
  body : Program σ κ ε α
  reread : α → σ → Except ε β

/-- What a call answers, and the database once its session is closed. -/
def Call.perform (c : Call σ κ ε α β) (db : σ) : Except ε β × σ :=
  match c.body.alone db with
  | .error e => (.error e,db)
  | .ok (a,db') => (c.reread a db',db')

/-! ### What a program that was not refused did -/

section Alone
variable {db db' : σ} {a : α}

theorem alone_bind (p : Program σ κ ε α) (f : α → Program σ κ ε β) (db : σ) :
    (p >>= f).alone db = match p.alone db with
      | .error e => .error e
      | .ok (a,db') => (f a).alone db' := by
  show (p.bind f).alone db = _
  induction p generalizing db with
  | done a => rfl
  | refuse e => rfl
  | perform s next ih =>
    simp only [Program.bind, alone]
    cases h : s.work (s.find db) db with
    | error e => rfl
    | ok r => exact ih r.1 r.2

section Forms
variable {r : β × σ} {k : α → Program σ κ ε β} {u : Unit → Program σ κ ε β} {e : ε}

theorem bind_ok (p : Program σ κ ε α) :
    (p >>= k).alone db = .ok r ↔ ∃ a mid, p.alone db = .ok (a,mid) ∧ (k a).alone mid = .ok r := by
  rw [alone_bind]
  cases p.alone db with
  | error e => simp
  | ok s =>
    constructor
    · intro h
      exact ⟨s.1,s.2,rfl,h⟩
    · intro ⟨a,mid,hs,h⟩
      cases hs
      exact h

theorem done_ok (a : α) (q : α × σ) :
    (pure a : Program σ κ ε α).alone db = .ok q ↔ q = (a,db) := by
  show Except.ok (a,db) = Except.ok q ↔ _
  rw [Except.ok.injEq, eq_comm]

theorem refuse_ok (e : ε) (q : α × σ) : (refuse e : Program σ κ ε α).alone db ≠ .ok q := by
  intro h
  exact nomatch h

theorem read_ok (f : σ → α) :
    (read f >>= k : Program σ κ ε β).alone db = .ok r ↔ (k (f db)).alone db = .ok r := Iff.rfl

theorem lock_ok {find : σ → τ} {holds : τ → List κ} {k : τ → Program σ κ ε β} :
    (lock find holds >>= k).alone db = .ok r ↔ (k (find db)).alone db = .ok r := Iff.rfl

theorem require_ok (p : Prop) [Decidable p] :
    (require p e >>= u).alone db = .ok r ↔ p ∧ (u ()).alone db = .ok r := by
  by_cases h : p
  · rw [require, if_pos h]
    exact ⟨fun hu => ⟨h,hu⟩,fun hu => hu.2⟩
  · rw [require, if_neg h]
    constructor
    · intro hu
      exact nomatch hu
    · intro hu
      exact absurd hu.1 h

theorem ofExcept_ok (x : Except ε α) :
    (ofExcept x >>= k).alone db = .ok r ↔ ∃ a, x = .ok a ∧ (k a).alone db = .ok r := by
  cases x with
  | error e =>
    constructor
    · intro h
      exact nomatch h
    · intro ⟨a,ha,_⟩
      exact nomatch ha
  | ok a =>
    constructor
    · intro h
      exact ⟨a,rfl,h⟩
    · intro ⟨b,hb,h⟩
      cases hb
      exact h

theorem found_ok (o : Option α) :
    (found e o >>= k).alone db = .ok r ↔ ∃ a, o = some a ∧ (k a).alone db = .ok r := by
  cases o with
  | none =>
    constructor
    · intro h
      exact nomatch h
    · intro ⟨a,ha,_⟩
      exact nomatch ha
  | some a =>
    constructor
    · intro h
      exact ⟨a,rfl,h⟩
    · intro ⟨b,hb,h⟩
      cases hb
      exact h

theorem insert_ok {keys : List κ} {free : σ → Bool} {into : σ → σ} :
    (insert keys free e into >>= u).alone db = .ok r ↔
      free db = true ∧ (u ()).alone (into db) = .ok r := by
  rw [alone_bind]
  simp only [Program.insert, run, alone]
  cases free db <;> simp

theorem change_ok {find : σ → List κ} {allowed : List κ → σ → Bool}
    {effect : List κ → σ → σ} :
    (change find allowed e effect >>= u).alone db = .ok r ↔
      allowed (find db) db = true ∧ (u ()).alone (effect (find db) db) = .ok r := by
  rw [alone_bind]
  simp only [Program.change, run, alone]
  cases allowed (find db) db <;> simp

end Forms

/-- A call that was refused before its commit changed nothing. -/
theorem perform_of_refused {c : Call σ κ ε α β} {e : ε} (h : c.body.alone db = .error e) :
    c.perform db = (.error e,db) := by
  rw [Call.perform, h]

theorem perform_of_committed {c : Call σ κ ε α β} (h : c.body.alone db = .ok (a,db')) :
    c.perform db = (c.reread a db',db') := by
  rw [Call.perform, h]

end Alone

/-! ### What a program leaves alone -/

section Frames
variable {δ : Type} {part : σ → δ}

/-- No statement of a program changes a part of the database. -/
def Leaves (part : σ → δ) : Program σ κ ε α → Prop
  | .done _ => True
  | .refuse _ => True
  | .perform s next =>
    (∀ rows db b db', s.work rows db = .ok (b,db') → part db' = part db) ∧
      ∀ b, Leaves part (next b)

theorem leaves_alone {p : Program σ κ ε α} {db db' : σ} {a : α} (hp : Leaves part p)
    (h : p.alone db = .ok (a,db')) : part db' = part db := by
  induction p generalizing db with
  | done b =>
    cases h
    rfl
  | refuse e => exact nomatch h
  | perform s next ih =>
    rw [alone] at h
    cases hs : s.work (s.find db) db with
    | error e =>
      rw [hs] at h
      exact nomatch h
    | ok r =>
      rw [hs] at h
      exact (ih r.1 (hp.2 r.1) h).trans (hp.1 (s.find db) db r.1 r.2 hs)

theorem leaves_bind {p : Program σ κ ε α} {k : α → Program σ κ ε β} (hp : Leaves part p)
    (hk : ∀ a, Leaves part (k a)) : Leaves part (p >>= k) := by
  induction p with
  | done a => exact hk a
  | refuse e => trivial
  | perform s next ih => exact ⟨hp.1,fun b => ih b (hp.2 b)⟩

theorem leaves_read (f : σ → α) : Leaves part (read f : Program σ κ ε α) := by
  constructor
  · intro rows db b db' h
    cases h
    rfl
  · intro b
    trivial

theorem leaves_lock (find : σ → τ) (holds : τ → List κ) :
    Leaves part (lock find holds : Program σ κ ε τ) := by
  constructor
  · intro rows db b db' h
    cases h
    rfl
  · intro b
    trivial

theorem leaves_insert {keys : List κ} {free : σ → Bool} {e : ε} {into : σ → σ}
    (hinto : ∀ db, part (into db) = part db) :
    Leaves part (insert keys free e into) := by
  constructor
  · intro rows db b db' h
    simp only at h
    split at h
    · cases h
      exact hinto db
    · cases h
  · intro b
    trivial

theorem leaves_change {find : σ → List κ} {allowed : List κ → σ → Bool} {e : ε}
    {effect : List κ → σ → σ} (heffect : ∀ rows db, part (effect rows db) = part db) :
    Leaves part (change find allowed e effect) := by
  constructor
  · intro rows db b db' h
    simp only at h
    split at h
    · cases h
      exact heffect rows db
    · cases h
  · intro b
    trivial

theorem leaves_require (p : Prop) [Decidable p] (e : ε) :
    Leaves part (require p e : Program σ κ ε Unit) := by
  unfold require
  split <;> trivial

theorem leaves_ofExcept (x : Except ε α) : Leaves part (ofExcept x : Program σ κ ε α) := by
  cases x <;> trivial

theorem leaves_found (e : ε) (o : Option α) : Leaves part (found e o : Program σ κ ε α) := by
  cases o <;> trivial

end Frames

end Adg.Transactions
