import Adg.Loop
import Mathlib

/-!
# Strongly connected components by one depth-first pass

Tarjan's search with an explicit stack of frames, over any adjacency. The
search state is the usual one: discovery indices, low links, the component
stack, and frames that remember the next neighbor to look at. The invariant
is stated for states whose frames are all discovered; a freshly pushed node
is a pending state, one visit away from it.
-/

set_option autoImplicit false

namespace Adg.StronglyConnected
open Adg.Loop

structure Search (α : Type) where
  indexOf : α → Option ℕ
  lowLink : α → ℕ
  onStack : α → Bool
  componentStack : List α
  counter : ℕ
  components : List (List α)
  work : List (α × ℕ)

section Search
variable {α : Type}

def Search.empty : Search α where
  indexOf := fun _ => none
  lowLink := fun _ => 0
  onStack := fun _ => false
  componentStack := []
  counter := 0
  components := []
  work := []

namespace Search

def index (s : Search α) (x : α) : ℕ := (s.indexOf x).getD 0

def withWork (s : Search α) (work : List (α × ℕ)) : Search α := { s with work }

def gray (s : Search α) : List α := s.work.map Prod.fst

@[simp] theorem index_withWork (s : Search α) (W : List (α × ℕ)) :
    (s.withWork W).index = s.index := rfl

@[simp] theorem lowLink_withWork (s : Search α) (W : List (α × ℕ)) :
    (s.withWork W).lowLink = s.lowLink := rfl

@[simp] theorem gray_withWork (s : Search α) (W : List (α × ℕ)) :
    (s.withWork W).gray = W.map Prod.fst := rfl

variable [DecidableEq α]

/-- The first time a frame is taken up: number the node and stack it. -/
def visit (s : Search α) (node : α) : Search α :=
  { s with
    indexOf := Function.update s.indexOf node (some s.counter)
    lowLink := Function.update s.lowLink node s.counter
    counter := s.counter+1
    componentStack := node :: s.componentStack
    onStack := Function.update s.onStack node true }

def setLow (s : Search α) (node : α) (low : ℕ) : Search α :=
  { s with lowLink := Function.update s.lowLink node low }

def lower (s : Search α) (node : α) (bound : ℕ) : Search α :=
  s.setLow node (min (s.lowLink node) bound)

/-- Look at the remaining neighbors until one is undiscovered. -/
def scan (s : Search α) (node : α) : List α → ℕ → Search α × Option (ℕ × α)
  | [], _ => (s,none)
  | neighbor :: rest, next =>
    if s.indexOf neighbor = none then (s,some (next+1,neighbor))
    else if s.onStack neighbor then (s.lower node (s.index neighbor)).scan node rest (next+1)
    else s.scan node rest (next+1)

/-- The elements of a stack down to and including `node`, and what is below. -/
def splitAt (node : α) : List α → List α × List α
  | [] => ([],[])
  | x :: xs =>
    if x = node then ([x],xs)
    else
      let (above, below) := splitAt node xs
      (x::above,below)

def popComponent (s : Search α) (node : α) : Search α :=
  let (component, below) := splitAt node s.componentStack
  { s with
    componentStack := below
    onStack := component.foldl (fun on x => Function.update on x false) s.onStack
    components := s.components ++ [component] }

/-- The enclosing frame takes over the low link of a finished one. -/
def handUp (s : Search α) (node : α) : Search α :=
  match s.work with
  | [] => s
  | (parent, _) :: _ => s.lower parent (s.lowLink node)

/-- A node whose neighbors are exhausted leaves the frames. -/
def retire (s : Search α) (node : α) : Search α :=
  (if s.lowLink node = s.index node then s.popComponent node else s).handUp node

theorem handUp_nil {s : Search α} (h : s.work = []) (node : α) : s.handUp node = s := by
  simp [handUp, h]

theorem handUp_cons {s : Search α} {frame : α × ℕ} {W : List (α × ℕ)} (h : s.work = frame::W)
    (node : α) : s.handUp node = s.lower frame.1 (s.lowLink node) := by
  simp [handUp, h]

/-- Scan on from a frame in hand: push what is undiscovered, or retire. -/
def turn (adj : α → List α) (s : Search α) (node : α) (next : ℕ) : Search α :=
  match s.scan node ((adj node).drop next) next with
  | (s, some (next, neighbor)) => s.withWork ((neighbor,0)::(node,next)::s.work)
  | (s, none) => s.retire node

/-- One turn of the loop over frames. -/
def step (adj : α → List α) (s : Search α) : Option (Search α) :=
  match s.work with
  | [] => none
  | (node, next) :: below =>
    let s := s.withWork below
    some ((if next = 0 then s.visit node else s).turn adj node next)

/-- Search from one start unless it is already discovered. -/
def searchFrom (adj : α → List α) (fuel : ℕ) (s : Search α) (start : α) : Search α :=
  if (s.indexOf start).isSome then s
  else iterate (step adj) fuel { s with work := [(start,0)] }

def searchAll (adj : α → List α) (fuel : ℕ) (starts : List α) : Search α :=
  starts.foldl (searchFrom adj fuel) Search.empty

@[simp] theorem index_setLow (s : Search α) (x : α) (low : ℕ) :
    (s.setLow x low).index = s.index := rfl

end Search

end Search

section Graph
variable {α : Type} (adj : α → List α)

abbrev Reach (x y : α) : Prop := Relation.ReflTransGen (fun u v => v ∈ adj u) x y

def Mutual (x y : α) : Prop := Reach adj x y ∧ Reach adj y x

/-- A list that is exactly one class of mutually reachable nodes. -/
def IsComponent (C : List α) : Prop := C ≠ [] ∧ ∀ x ∈ C, ∀ y, y ∈ C ↔ Mutual adj x y

end Graph

section Invariant
variable {α : Type} [DecidableEq α] (adj : α → List α)

/-- The neighbors already looked at: a prefix while the node has a frame. -/
def processed (work : List (α × ℕ)) (z : α) : List α :=
  match work.find? (·.1 = z) with
  | none => adj z
  | some frame => (adj z).take frame.2

/-- No frame lies above `g` at or below `z` on the component stack. -/
def Held (s : Search α) (g z : α) : Prop :=
  s.index g ≤ s.index z ∧ ∀ g' ∈ s.gray, s.index g < s.index g' → s.index z < s.index g'

structure Inv (s : Search α) : Prop where
  discovered : ∀ x, s.indexOf x ≠ none ↔ x ∈ s.componentStack ∨ x ∈ s.components.flatten
  nodup : (s.components.flatten ++ s.componentStack).Nodup
  onStack : ∀ x, s.onStack x = true ↔ x ∈ s.componentStack
  index_lt : ∀ x ∈ s.componentStack, s.index x < s.counter
  stack_order : s.componentStack.Pairwise fun x y => s.index y < s.index x
  gray_order : s.gray.Pairwise fun x y => s.index y < s.index x
  gray_stack : ∀ g ∈ s.gray, g ∈ s.componentStack
  closed : ∀ z ∈ s.componentStack, ∀ y ∈ processed adj s.work z, s.indexOf y ≠ none
  components_closed : ∀ z ∈ s.components.flatten, ∀ y ∈ adj z, y ∈ s.components.flatten
  components_ok : ∀ C ∈ s.components, IsComponent adj C
  gray_reaches : ∀ g ∈ s.gray, ∀ y ∈ s.componentStack, s.index g ≤ s.index y → Reach adj g y
  reaches_gray : ∀ y ∈ s.componentStack, ∃ g ∈ s.gray, s.index g ≤ s.index y ∧ Reach adj y g
  low_le : ∀ g ∈ s.gray, s.lowLink g ≤ s.index g
  low_sound : ∀ g ∈ s.gray, ∃ y ∈ s.componentStack, s.index y = s.lowLink g ∧ Reach adj g y
  low_complete : ∀ g ∈ s.gray, ∀ z ∈ s.componentStack, Held s g z →
    ∀ y ∈ processed adj s.work z, y ∈ s.componentStack → s.lowLink g ≤ s.index y

variable {adj}

theorem processed_self (x : α) (i : ℕ) (W : List (α × ℕ)) :
    processed adj ((x,i)::W) x = (adj x).take i := by
  simp [processed]

theorem processed_other {x z : α} (h : z ≠ x) (i : ℕ) (W : List (α × ℕ)) :
    processed adj ((x,i)::W) z = processed adj W z := by
  simp [processed, Ne.symm h]

theorem processed_advance {x y z v : α} {i : ℕ} (W : List (α × ℕ)) (hy : (adj x)[i]? = some y)
    (hv : v ∈ processed adj ((x,i+1)::W) z) :
    v ∈ processed adj ((x,i)::W) z ∨ (z = x ∧ v = y) := by
  by_cases hz : z = x
  · subst hz
    rw [processed_self, List.take_add_one, hy] at hv
    rw [processed_self]
    simpa using hv
  · rw [processed_other hz] at hv ⊢
    exact .inl hv

theorem Inv.index_inj {s : Search α} (h : Inv adj s) {x y : α} (hx : x ∈ s.componentStack)
    (hy : y ∈ s.componentStack) (he : s.index x = s.index y) : x = y := by
  have hpair : s.componentStack.Pairwise fun x y => s.index x = s.index y → x = y :=
    h.stack_order.imp fun hlt heq => by omega
  have hflip : s.componentStack.Pairwise (flip fun x y => s.index x = s.index y → x = y) :=
    hpair.imp fun hab hba => (hab hba.symm).symm
  exact hpair.forall_of_forall_of_flip (fun _ _ _ => rfl) hflip hx hy he

theorem empty_inv : Inv adj (Search.empty : Search α) := by
  constructor <;> simp [Search.empty, Search.gray]

/-- A neighbor that was discovered earlier: the frame moves past it. -/
theorem advance_inv {s : Search α} {x y : α} {i : ℕ} {W : List (α × ℕ)} (low : ℕ)
    (h : Inv adj (s.withWork ((x,i)::W))) (hy : (adj x)[i]? = some y)
    (hd : s.indexOf y ≠ none)
    (hlow : low = s.lowLink x ∨ (y ∈ s.componentStack ∧ low = min (s.lowLink x) (s.index y)))
    (hbound : y ∈ s.componentStack → low ≤ s.index y) :
    Inv adj ((s.setLow x low).withWork ((x,i+1)::W)) := by
  have hle : low ≤ s.lowLink x := by rcases hlow with rfl | ⟨-,rfl⟩ <;> simp
  have hupdate (g : α) : Function.update s.lowLink x low g ≤ s.lowLink g := by
    by_cases hg : g = x
    · subst hg; simpa using hle
    · simp [hg]
  have hedge : Reach adj x y := Relation.ReflTransGen.single (List.mem_of_getElem? hy)
  refine ⟨h.discovered,h.nodup,h.onStack,h.index_lt,h.stack_order,h.gray_order,h.gray_stack,
    ?_,h.components_closed,h.components_ok,h.gray_reaches,h.reaches_gray,?_,?_,?_⟩
  · intro z hz v hv
    rcases processed_advance W hy hv with hv | ⟨-,rfl⟩
    · exact h.closed z hz v hv
    · exact hd
  · intro g hg
    exact (hupdate g).trans (h.low_le g hg)
  · intro g hg
    by_cases hgx : g = x
    · subst hgx
      have hself : ((s.setLow g low).withWork ((g,i+1)::W)).lowLink g = low := by
        simp [Search.setLow]
      rw [hself]
      rcases hlow with rfl | ⟨hstack,rfl⟩
      · exact h.low_sound g hg
      · rcases Nat.le_total (s.lowLink g) (s.index y) with hmin | hmin
        · rw [Nat.min_eq_left hmin]
          exact h.low_sound g hg
        · rw [Nat.min_eq_right hmin]
          exact ⟨y,hstack,rfl,hedge⟩
    · have hother : ((s.setLow x low).withWork ((x,i+1)::W)).lowLink g = s.lowLink g := by
        simp [Search.setLow, hgx]
      rw [hother]
      exact h.low_sound g hg
  · intro g hg z hz hheld v hv hvs
    rcases processed_advance W hy hv with hv | ⟨rfl,rfl⟩
    · exact (hupdate g).trans (h.low_complete g hg z hz hheld v hv hvs)
    · -- the new edge leaves the frame's own node, which only that frame holds
      have hz' : z ∈ (s.withWork ((z,i)::W)).gray := by simp
      have hgz : g = z := by
        by_contra hne
        rcases Nat.lt_or_ge (s.index g) (s.index z) with hlt | hge
        · exact absurd (hheld.2 z hz' hlt) (by simp)
        · exact hne (h.index_inj (h.gray_stack g hg) (h.gray_stack z hz')
            (Nat.le_antisymm hheld.1 hge))
      subst hgz
      have hself : ((s.setLow g low).withWork ((g,i+1)::W)).lowLink g = low := by
        simp [Search.setLow]
      rw [hself]
      exact hbound hvs

/-- Frames matter through their nodes and through what was processed. -/
theorem Inv.reframe {s : Search α} {W W' : List (α × ℕ)} (h : Inv adj (s.withWork W))
    (hg : W'.map Prod.fst = W.map Prod.fst)
    (hp : ∀ z, processed adj W' z = processed adj W z) : Inv adj (s.withWork W') := by
  have hgray : (s.withWork W').gray = (s.withWork W).gray := hg
  refine ⟨h.discovered,h.nodup,h.onStack,h.index_lt,h.stack_order,?_,?_,?_,
    h.components_closed,h.components_ok,?_,?_,?_,?_,?_⟩
  · rw [hgray]; exact h.gray_order
  · rw [hgray]; exact h.gray_stack
  · intro z hz y hy
    rw [Search.withWork, hp z] at hy
    exact h.closed z hz y hy
  · rw [hgray]; exact h.gray_reaches
  · rw [hgray]; exact h.reaches_gray
  · rw [hgray]; exact h.low_le
  · rw [hgray]; exact h.low_sound
  · intro g hgm z hz hheld y hy hys
    rw [hgray] at hgm
    rw [Search.withWork, hp z] at hy
    have hheld' : Held (s.withWork W) g z := ⟨hheld.1,fun g' hg' => hheld.2 g' (hgray ▸ hg')⟩
    exact h.low_complete g hgm z hz hheld' y hy hys

/-- Scanning keeps the invariant and stops at an undiscovered neighbor. -/
theorem scan_inv {s : Search α} {x : α} {W : List (α × ℕ)} (rest : List α) {i : ℕ}
    (h : Inv adj (s.withWork ((x,i)::W))) (hrest : rest = (adj x).drop i) :
    ∃ t : Search α, t.work = s.work ∧ t.indexOf = s.indexOf ∧
      ((s.scan x rest i = (t,none) ∧ Inv adj (t.withWork ((x,(adj x).length)::W))) ∨
        ∃ j c, s.scan x rest i = (t,some (j+1,c)) ∧ (adj x)[j]? = some c ∧
          t.indexOf c = none ∧ Inv adj (t.withWork ((x,j)::W))) := by
  induction rest generalizing s i with
  | nil =>
    refine ⟨s,rfl,rfl,.inl ⟨rfl,?_⟩⟩
    have hlen : (adj x).length ≤ i := List.drop_eq_nil_iff.mp hrest.symm
    refine h.reframe rfl fun z => ?_
    by_cases hz : z = x
    · rw [hz, processed_self, processed_self, List.take_of_length_le hlen, List.take_length]
    · rw [processed_other hz, processed_other hz]
  | cons y rest ih =>
    have hy : (adj x)[i]? = some y := by
      rw [← List.head?_drop, ← hrest]
      rfl
    have htail : rest = (adj x).drop (i+1) := by
      rw [← List.tail_drop, ← hrest]
      rfl
    by_cases hd : s.indexOf y = none
    · exact ⟨s,rfl,rfl,.inr ⟨i,y,by simp [Search.scan, hd],hy,hd,h⟩⟩
    · cases hon : s.onStack y with
      | true =>
        have hstack : y ∈ s.componentStack := (h.onStack y).mp hon
        have hnext := advance_inv _ h hy hd (.inr ⟨hstack,rfl⟩) (fun _ => Nat.min_le_right _ _)
        obtain ⟨t,hwork,hindex,hscan⟩ := ih hnext htail
        refine ⟨t,hwork,hindex,?_⟩
        simpa [Search.scan, hd, hon, Search.lower] using hscan
      | false =>
        have hstack : y ∉ s.componentStack := fun hin => by
          have htrue : s.onStack y = true := (h.onStack y).mpr hin
          rw [hon] at htrue
          cases htrue
        have hnext := advance_inv (s.lowLink x) h hy hd (.inl rfl)
          (fun hin => absurd hin hstack)
        have hsame : s.setLow x (s.lowLink x) = s := by simp [Search.setLow]
        rw [hsame] at hnext
        obtain ⟨t,hwork,hindex,hscan⟩ := ih hnext htail
        refine ⟨t,hwork,hindex,?_⟩
        simpa [Search.scan, hd, hon] using hscan

theorem visit_index_self (s : Search α) (c : α) : (s.visit c).index c = s.counter := by
  simp [Search.visit, Search.index]

theorem visit_index_other (s : Search α) {c x : α} (h : x ≠ c) :
    (s.visit c).index x = s.index x := by
  simp [Search.visit, Search.index, h]

/-- The frames of a pending node: none, or a parent whose next neighbor it is. -/
def Parents (adj : α → List α) (s : Search α) (c : α) (W : List (α × ℕ)) : Prop :=
  (s.work = [] ∧ W = []) ∨
    ∃ p i W', s.work = (p,i)::W' ∧ W = (p,i+1)::W' ∧ (adj p)[i]? = some c

omit [DecidableEq α] in
theorem parents_gray {s : Search α} {c : α} {W : List (α × ℕ)} (h : Parents adj s c W) :
    W.map Prod.fst = s.gray := by
  rcases h with ⟨hw,rfl⟩ | ⟨p,i,W',hw,rfl,-⟩ <;> simp [Search.gray, hw]

theorem parents_processed {s : Search α} {c z v : α} {W : List (α × ℕ)}
    (h : Parents adj s c W) (hv : v ∈ processed adj W z) :
    v ∈ processed adj s.work z ∨ v = c := by
  rcases h with ⟨hw,rfl⟩ | ⟨p,i,W',hw,rfl,hc⟩
  · rw [hw]
    exact .inl hv
  · rw [hw]
    exact (processed_advance W' hc hv).imp_right And.right

/-- Visiting a pending node turns it into the innermost frame. -/
theorem visit_inv {s : Search α} {c : α} {W : List (α × ℕ)} (h : Inv adj s)
    (hc : s.indexOf c = none) (hW : Parents adj s c W) :
    Inv adj ((s.visit c).withWork ((c,0)::W)) := by
  have hfresh : c ∉ s.componentStack ∧ c ∉ s.components.flatten := by
    have hnot : ¬ (c ∈ s.componentStack ∨ c ∈ s.components.flatten) :=
      fun hin => (h.discovered c).mpr hin hc
    exact not_or.mp hnot
  have hold {x : α} (hx : x ∈ s.componentStack) : x ≠ c := fun he => hfresh.1 (he ▸ hx)
  have hindex {x : α} (hx : x ∈ s.componentStack) : (s.visit c).index x = s.index x :=
    visit_index_other s (hold hx)
  have hlow {x : α} (hx : x ∈ s.componentStack) : (s.visit c).lowLink x = s.lowLink x := by
    simp [Search.visit, hold hx]
  have hself := visit_index_self s c
  have hlowself : (s.visit c).lowLink c = s.counter := by simp [Search.visit]
  have hgray : ((s.visit c).withWork ((c,0)::W)).gray = c :: s.gray := by
    rw [Search.gray_withWork, List.map_cons, parents_gray hW]
  have hstack : ((s.visit c).withWork ((c,0)::W)).componentStack = c :: s.componentStack := rfl
  have hprocessed {z v : α} (hz : z ∈ c :: s.componentStack)
      (hv : v ∈ processed adj ((c,0)::W) z) :
      z ∈ s.componentStack ∧ (v ∈ processed adj s.work z ∨ v = c) := by
    rcases List.mem_cons.mp hz with rfl | hz
    · rw [processed_self] at hv
      simp at hv
    · rw [processed_other (hold hz)] at hv
      exact ⟨hz,parents_processed hW hv⟩
  have hheld {g z : α} (hg : g ∈ s.gray) (hz : z ∈ s.componentStack)
      (hh : Held ((s.visit c).withWork ((c,0)::W)) g z) : Held s g z := by
    refine ⟨?_,fun g' hg' hlt => ?_⟩
    · have := hh.1
      rw [Search.index_withWork, hindex hz, hindex (h.gray_stack g hg)] at this
      exact this
    · have := hh.2 g' (by rw [hgray]; exact List.mem_cons_of_mem _ hg')
      rw [Search.index_withWork, hindex hz, hindex (h.gray_stack g hg),
        hindex (h.gray_stack g' hg')] at this
      exact this hlt
  have hreach {g : α} (hg : g ∈ s.gray) : Reach adj g c := by
    rcases hW with ⟨hw,-⟩ | ⟨p,i,W',hw,-,hi⟩
    · simp [Search.gray, hw] at hg
    · have hp : p ∈ s.gray := by simp [Search.gray, hw]
      have hle : s.index g ≤ s.index p := by
        have horder := h.gray_order
        rw [Search.gray, hw, List.map_cons] at horder hg
        rcases List.mem_cons.mp hg with rfl | hg
        · exact le_rfl
        · exact (List.rel_of_pairwise_cons horder hg).le
      exact (h.gray_reaches g hg p (h.gray_stack p hp) hle).tail (List.mem_of_getElem? hi)
  refine ⟨?_,?_,?_,?_,?_,?_,?_,?_,h.components_closed,h.components_ok,?_,?_,?_,?_,?_⟩
  · intro x
    rw [hstack, List.mem_cons, or_assoc]
    by_cases hx : x = c
    · simp [hx, Search.withWork, Search.visit]
    · have := h.discovered x
      simpa [hx, Search.withWork, Search.visit] using this
  · rw [hstack]
    refine (List.perm_middle.nodup_iff).mpr (List.nodup_cons.mpr ⟨?_,h.nodup⟩)
    rw [List.mem_append]
    exact not_or.mpr ⟨hfresh.2,hfresh.1⟩
  · intro x
    rw [hstack, List.mem_cons]
    by_cases hx : x = c
    · simp [hx, Search.withWork, Search.visit]
    · simpa [hx, Search.withWork, Search.visit] using h.onStack x
  · intro x hx
    rcases List.mem_cons.mp hx with rfl | hx
    · rw [Search.index_withWork, hself]
      exact Nat.lt_succ_self _
    · rw [Search.index_withWork, hindex hx]
      exact (h.index_lt x hx).trans (Nat.lt_succ_self _)
  · rw [hstack, List.pairwise_cons]
    refine ⟨fun x hx => ?_,h.stack_order.imp_of_mem fun {x y} hx hy hlt => ?_⟩
    · rw [Search.index_withWork, hself, hindex hx]
      exact h.index_lt x hx
    · rwa [Search.index_withWork, hindex hx, hindex hy]
  · rw [hgray, List.pairwise_cons]
    refine ⟨fun x hx => ?_,h.gray_order.imp_of_mem fun {x y} hx hy hlt => ?_⟩
    · rw [Search.index_withWork, hself, hindex (h.gray_stack x hx)]
      exact h.index_lt x (h.gray_stack x hx)
    · rwa [Search.index_withWork, hindex (h.gray_stack x hx), hindex (h.gray_stack y hy)]
  · rw [hgray, hstack]
    exact fun g hg => (List.mem_cons.mp hg).elim (fun he => by simp [he])
      fun hg => List.mem_cons_of_mem _ (h.gray_stack g hg)
  · intro z hz v hv
    have hgoal : Function.update s.indexOf c (some s.counter) v ≠ none := by
      by_cases hvc : v = c
      · simp [hvc]
      · obtain ⟨hz,hv | hv⟩ := hprocessed hz hv
        · simpa [hvc] using h.closed z hz v hv
        · exact absurd hv hvc
    exact hgoal
  · rw [hgray, hstack]
    intro g hg y hy hle
    rw [Search.index_withWork] at hle
    rcases List.mem_cons.mp hg with rfl | hgs
    · rcases List.mem_cons.mp hy with rfl | hys
      · exact .refl
      · rw [hself, hindex hys] at hle
        exact absurd (h.index_lt y hys) (Nat.not_lt.mpr hle)
    · rcases List.mem_cons.mp hy with rfl | hys
      · exact hreach hgs
      · rw [hindex hys, hindex (h.gray_stack g hgs)] at hle
        exact h.gray_reaches g hgs y hys hle
  · rw [hgray, hstack, Search.index_withWork]
    intro y hy
    rcases List.mem_cons.mp hy with rfl | hy
    · exact ⟨y,by simp,le_rfl,.refl⟩
    · obtain ⟨g,hg,hle,hr⟩ := h.reaches_gray y hy
      exact ⟨g,List.mem_cons_of_mem _ hg,by rwa [hindex hy, hindex (h.gray_stack g hg)],hr⟩
  · rw [hgray, Search.index_withWork, Search.lowLink_withWork]
    intro g hg
    rcases List.mem_cons.mp hg with rfl | hg
    · rw [hself, hlowself]
    · rw [hindex (h.gray_stack g hg), hlow (h.gray_stack g hg)]
      exact h.low_le g hg
  · rw [hgray, hstack, Search.index_withWork, Search.lowLink_withWork]
    intro g hg
    rcases List.mem_cons.mp hg with rfl | hg
    · exact ⟨g,by simp,by rw [hself, hlowself],.refl⟩
    · obtain ⟨y,hy,he,hr⟩ := h.low_sound g hg
      exact ⟨y,List.mem_cons_of_mem _ hy,by rwa [hindex hy, hlow (h.gray_stack g hg)],hr⟩
  · rw [hgray]
    intro g hg z hz hh v hv hvs
    obtain ⟨hzs,hv⟩ := hprocessed hz hv
    rcases List.mem_cons.mp hg with rfl | hgs
    · have := hh.1
      rw [Search.index_withWork, hself, hindex hzs] at this
      exact absurd (h.index_lt z hzs) (Nat.not_lt.mpr this)
    · rw [Search.lowLink_withWork, Search.index_withWork, hlow (h.gray_stack g hgs)]
      rcases List.mem_cons.mp hvs with rfl | hvss
      · rw [hself]
        exact (h.low_le g hgs).trans (h.index_lt g (h.gray_stack g hgs)).le
      · rcases hv with hv | rfl
        · rw [hindex hvss]
          exact h.low_complete g hgs z hzs (hheld hgs hzs hh) v hv hvss
        · exact absurd hvss hfresh.1

theorem splitAt_spec {x : α} {xs : List α} (h : x ∈ xs) :
    ∃ above below, Search.splitAt x xs = (above++[x],below) ∧ xs = above ++ x::below := by
  induction xs with
  | nil => cases h
  | cons y ys ih =>
    by_cases hy : y = x
    · subst hy
      exact ⟨[],ys,by simp [Search.splitAt],rfl⟩
    · have hx : x ∈ ys := (List.mem_cons.mp h).resolve_left fun he => hy he.symm
      obtain ⟨above,below,hsplit,hys⟩ := ih hx
      exact ⟨y::above,below,by simp [Search.splitAt, hy, hsplit],by simp [hys]⟩

theorem clear_foldl (component : List α) (on : α → Bool) (y : α) :
    component.foldl (fun on x => Function.update on x false) on y = true ↔
      on y = true ∧ y ∉ component := by
  induction component generalizing on with
  | nil => simp
  | cons x xs ih =>
    rw [List.foldl_cons, ih]
    by_cases hy : y = x <;> simp [hy]

section Retire
variable {s : Search α} {x : α}

/-- The frame in hand is the highest one. -/
theorem top_index (h : Inv adj (s.withWork ((x,(adj x).length)::s.work))) {g : α}
    (hg : g ∈ s.gray) : s.index g < s.index x := by
  have horder := h.gray_order
  rw [Search.gray_withWork, List.map_cons] at horder
  exact List.rel_of_pairwise_cons horder hg

/-- At and above the highest frame every neighbor has been looked at. -/
theorem top_processed (h : Inv adj (s.withWork ((x,(adj x).length)::s.work))) {z : α}
    (hle : s.index x ≤ s.index z) : processed adj ((x,(adj x).length)::s.work) z = adj z := by
  by_cases hz : z = x
  · rw [hz, processed_self, List.take_length]
  · rw [processed_other hz]
    have hnone : s.work.find? (·.1 = z) = none := by
      apply List.find?_eq_none.mpr
      intro frame hf hfz
      have hgz : z ∈ s.gray := List.mem_map.mpr ⟨frame,hf,by simpa using hfz⟩
      have := top_index h hgz
      omega
    simp [processed, hnone]

theorem top_held (h : Inv adj (s.withWork ((x,(adj x).length)::s.work))) {z : α}
    (hle : s.index x ≤ s.index z) : Held (s.withWork ((x,(adj x).length)::s.work)) x z := by
  refine ⟨hle,fun g hg hlt => ?_⟩
  rw [Search.gray_withWork, List.map_cons] at hg
  rw [Search.index_withWork] at hlt
  rcases List.mem_cons.mp hg with rfl | hgs
  · exact absurd hlt (lt_irrefl _)
  · have := top_index h hgs
    omega

/-- When the low link is the frame's own index, nothing above it leads below. -/
theorem root_closed (h : Inv adj (s.withWork ((x,(adj x).length)::s.work)))
    (hroot : s.lowLink x = s.index x) {z y : α} (hz : z ∈ s.componentStack)
    (hle : s.index x ≤ s.index z) (hr : Reach adj z y) :
    (y ∈ s.componentStack ∧ s.index x ≤ s.index y) ∨ y ∈ s.components.flatten := by
  induction hr with
  | refl => exact .inl ⟨hz,hle⟩
  | @tail u v _ hedge ih =>
    rcases ih with ⟨hu,hule⟩ | hu
    · have hv : v ∈ processed adj ((x,(adj x).length)::s.work) u := by
        rwa [top_processed h hule]
      rcases (h.discovered v).mp (h.closed u hu v hv) with hvs | hvc
      · left
        refine ⟨hvs,?_⟩
        have := h.low_complete x (by simp) u hu (top_held h hule) v hv hvs
        rw [Search.lowLink_withWork, Search.index_withWork, hroot] at this
        exact this
      · exact .inr hvc
    · exact .inr (h.components_closed u hu v hedge)

/-- Components already found hold nothing that is still on the stack. -/
theorem stack_fresh (h : Inv adj s) {y : α} (hy : y ∈ s.componentStack) :
    y ∉ s.components.flatten := fun hc =>
  (List.nodup_append.mp h.nodup).2.2 y hc y hy rfl

theorem root_component (h : Inv adj (s.withWork ((x,(adj x).length)::s.work)))
    (hroot : s.lowLink x = s.index x) {z y : α} (hz : z ∈ s.componentStack)
    (hle : s.index x ≤ s.index z) :
    (y ∈ s.componentStack ∧ s.index x ≤ s.index y) ↔ Mutual adj z y := by
  have hxgray : x ∈ (s.withWork ((x,(adj x).length)::s.work)).gray := by simp
  have hto {u : α} (hu : u ∈ s.componentStack) (hule : s.index x ≤ s.index u) :
      Reach adj u x := by
    obtain ⟨g,hg,hgle,hr⟩ := h.reaches_gray u hu
    rcases root_closed h hroot hu hule hr with ⟨-,hgx⟩ | hgc
    · rw [Search.gray_withWork, List.map_cons] at hg
      rcases List.mem_cons.mp hg with rfl | hgs
      · exact hr
      · have := top_index h hgs
        omega
    · exact absurd hgc (stack_fresh h (h.gray_stack g hg))
  constructor
  · rintro ⟨hy,hyle⟩
    exact ⟨(hto hz hle).trans (h.gray_reaches x hxgray y hy hyle),
      (hto hy hyle).trans (h.gray_reaches x hxgray z hz hle)⟩
  · rintro ⟨hzy,hyz⟩
    rcases root_closed h hroot hz hle hzy with hin | hyc
    · exact hin
    · -- a finished component would already contain the whole class
      obtain ⟨C,hC,hyC⟩ := List.mem_flatten.mp hyc
      have hzC : z ∈ C := ((h.components_ok C hC).2 y hyC z).mpr ⟨hyz,hzy⟩
      exact absurd (List.mem_flatten.mpr ⟨C,hC,hzC⟩) (stack_fresh h hz)

/-- The stack divides at the frame's index: its segment, and what is below. -/
theorem segment (h : Inv adj (s.withWork ((x,(adj x).length)::s.work))) :
    ∃ component below, Search.splitAt x s.componentStack = (component,below) ∧
      s.componentStack = component ++ below ∧ component ≠ [] ∧
      (∀ y, y ∈ component ↔ y ∈ s.componentStack ∧ s.index x ≤ s.index y) ∧
      ∀ y ∈ below, y ∈ s.componentStack ∧ s.index y < s.index x := by
  have hxs : x ∈ s.componentStack := h.gray_stack x (by simp)
  obtain ⟨above,below,hsplit,hstack⟩ := splitAt_spec hxs
  have horder : (above ++ x::below).Pairwise fun u v => s.index v < s.index u :=
    hstack ▸ h.stack_order
  have habove {u : α} (hu : u ∈ above) : s.index x < s.index u :=
    (List.pairwise_append.mp horder).2.2 u hu x (by simp)
  have hbelow {u : α} (hu : u ∈ below) : s.index u < s.index x :=
    List.rel_of_pairwise_cons (List.pairwise_append.mp horder).2.1 hu
  refine ⟨above++[x],below,hsplit,by simp [hstack],by simp,fun y => ?_,fun y hy => ?_⟩
  · rw [hstack]
    constructor
    · intro hy
      rcases List.mem_append.mp hy with hy | hy
      · exact ⟨by simp [hy],(habove hy).le⟩
      · rw [List.mem_singleton.mp hy]
        simp
    · rintro ⟨hy,hle⟩
      rcases List.mem_append.mp hy with hy | hy
      · simp [hy]
      · rcases List.mem_cons.mp hy with rfl | hy
        · simp
        · exact absurd (hbelow hy) (Nat.not_lt.mpr hle)
  · exact ⟨by simp [hstack, hy],hbelow hy⟩

/-- A root's segment of the stack leaves it as one component. -/
theorem pop_inv (h : Inv adj (s.withWork ((x,(adj x).length)::s.work)))
    (hroot : s.lowLink x = s.index x) : Inv adj (s.popComponent x) := by
  obtain ⟨component,below,hsplit,hstack,hne,hcomponent,hbelow⟩ := segment h
  have hdiscovered : ∀ y, s.indexOf y ≠ none ↔
      y ∈ s.componentStack ∨ y ∈ s.components.flatten := h.discovered
  have honStack : ∀ y, s.onStack y = true ↔ y ∈ s.componentStack := h.onStack
  have hnodup : (s.components.flatten ++ s.componentStack).Nodup := h.nodup
  have hmem (y : α) : y ∈ s.componentStack ↔ y ∈ component ∨ y ∈ below := by
    rw [hstack, List.mem_append]
  have hgray {g : α} (hg : g ∈ s.gray) :
      g ∈ (s.withWork ((x,(adj x).length)::s.work)).gray := by
    rw [Search.gray_withWork, List.map_cons]
    exact List.mem_cons_of_mem _ hg
  have hother {z : α} (hz : z ∈ below) : processed adj ((x,(adj x).length)::s.work) z =
      processed adj s.work z := by
    have hzx : z ≠ x := by
      rintro rfl
      exact lt_irrefl _ (hbelow z hz).2
    exact processed_other hzx _ _
  have hpop : s.popComponent x = { s with
      componentStack := below
      onStack := component.foldl (fun on x => Function.update on x false) s.onStack
      components := s.components ++ [component] } := by
    simp [Search.popComponent, hsplit]
  have hflat (y : α) : y ∈ (s.components ++ [component]).flatten ↔
      y ∈ s.components.flatten ∨ y ∈ component := by simp
  rw [hpop]
  refine ⟨fun y => ?_,?_,fun y => ?_,fun y hy => h.index_lt y (hbelow y hy).1,?_,?_,
    fun g hg => ?_,fun z hz y hy => ?_,fun z hz y hy => ?_,fun C hC => ?_,
    fun g hg y hy hle => h.gray_reaches g (hgray hg) y (hbelow y hy).1 hle,fun y hy => ?_,
    fun g hg => h.low_le g (hgray hg),fun g hg => ?_,fun g hg z hz hheld y hy hys => ?_⟩
  · change s.indexOf y ≠ none ↔ y ∈ below ∨ y ∈ (s.components ++ [component]).flatten
    rw [hflat, hdiscovered, hmem]
    tauto
  · change ((s.components ++ [component]).flatten ++ below).Nodup
    rw [hstack] at hnodup
    simpa using hnodup
  · change component.foldl (fun on x => Function.update on x false) s.onStack y = true ↔ y ∈ below
    rw [clear_foldl, honStack, hmem]
    constructor
    · rintro ⟨hy | hy,hn⟩
      · exact absurd hy hn
      · exact hy
    · intro hy
      refine ⟨.inr hy,fun hc => ?_⟩
      have := ((hcomponent y).mp hc).2
      have := (hbelow y hy).2
      omega
  · have horder := h.stack_order
    change s.componentStack.Pairwise _ at horder
    rw [hstack] at horder
    exact (List.pairwise_append.mp horder).2.1
  · have horder := h.gray_order
    rw [Search.gray_withWork, List.map_cons] at horder
    exact (List.pairwise_cons.mp horder).2
  · rcases (hmem g).mp (h.gray_stack g (hgray hg)) with hc | hb
    · have := ((hcomponent g).mp hc).2
      have := top_index h hg
      omega
    · exact hb
  · exact h.closed z (hbelow z hz).1 y (by rwa [← hother hz] at hy)
  · rw [hflat] at hz ⊢
    rcases hz with hz | hz
    · exact .inl (h.components_closed z hz y hy)
    · obtain ⟨hzs,hle⟩ := (hcomponent z).mp hz
      rcases root_closed h hroot hzs hle (Relation.ReflTransGen.single hy) with hin | hin
      · exact .inr ((hcomponent y).mpr hin)
      · exact .inl hin
  · rcases List.mem_append.mp hC with hC | hC
    · exact h.components_ok C hC
    · rw [List.mem_singleton.mp hC]
      refine ⟨hne,fun z hz y => ?_⟩
      obtain ⟨hzs,hle⟩ := (hcomponent z).mp hz
      rw [hcomponent]
      exact root_component h hroot hzs hle
  · obtain ⟨g,hg,hle,hr⟩ := h.reaches_gray y (hbelow y hy).1
    rw [Search.gray_withWork, List.map_cons] at hg
    rcases List.mem_cons.mp hg with rfl | hgs
    · have := (hbelow y hy).2
      rw [Search.index_withWork] at hle
      omega
    · exact ⟨g,hgs,hle,hr⟩
  · obtain ⟨y,hy,he,hr⟩ := h.low_sound g (hgray hg)
    rw [Search.index_withWork, Search.lowLink_withWork] at he
    rcases (hmem y).mp hy with hc | hb
    · have hlow := h.low_le g (hgray hg)
      rw [Search.index_withWork, Search.lowLink_withWork] at hlow
      have := ((hcomponent y).mp hc).2
      have := top_index h hg
      omega
    · exact ⟨y,hb,he,hr⟩
  · have hzx := (hbelow z hz).2
    refine h.low_complete g (hgray hg) z (hbelow z hz).1 ⟨hheld.1,fun g' hg' hlt => ?_⟩ y
      (by rwa [← hother hz] at hy) (hbelow y hys).1
    rw [Search.gray_withWork, List.map_cons] at hg'
    rcases List.mem_cons.mp hg' with rfl | hgs
    · exact hzx
    · exact hheld.2 g' hgs hlt

/-- A frame that is no root reaches a frame below it. -/
theorem reaches_lower (h : Inv adj (s.withWork ((x,(adj x).length)::s.work)))
    (hlow : s.lowLink x < s.index x) :
    ∃ g ∈ s.gray, s.index g < s.index x ∧ Reach adj x g := by
  obtain ⟨y,hy,he,hr⟩ := h.low_sound x (by simp)
  obtain ⟨g,hg,hle,hyg⟩ := h.reaches_gray y hy
  rw [Search.index_withWork, Search.lowLink_withWork] at he
  rw [Search.index_withWork] at hle
  rw [Search.gray_withWork, List.map_cons] at hg
  rcases List.mem_cons.mp hg with rfl | hgs
  · omega
  · exact ⟨g,hgs,by omega,hr.trans hyg⟩

/-- A frame that is no root stays on the stack, and its parent takes over
what it held. -/
theorem hand_over_inv {p : α} {i : ℕ} {W : List (α × ℕ)}
    (h : Inv adj (s.withWork ((x,(adj x).length)::s.work))) (hW : s.work = (p,i)::W)
    (hlow : s.lowLink x < s.index x) : Inv adj (s.lower p (s.lowLink x)) := by
  have hgray {g : α} (hg : g ∈ s.gray) :
      g ∈ (s.withWork ((x,(adj x).length)::s.work)).gray := by
    rw [Search.gray_withWork, List.map_cons]
    exact List.mem_cons_of_mem _ hg
  have hp : p ∈ s.gray := by simp [Search.gray, hW]
  have hxgray : x ∈ (s.withWork ((x,(adj x).length)::s.work)).gray := by simp
  have hxs : x ∈ s.componentStack := h.gray_stack x hxgray
  have hxframe : x ∉ s.gray := fun hx => lt_irrefl _ (top_index h hx)
  have hprocessed (z : α) : processed adj s.work z =
      processed adj ((x,(adj x).length)::s.work) z := by
    by_cases hz : z = x
    · have hnone : s.work.find? (·.1 = z) = none := by
        apply List.find?_eq_none.mpr
        intro frame hf hfz
        exact hxframe (List.mem_map.mpr ⟨frame,hf,by simpa [hz] using hfz⟩)
      rw [processed, hnone, hz, processed_self, List.take_length]
    · rw [processed_other hz]
  have hle (g : α) : (s.lower p (s.lowLink x)).lowLink g ≤ s.lowLink g := by
    by_cases hg : g = p
    · simp [Search.lower, Search.setLow, hg]
    · simp [Search.lower, Search.setLow, hg]
  have hparent : (s.lower p (s.lowLink x)).lowLink p = min (s.lowLink p) (s.lowLink x) := by
    simp [Search.lower, Search.setLow]
  have hother {g : α} (hg : g ≠ p) : (s.lower p (s.lowLink x)).lowLink g = s.lowLink g := by
    simp [Search.lower, Search.setLow, hg]
  refine ⟨h.discovered,h.nodup,h.onStack,h.index_lt,h.stack_order,?_,fun g hg =>
    h.gray_stack g (hgray hg),fun z hz y hy => ?_,h.components_closed,h.components_ok,
    fun g hg => h.gray_reaches g (hgray hg),fun y hy => ?_,fun g hg =>
    (hle g).trans (h.low_le g (hgray hg)),fun g hg => ?_,fun g hg z hz hheld y hy hys => ?_⟩
  · have horder := h.gray_order
    rw [Search.gray_withWork, List.map_cons] at horder
    exact (List.pairwise_cons.mp horder).2
  · exact h.closed z hz y (by rwa [Search.withWork, ← hprocessed])
  · obtain ⟨g,hg,hgle,hr⟩ := h.reaches_gray y hy
    rw [Search.index_withWork] at hgle
    rw [Search.gray_withWork, List.map_cons] at hg
    rcases List.mem_cons.mp hg with rfl | hgs
    · obtain ⟨g',hg',hlt,hxg⟩ := reaches_lower h hlow
      exact ⟨g',hg',hlt.le.trans hgle,hr.trans hxg⟩
    · exact ⟨g,hgs,hgle,hr⟩
  · by_cases hgp : g = p
    · subst hgp
      rw [hparent]
      rcases Nat.le_total (s.lowLink g) (s.lowLink x) with hmin | hmin
      · rw [Nat.min_eq_left hmin]
        exact h.low_sound g (hgray hg)
      · rw [Nat.min_eq_right hmin]
        obtain ⟨y,hy,he,hr⟩ := h.low_sound x hxgray
        exact ⟨y,hy,he,(h.gray_reaches g (hgray hg) x hxs (top_index h hg).le).trans hr⟩
    · rw [hother hgp]
      exact h.low_sound g (hgray hg)
  · change z ∈ s.componentStack at hz
    change y ∈ s.componentStack at hys
    change y ∈ processed adj s.work z at hy
    rw [hprocessed] at hy
    by_cases hzx : s.index x ≤ s.index z
    · -- what the finished frame held is now held by the parent, the next frame below
      have hgp : g = p := by
        by_contra hne
        have horder := h.gray_order
        rw [Search.gray_withWork, List.map_cons, hW, List.map_cons] at horder
        have hgW : g ∈ W.map Prod.fst := by
          have : g ∈ s.gray := hg
          rw [Search.gray, hW, List.map_cons] at this
          exact (List.mem_cons.mp this).resolve_left hne
        have hlt : s.index g < s.index p :=
          List.rel_of_pairwise_cons (List.pairwise_cons.mp horder).2 hgW
        have hzp : s.index z < s.index p := hheld.2 p hp hlt
        have := top_index h hp
        omega
      subst hgp
      rw [hparent]
      exact (Nat.min_le_right _ _).trans (h.low_complete x hxgray z hz (top_held h hzx) y hy hys)
    · refine (hle g).trans (h.low_complete g (hgray hg) z hz ⟨hheld.1,fun g' hg' hlt => ?_⟩ y hy hys)
      rw [Search.gray_withWork, List.map_cons] at hg'
      rcases List.mem_cons.mp hg' with rfl | hgs
      · rw [Search.index_withWork]
        omega
      · exact hheld.2 g' hgs hlt

theorem lower_same {p : α} (bound : ℕ) (h : s.lowLink p ≤ bound) : s.lower p bound = s := by
  simp [Search.lower, Search.setLow, Nat.min_eq_left h]

/-- Retiring the highest frame keeps the invariant. -/
theorem retire_inv (h : Inv adj (s.withWork ((x,(adj x).length)::s.work))) :
    Inv adj (s.retire x) := by
  have hle : s.lowLink x ≤ s.index x := h.low_le x (by simp)
  unfold Search.retire
  by_cases hroot : s.lowLink x = s.index x
  · rw [if_pos hroot]
    have hpop := pop_inv h hroot
    cases hW : (s.popComponent x).work with
    | nil => rwa [Search.handUp_nil hW]
    | cons frame W =>
      -- the popped root's low link is above its parent's, so nothing is lowered
      have hwork : s.work = frame::W := hW
      have hp : frame.1 ∈ s.gray := by simp [Search.gray, hwork]
      have hlt := top_index h hp
      have hlow : s.lowLink frame.1 ≤ s.index frame.1 := h.low_le frame.1 (by
        rw [Search.gray_withWork, List.map_cons]
        exact List.mem_cons_of_mem _ hp)
      have hkeep : (s.popComponent x).lowLink frame.1 ≤ (s.popComponent x).lowLink x := by
        change s.lowLink frame.1 ≤ s.lowLink x
        omega
      rwa [Search.handUp_cons hW, lower_same _ hkeep]
  · rw [if_neg hroot]
    have hlow : s.lowLink x < s.index x := lt_of_le_of_ne hle hroot
    cases hW : s.work with
    | nil =>
      obtain ⟨g,hg,-⟩ := reaches_lower h hlow
      simp [Search.gray, hW] at hg
    | cons frame W =>
      rw [Search.handUp_cons hW]
      exact hand_over_inv h hW hlow

end Retire

theorem retire_work (s : Search α) (x : α) : (s.retire x).work = s.work := by
  unfold Search.retire Search.handUp
  split <;> split <;> rfl

theorem retire_indexOf (s : Search α) (x : α) : (s.retire x).indexOf = s.indexOf := by
  unfold Search.retire Search.handUp
  split <;> split <;> rfl

end Invariant

section Run
variable {α : Type} [DecidableEq α] {adj : α → List α}

/-- A node that was discovered or waits in a frame. -/
def Met (s : Search α) (v : α) : Prop := s.indexOf v ≠ none ∨ v ∈ s.gray

/-- Every frame but a fresh one has looked at a neighbor. -/
def Resumed (W : List (α × ℕ)) : Prop := ∀ frame ∈ W, 1 ≤ frame.2

/-- A state between turns: settled, or one visit away from it. -/
inductive Between (adj : α → List α) : Search α → Prop where
  | settled {s : Search α} (h : Inv adj s) (hr : Resumed s.work) : Between adj s
  | pending {s : Search α} {c : α} {W : List (α × ℕ)} (h : Inv adj s) (hc : s.indexOf c = none)
      (hW : Parents adj s c W) (hr : Resumed W) : Between adj (s.withWork ((c,0)::W))

/-- What a turn leaves: a new pending neighbor, or one frame less. -/
theorem turn_cases {s : Search α} {x : α} {i : ℕ} (h : Inv adj (s.withWork ((x,i)::s.work)))
    (hr : Resumed s.work) :
    Between adj (s.turn adj x i) ∧ (s.turn adj x i).indexOf = s.indexOf ∧
      ((s.turn adj x i).work = s.work ∨
        ∃ j c, (s.turn adj x i).work = (c,0)::(x,j+1)::s.work ∧ c ∈ adj x ∧
          s.indexOf c = none) := by
  obtain ⟨t,hwork,hindex,⟨hscan,hinv⟩ | ⟨j,c,hscan,hj,hc,hinv⟩⟩ := scan_inv _ h rfl
  · have hturn : s.turn adj x i = t.retire x := by simp [Search.turn, hscan]
    rw [← hwork] at hinv
    rw [hturn, retire_indexOf, retire_work]
    refine ⟨.settled (retire_inv hinv) ?_,hindex,.inl hwork⟩
    rw [retire_work, hwork]
    exact hr
  · have hturn : s.turn adj x i = t.withWork ((c,0)::(x,j+1)::t.work) := by
      simp [Search.turn, hscan]
    rw [hturn, hwork]
    refine ⟨?_,hindex,.inr ⟨j,c,rfl,List.mem_of_getElem? hj,by rw [← hindex]; exact hc⟩⟩
    have hparents : Parents adj (t.withWork ((x,j)::s.work)) c ((x,j+1)::s.work) :=
      .inr ⟨x,j,s.work,rfl,rfl,hj⟩
    have hresumed : Resumed ((x,j+1)::s.work) := by
      intro frame hf
      rcases List.mem_cons.mp hf with rfl | hf
      · exact Nat.le_add_left 1 j
      · exact hr frame hf
    have hpending : Between adj
        ((t.withWork ((x,j)::s.work)).withWork ((c,0)::(x,j+1)::s.work)) :=
      .pending hinv hc hparents hresumed
    exact hpending

/-- Taking up a frame leaves it in hand, discovered, with the invariant. -/
theorem taken_up {s s' : Search α} (h : Between adj s) (hs : s.step adj = some s') :
    ∃ (x : α) (i : ℕ) (W : List (α × ℕ)) (t : Search α),
      s.work = (x,i)::W ∧ s' = t.turn adj x i ∧ t.work = W ∧ Resumed W ∧
      Inv adj (t.withWork ((x,i)::W)) ∧
      (∀ v, t.indexOf v ≠ none ↔ s.indexOf v ≠ none ∨ v = x) := by
  cases h with
  | @settled s hinv hr =>
    unfold Search.step at hs
    split at hs
    · cases hs
    · next x i W hw =>
      rw [hw] at hr
      have hi : i ≠ 0 := by
        have := hr (x,i) (by simp)
        exact Nat.one_le_iff_ne_zero.mp this
      simp only [if_neg hi] at hs
      have hself : (s.withWork W).withWork ((x,i)::W) = s := by
        simp [Search.withWork, ← hw]
      have hx : s.indexOf x ≠ none :=
        (hinv.discovered x).mpr (.inl (hinv.gray_stack x (by simp [Search.gray, hw])))
      refine ⟨x,i,W,s.withWork W,hw,(Option.some.inj hs).symm,rfl,
        fun f hf => hr f (List.mem_cons_of_mem _ hf),by rwa [hself],fun v => ?_⟩
      exact ⟨.inl,fun hv => hv.elim id fun he => he ▸ hx⟩
  | @pending s c W hinv hc hW hr =>
    have hvisit : Inv adj ((s.visit c).withWork ((c,0)::W)) := visit_inv hinv hc hW
    refine ⟨c,0,W,(s.withWork W).visit c,rfl,(Option.some.inj hs).symm,rfl,hr,hvisit,
      fun v => ?_⟩
    by_cases hv : v = c
    · simp [hv, Search.visit]
    · simp [hv, Search.visit, Search.withWork]

theorem step_between {s s' : Search α} (h : Between adj s) (hs : s.step adj = some s') :
    Between adj s' := by
  obtain ⟨x,i,W,t,-,rfl,rfl,hr,hinv,-⟩ := taken_up h hs
  exact (turn_cases hinv hr).1

/-- A step meets the frame's neighbors at most, and forgets nothing. -/
theorem step_met {s s' : Search α} (h : Between adj s) (hs : s.step adj = some s') (v : α) :
    (Met s v → Met s' v) ∧ (Met s' v → Met s v ∨ ∃ x, Met s x ∧ v ∈ adj x) := by
  obtain ⟨x,i,W,t,hw,rfl,rfl,hr,hinv,hdisc⟩ := taken_up h hs
  obtain ⟨-,hindex,hcases⟩ := turn_cases hinv hr
  have hx : Met s x := .inr (by simp [Search.gray, hw])
  constructor
  · intro hv
    rw [Met, hindex, hdisc]
    rcases hv with hv | hv
    · exact .inl (.inl hv)
    · rw [Search.gray, hw, List.map_cons] at hv
      rcases List.mem_cons.mp hv with he | hv
      · exact .inl (.inr he)
      · right
        rcases hcases with hwork | ⟨j,c,hwork,-⟩
        · rwa [Search.gray, hwork]
        · rw [Search.gray, hwork]
          simp only [List.map_cons]
          exact List.mem_cons_of_mem _ (List.mem_cons_of_mem _ hv)
  · rw [Met, hindex, hdisc]
    rintro ((hv | rfl) | hv)
    · exact .inl (.inl hv)
    · exact .inl hx
    · have hold {u : α} (hu : u ∈ t.work.map Prod.fst) : Met s u := by
        right
        rw [Search.gray, hw, List.map_cons]
        exact List.mem_cons_of_mem _ hu
      rcases hcases with hwork | ⟨j,c,hwork,hc,-⟩
      · rw [Search.gray, hwork] at hv
        exact .inl (hold hv)
      · rw [Search.gray, hwork] at hv
        simp only [List.map_cons, List.mem_cons] at hv
        rcases hv with rfl | rfl | hv
        · exact .inr ⟨x,hx,hc⟩
        · exact .inl hx
        · exact .inl (hold hv)

section Bounded
variable {V : List α}

/-- The nodes still to be met, counted twice, and the frames. -/
noncomputable def remaining (V : List α) (s : Search α) : ℕ := by
  classical
  exact 2*(V.toFinset.filter fun v => ¬ Met s v).card + s.work.length

theorem step_remaining (hV : ∀ x ∈ V, ∀ y ∈ adj x, y ∈ V) {s s' : Search α}
    (h : Between adj s) (hmet : ∀ v, Met s v → v ∈ V) (hs : s.step adj = some s') :
    remaining V s' < remaining V s := by
  classical
  have hmono : (V.toFinset.filter fun v => ¬ Met s' v) ⊆ V.toFinset.filter fun v => ¬ Met s v := by
    intro v hv
    simp only [Finset.mem_filter] at hv ⊢
    exact ⟨hv.1,fun hm => hv.2 ((step_met h hs v).1 hm)⟩
  have hle := Finset.card_le_card hmono
  obtain ⟨x,i,W,t,hw,rfl,rfl,hr,hinv,hdisc⟩ := taken_up h hs
  obtain ⟨-,hindex,hcases⟩ := turn_cases hinv hr
  unfold remaining
  rcases hcases with hwork | ⟨j,c,hwork,hc,hcn⟩
  · rw [hwork, hw]
    simp only [List.length_cons]
    omega
  · have hx : Met s x := .inr (by simp [Search.gray, hw])
    have hnot : ¬ Met s c := by
      rintro (hd | hg)
      · exact (hdisc c).mpr (.inl hd) hcn
      · rw [Search.gray, hw, List.map_cons] at hg
        have hgray : c ∈ (t.withWork ((x,i)::t.work)).gray := hg
        exact (hinv.discovered c).mpr (.inl (hinv.gray_stack c hgray)) hcn
    have hnew : Met (t.turn adj x i) c := .inr (by rw [Search.gray, hwork]; simp)
    have hlt : (V.toFinset.filter fun v => ¬ Met (t.turn adj x i) v).card <
        (V.toFinset.filter fun v => ¬ Met s v).card := by
      apply Finset.card_lt_card
      refine (Finset.ssubset_iff_of_subset hmono).mpr ⟨c,?_,?_⟩
      · simp only [Finset.mem_filter, List.mem_toFinset]
        exact ⟨hV x (hmet x hx) c hc,hnot⟩
      · simp [hnew]
    rw [hwork, hw]
    simp only [List.length_cons]
    omega

/-- The state between two starts. -/
structure Idle (adj : α → List α) (V : List α) (s : Search α) : Prop where
  inv : Inv adj s
  work_nil : s.work = []
  bounded : ∀ v, s.indexOf v ≠ none → v ∈ V

/-- What one loop maintains from its start on. -/
structure Running (adj : α → List α) (V known : List α) (s : Search α) : Prop where
  between : Between adj s
  bounded : ∀ v, Met s v → v ∈ V
  met : ∀ v ∈ known, Met s v

theorem running_step (hV : ∀ x ∈ V, ∀ y ∈ adj x, y ∈ V) {known : List α} (s s' : Search α)
    (h : Running adj V known s) (hs : s.step adj = some s') : Running adj V known s' := by
  refine ⟨step_between h.between hs,fun v hv => ?_,fun v hv =>
    (step_met h.between hs v).1 (h.met v hv)⟩
  rcases (step_met h.between hs v).2 hv with hold | ⟨x,hx,hvx⟩
  · exact h.bounded v hold
  · exact hV x (h.bounded x hx) v hvx

theorem running_ends {known : List α} {s : Search α} (h : Running adj V known s)
    (hend : Finished (Search.step adj) s) :
    Idle adj V s ∧ ∀ v ∈ known, s.indexOf v ≠ none := by
  have hbetween := h.between
  cases hbetween with
  | settled hinv hr =>
    have hwork : s.work = [] := by
      cases hw : s.work with
      | nil => rfl
      | cons frame W => simp [Finished, Search.step, hw] at hend
    refine ⟨⟨hinv,hwork,fun v hv => h.bounded v (.inl hv)⟩,fun v hv => ?_⟩
    rcases h.met v hv with hd | hg
    · exact hd
    · simp [Search.gray, hwork] at hg
  | pending hinv hc hW hr => simp [Finished, Search.step, Search.withWork] at hend

theorem remaining_start (s : Search α) (x : α) :
    remaining V (s.withWork [(x,0)]) ≤ 2*V.length+1 := by
  classical
  have hcard : (V.toFinset.filter fun v => ¬ Met (s.withWork [(x,0)]) v).card ≤ V.length :=
    (Finset.card_filter_le _ _).trans (List.toFinset_card_le V)
  unfold remaining
  simp only [Search.withWork, List.length_singleton] at hcard ⊢
  omega

/-- One start: the search is idle again, and the start is discovered. -/
theorem searchFrom_spec (hV : ∀ x ∈ V, ∀ y ∈ adj x, y ∈ V) {s : Search α} {x : α}
    {known : List α} (h : Idle adj V s) (hx : x ∈ V)
    (hknown : ∀ v ∈ known, s.indexOf v ≠ none) :
    Idle adj V (s.searchFrom adj (2*V.length+1) x) ∧
      ∀ v ∈ x::known, (s.searchFrom adj (2*V.length+1) x).indexOf v ≠ none := by
  unfold Search.searchFrom
  by_cases hd : (s.indexOf x).isSome = true
  · rw [if_pos hd]
    refine ⟨h,fun v hv => ?_⟩
    rcases List.mem_cons.mp hv with rfl | hv
    · exact Option.isSome_iff_ne_none.mp hd
    · exact hknown v hv
  · rw [if_neg hd]
    have hnone : s.indexOf x = none := by simpa using hd
    have hstart : Running adj V (x::known) (s.withWork [(x,0)]) := by
      refine ⟨.pending h.inv hnone (.inl ⟨h.work_nil,rfl⟩) (by simp [Resumed]),fun v hv => ?_,
        fun v hv => ?_⟩
      · rcases hv with hv | hv
        · exact h.bounded v hv
        · simp at hv
          exact hv ▸ hx
      · rcases List.mem_cons.mp hv with rfl | hv
        · exact .inr (by simp)
        · exact .inl (hknown v hv)
    have hend := iterate_ends (remaining V) (running_step hV)
      (fun t t' ht hs => step_remaining hV ht.between ht.bounded hs) hstart
      (remaining_start s x)
    exact running_ends (iterate_invariant (running_step hV) _ hstart) hend

theorem searchAll_idle (hV : ∀ x ∈ V, ∀ y ∈ adj x, y ∈ V) (starts : List α) (hs : ∀ x ∈ starts, x ∈ V)
    {s : Search α} {known : List α} (h : Idle adj V s)
    (hknown : ∀ v ∈ known, s.indexOf v ≠ none) :
    Idle adj V (starts.foldl (Search.searchFrom adj (2*V.length+1)) s) ∧
      ∀ v, v ∈ starts ∨ v ∈ known →
        (starts.foldl (Search.searchFrom adj (2*V.length+1)) s).indexOf v ≠ none := by
  induction starts generalizing s known with
  | nil => exact ⟨h,fun v hv => hknown v (by simpa using hv)⟩
  | cons x xs ih =>
    obtain ⟨hidle,hdisc⟩ := searchFrom_spec hV h (hs x (by simp)) hknown
    obtain ⟨hi,hd⟩ := ih (fun y hy => hs y (by simp [hy])) hidle hdisc
    refine ⟨hi,fun v hv => hd v ?_⟩
    rcases hv with hv | hv
    · rcases List.mem_cons.mp hv with rfl | hv
      · exact .inr (by simp)
      · exact .inl hv
    · exact .inr (by simp [hv])

/-- The components of a search over every node are exactly the classes of
mutually reachable nodes, each found once. -/
theorem searchAll_spec (hV : ∀ x ∈ V, ∀ y ∈ adj x, y ∈ V) :
    (∀ C ∈ (Search.searchAll adj (2*V.length+1) V).components, IsComponent adj C) ∧
    (Search.searchAll adj (2*V.length+1) V).components.flatten.Nodup ∧
    ∀ v, v ∈ (Search.searchAll adj (2*V.length+1) V).components.flatten ↔ v ∈ V := by
  have hempty : Idle adj V Search.empty :=
    ⟨empty_inv,rfl,fun v hv => absurd rfl hv⟩
  obtain ⟨hidle,hdisc⟩ := searchAll_idle hV V (fun _ h => h) hempty
    (fun v (hv : v ∈ []) => absurd hv (by simp))
  change Idle adj V (Search.searchAll adj (2*V.length+1) V) at hidle
  have hstack : (Search.searchAll adj (2*V.length+1) V).componentStack = [] := by
    apply List.eq_nil_iff_forall_not_mem.mpr
    intro y hy
    obtain ⟨g,hg,-⟩ := hidle.inv.reaches_gray y hy
    simp [Search.gray, hidle.work_nil] at hg
  have hflat (v : α) : (Search.searchAll adj (2*V.length+1) V).indexOf v ≠ none ↔
      v ∈ (Search.searchAll adj (2*V.length+1) V).components.flatten := by
    rw [hidle.inv.discovered v]
    simp [hstack]
  refine ⟨hidle.inv.components_ok,(List.nodup_append.mp hidle.inv.nodup).1,fun v => ?_⟩
  rw [← hflat]
  exact ⟨hidle.bounded v,fun hv => hdisc v (.inl hv)⟩

end Bounded

end Run

end Adg.StronglyConnected
