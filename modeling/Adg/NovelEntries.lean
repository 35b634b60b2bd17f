import Adg.Decomposition

/-!
# What an entry settles first

The replay credits an entry with exactly the bits it is the first to name,
among the entries that count for the token, less what ownership had granted.
-/

set_option autoImplicit false

namespace Adg.NovelEntries
open Adg.Observation Adg.RightsAlgebra Adg.AccessConditions Adg.AccessSubjects Adg.Evaluation
open Adg.FirstMatch Adg.AccessResolver Adg.AccessCausality Adg.Decomposition

/-- The first row that counts and names the bit, with its position. -/
def settler (entries : List AclEntry) (token : SubjectToken) (facts : DaclFacts) (b : ℕ) :
    Option (AclEntry × ℕ) :=
  entries.zipIdx.find? fun row =>
    counts token (ownerTokenSidOf token facts) row.1 && row.1.expanded.getLsbD b

theorem settler_entry (entries : List AclEntry) (token : SubjectToken) (facts : DaclFacts)
    (b : ℕ) : (settler entries token facts b).map Prod.fst = decidingEntry entries token facts b := by
  unfold decidingEntry settler
  rw [← List.zipIdx_map_fst 0 entries, List.find?_map, List.zipIdx_map_fst]
  rfl

section Exact
variable (token : SubjectToken) (owner : Option TokenSid)

/-- The counting entries among some rows. -/
def countedRows (rows : List (AclEntry × ℕ)) : List AclEntry :=
  (rows.map Prod.fst).filter (counts token owner)

/-- A record says what its row contributed after the rows before it. -/
def Exact (rows : List (AclEntry × ℕ)) (a : AppliedAce) : Prop :=
  ∃ before after, rows = before ++ (a.entry,a.position) :: after ∧
    counts token owner a.entry = true ∧
    a.contributed.value = OrderedRules.contribution AclEntry.isAllow AclEntry.expanded
      (OrderedRules.settleAll AclEntry.isAllow AclEntry.expanded {} (countedRows token owner before))
      a.entry

variable {token owner}

theorem Exact.extend {rows : List (AclEntry × ℕ)} {a : AppliedAce} (h : Exact token owner rows a)
    (row : AclEntry × ℕ) : Exact token owner (rows ++ [row]) a := by
  obtain ⟨before,after,hrows,hcounts,hvalue⟩ := h
  refine ⟨before,after ++ [row],?_,hcounts,hvalue⟩
  rw [hrows, List.append_assoc]
  rfl

theorem applied_contribution (w : Walk) (e : AclEntry) (matched : TokenSid) (i : ℕ) :
    (w.applied e matched i).contributed.value =
      OrderedRules.contribution AclEntry.isAllow AclEntry.expanded (settled w) e := by
  unfold OrderedRules.contribution
  cases ha : e.isAllow <;> simp [Walk.applied, settled, ha]

/-- The run lemma: the records of a walk are exact about the rows it has done. -/
theorem run_exact (rows done : List (AclEntry × ℕ)) {w : Walk}
    (hsettled : settled w = OrderedRules.settleAll AclEntry.isAllow AclEntry.expanded {}
      (countedRows token owner done))
    (h : ∀ a ∈ filed w, Exact token owner done a) :
    ∀ a ∈ filed (rows.foldl (applyEntry token owner) w), Exact token owner (done ++ rows) a := by
  induction rows generalizing w done with
  | nil =>
    rw [List.append_nil]
    exact h
  | cons row rows ih =>
    obtain ⟨e,i⟩ := row
    have hlater := ih (done ++ [(e,i)]) (w := applyEntry token owner w (e,i))
    rw [List.append_assoc] at hlater
    apply hlater
    · rw [apply_settled, hsettled]
      unfold countedRows
      rw [List.map_append, List.filter_append, OrderedRules.settleAll_append]
      cases hc : counts token owner e <;> simp [hc]
    · intro a ha
      cases hc : counts token owner e with
      | false =>
        obtain ⟨fs,hfs⟩ := apply_skipped w i hc
        rw [hfs, filed_note] at ha
        exact (h a ha).extend _
      | true =>
        obtain ⟨matched,fs,-,hfold⟩ := apply_counted w i hc
        rw [hfold] at ha
        rcases List.mem_cons.mp ((fold_filed _ _).mem_iff.mp ha) with rfl | hold
        · refine ⟨done,[],rfl,hc,?_⟩
          rw [applied_contribution, hsettled]
          rfl
        · exact (h a hold).extend _

end Exact

section Layer
variable {supplied : List AclEntry} {token : SubjectToken} {layer : RightsLayer}
  {facts : DaclFacts} {ev : AclEvaluation}

theorem applied_exact (hw : WalkResult supplied token layer facts ev) {a : AppliedAce}
    (ha : a ∈ appliedEntries ev) :
    Exact token (ownerTokenSidOf token facts) supplied.zipIdx a := by
  have hstart : ∀ a ∈ filed (({ layer } : Walk).note
      (ownerRightsOf (ownerTokenSidOf token facts) facts supplied).2),
      Exact token (ownerTokenSidOf token facts) [] a := by
    simp [filed, Walk.note]
  exact run_exact supplied.zipIdx [] rfl hstart a ((applied_filed hw).mem_iff.mp ha)

/-- Every row that counts has a record. -/
theorem row_applied (hw : WalkResult supplied token layer facts ev) {row : AclEntry × ℕ}
    (hrow : row ∈ supplied.zipIdx) (hc : counts token (ownerTokenSidOf token facts) row.1 = true) :
    ∃ a ∈ appliedEntries ev, a.entry = row.1 ∧ a.position = row.2 := by
  have hplaced := ((applied_filed hw).map placed).trans (walkOver_filed supplied token layer facts)
  have hmem : row ∈ (appliedEntries ev).map placed :=
    hplaced.mem_iff.mpr (List.mem_filter.mpr ⟨hrow,hc⟩)
  obtain ⟨a,ha,rfl⟩ := List.mem_map.mp hmem
  exact ⟨a,ha,rfl,rfl⟩

theorem positions_sorted (entries : List AclEntry) :
    entries.zipIdx.Pairwise fun x y => x.2 < y.2 := by
  have hrange : (entries.zipIdx.map Prod.snd).Pairwise (· < ·) := by
    rw [List.zipIdx_map_snd]
    exact List.pairwise_lt_range'
  exact List.pairwise_map.mp hrange

/-- The rows before a row are those at smaller positions. -/
theorem mem_before_iff {entries : List AclEntry} {before after : List (AclEntry × ℕ)}
    {row x : AclEntry × ℕ} (hsplit : entries.zipIdx = before ++ row :: after) :
    x ∈ before ↔ x ∈ entries.zipIdx ∧ x.2 < row.2 := by
  have hsorted := positions_sorted entries
  rw [hsplit] at hsorted ⊢
  obtain ⟨-,hrest,hcross⟩ := List.pairwise_append.mp hsorted
  constructor
  · intro hx
    exact ⟨List.mem_append_left _ hx,hcross x hx row List.mem_cons_self⟩
  · rintro ⟨hx,hlt⟩
    rcases List.mem_append.mp hx with hx | hx
    · exact hx
    · rcases List.mem_cons.mp hx with rfl | hx
      · exact absurd hlt (lt_irrefl _)
      · exact absurd hlt ((List.pairwise_cons.mp hrest).1 x hx).not_gt

theorem settler_iff {entries : List AclEntry} {before after : List (AclEntry × ℕ)}
    {row : AclEntry × ℕ} (hsplit : entries.zipIdx = before ++ row :: after)
    (hc : counts token (ownerTokenSidOf token facts) row.1 = true) {b : ℕ} :
    settler entries token facts b = some row ↔
      row.1.expanded.getLsbD b = true ∧
        OrderedRules.decider AclEntry.expanded b
          (countedRows token (ownerTokenSidOf token facts) before) = none := by
  unfold settler OrderedRules.decider countedRows
  rw [List.find?_eq_some_iff_append, List.find?_eq_none]
  simp only [Bool.not_eq_true', Bool.and_eq_true, Bool.and_eq_false_iff, List.mem_filter,
    List.mem_map, and_imp, forall_exists_index, hc, true_and]
  constructor
  · rintro ⟨hb,pre,post,hsame,hpre⟩
    refine ⟨hb,?_⟩
    rintro e x hx rfl hcounts hnamed
    rcases hpre x ((mem_before_iff hsame).mpr ((mem_before_iff hsplit).mp hx)) with hno | hno
    · rw [hcounts] at hno
      cases hno
    · rw [hnamed] at hno
      cases hno
  · rintro ⟨hb,hbefore⟩
    refine ⟨hb,before,after,hsplit,fun x hx => ?_⟩
    cases hcounts : counts token (ownerTokenSidOf token facts) x.1 with
    | false => exact .inl rfl
    | true => exact .inr (by simpa using hbefore x.1 x hx rfl hcounts)

theorem before_eq {entries : List AclEntry} {before after : List (AclEntry × ℕ)}
    {row : AclEntry × ℕ} (hsplit : entries.zipIdx = before ++ row :: after) :
    before = entries.zipIdx.take row.2 := by
  have hget : entries.zipIdx[before.length]? = some row := by
    rw [hsplit, List.getElem?_append_right le_rfl, Nat.sub_self]
    rfl
  rw [List.getElem?_zipIdx, Option.map_eq_some_iff] at hget
  obtain ⟨e,-,rfl⟩ := hget
  rw [hsplit]
  simp

/-- The row behind the first counting entry that names a bit. -/
theorem first_named {owner : Option TokenSid} {rows : List (AclEntry × ℕ)} {b : ℕ} {d : AclEntry}
    (hd : OrderedRules.decider AclEntry.expanded b (countedRows token owner rows) = some d) :
    ∃ before row after, rows = before ++ row :: after ∧ row.1 = d ∧
      counts token owner row.1 = true ∧ row.1.expanded.getLsbD b = true ∧
      OrderedRules.decider AclEntry.expanded b (countedRows token owner before) = none := by
  unfold OrderedRules.decider countedRows at hd ⊢
  rw [List.find?_filter, List.find?_map, Option.map_eq_some_iff] at hd
  obtain ⟨row,hrow,rfl⟩ := hd
  obtain ⟨hnames,before,after,hsplit,hbefore⟩ := List.find?_eq_some_iff_append.mp hrow
  simp only [Function.comp_apply, decide_eq_true_eq] at hnames
  refine ⟨before,row,after,hsplit,rfl,hnames.1,hnames.2,?_⟩
  rw [List.find?_filter, List.find?_map, Option.map_eq_none_iff, List.find?_eq_none]
  intro x hx hno
  have hfalse := hbefore x hx
  rw [hno] at hfalse
  cases hfalse

/-- What a record contributed: its own bits, less those settled against it. -/
theorem contribution_bit (hw : WalkResult supplied token layer facts ev) {a : AppliedAce}
    (ha : a ∈ appliedEntries ev) {before after : List (AclEntry × ℕ)}
    (hsplit : supplied.zipIdx = before ++ (a.entry,a.position) :: after) {b : ℕ} (hb : b < 32) :
    (contribution a).getLsbD b = true ↔ a.entry.expanded.getLsbD b = true ∧
      ∀ d, OrderedRules.decider AclEntry.expanded b
        (countedRows token (ownerTokenSidOf token facts) before) = some d →
          d.isAllow = a.entry.isAllow := by
  obtain ⟨pre,post,hsame,-,hvalue⟩ := applied_exact hw ha
  have hpre : pre = before := (before_eq hsame).trans (before_eq hsplit).symm
  subst hpre
  rw [contribution_eq hw ha, hvalue]
  unfold OrderedRules.contribution
  have hgranted := OrderedRules.settleAll_granted_bit AclEntry.isAllow AclEntry.expanded {}
    (countedRows token (ownerTokenSidOf token facts) pre) b hb
  have hdenied := OrderedRules.settleAll_denied_bit AclEntry.isAllow AclEntry.expanded {}
    (countedRows token (ownerTokenSidOf token facts) pre) b hb
  cases ha' : a.entry.isAllow with
  | true =>
    rw [if_pos rfl, BitVec.getLsbD_and, BitVec.getLsbD_not, hdenied]
    cases OrderedRules.decider AclEntry.expanded b
      (countedRows token (ownerTokenSidOf token facts) pre) <;> simp [hb]
  | false =>
    rw [if_neg (by simp), BitVec.getLsbD_and, BitVec.getLsbD_not, hgranted]
    cases OrderedRules.decider AclEntry.expanded b
      (countedRows token (ownerTokenSidOf token facts) pre) <;> simp [hb]

theorem replayEntry_denied (r : Replay) (a : AppliedAce) (b : ℕ) :
    (replayEntry r a).denied.getLsbD b =
      (r.denied.getLsbD b || (!a.entry.isAllow && (contribution a).getLsbD b)) := by
  unfold replayEntry contribution
  cases a.entry.isAllow <;> simp

theorem foldl_denied (as : List AppliedAce) (r : Replay) (b : ℕ) :
    (as.foldl replayEntry r).denied.getLsbD b = true ↔ r.denied.getLsbD b = true ∨
      ∃ a ∈ as, a.entry.isAllow = false ∧ (contribution a).getLsbD b = true := by
  induction as generalizing r with
  | nil => simp
  | cons a as ih =>
    rw [List.foldl_cons, ih, replayEntry_denied]
    simp [or_assoc]

/-- What the replay holds against a record's bit: an earlier record of its own
direction that contributed it, or ownership. -/
theorem novelPart_bit {seed : AccessMask} {before : List AppliedAce} {a : AppliedAce} {b : ℕ}
    (hb : b < 32) :
    (novelPart (replay seed before) a).getLsbD b = true ↔ (contribution a).getLsbD b = true ∧
      (a.entry.isAllow = true → seed.getLsbD b = false) ∧
      ∀ x ∈ before, x.entry.isAllow = a.entry.isAllow → (contribution x).getLsbD b = false := by
  unfold novelPart
  rw [BitVec.getLsbD_and, BitVec.getLsbD_not, Bool.and_eq_true]
  apply and_congr_right
  intro _
  cases ha : a.entry.isAllow with
  | true =>
    have hgranted := foldl_granted before { granted := seed } b
    rw [if_pos rfl]
    change (replay seed before).granted.getLsbD b = true ↔ _ at hgranted
    simp only [hb, decide_true, Bool.true_and, Bool.not_eq_true', ← Bool.not_eq_true, hgranted]
    simp
  | false =>
    have hdenied := foldl_denied before { granted := seed } b
    rw [if_neg (by simp)]
    change (replay seed before).denied.getLsbD b = true ↔ _ at hdenied
    simp only [hb, decide_true, Bool.true_and, Bool.not_eq_true', ← Bool.not_eq_true, hdenied]
    simp

/-- The records before a record in stored order are those at smaller positions. -/
theorem applied_before (hw : WalkResult supplied token layer facts ev)
    {before after : List AppliedAce} {a x : AppliedAce}
    (hsplit : appliedEntries ev = before ++ a :: after) (hx : x ∈ appliedEntries ev) :
    x ∈ before ↔ x.position < a.position := by
  have hsorted : (appliedEntries ev).Pairwise fun x y => x.position ≤ y.position := by
    have htotal : Std.Total fun x y : AppliedAce => x.position ≤ y.position :=
      ⟨fun x y => le_total x.position y.position⟩
    have htrans : IsTrans AppliedAce fun x y => x.position ≤ y.position := ⟨fun _ _ _ => le_trans⟩
    exact List.pairwise_insertionSort _ _
  have hstrict : (appliedEntries ev).Pairwise fun x y => x.position < y.position :=
    (hsorted.and (List.pairwise_map.mp (applied_positions hw))).imp
      fun h => lt_of_le_of_ne h.1 h.2
  rw [hsplit] at hstrict hx
  obtain ⟨-,hrest,hcross⟩ := List.pairwise_append.mp hstrict
  constructor
  · intro hin
    exact hcross x hin a List.mem_cons_self
  · intro hlt
    rcases List.mem_append.mp hx with hin | hin
    · exact hin
    · rcases List.mem_cons.mp hin with rfl | hin
      · exact absurd hlt (lt_irrefl _)
      · exact absurd hlt ((List.pairwise_cons.mp hrest).1 x hin).not_gt

/-- An entry is credited with the bits it is the first to name, less those
an allow shares with the owner's implicit rights. -/
theorem novel_bit (hw : WalkResult supplied token layer facts ev) {a : AppliedAce}
    (ha : a ∈ appliedEntries ev) {b : ℕ} (hb : b < 32) :
    (novelAt (novelContributions ev) a.position).getLsbD b = true ↔
      settler supplied token facts b = some (a.entry,a.position) ∧
        (a.entry.isAllow = true → (ownerSeed ev).getLsbD b = false) := by
  obtain ⟨before,after,hsplit,hcounts,-⟩ := applied_exact hw ha
  obtain ⟨xs,ys,hxs⟩ := List.append_of_mem ha
  have hnovel : novelAt (novelContributions ev) a.position =
      novelPart (replay (ownerSeed ev) xs) a := novelAt_split hxs (applied_positions hw)
  rw [hnovel, novelPart_bit hb, contribution_bit hw ha hsplit hb,
    settler_iff hsplit (by exact hcounts)]
  constructor
  · rintro ⟨⟨hnamed,hsame⟩,howner,hfirst⟩
    refine ⟨⟨hnamed,?_⟩,howner⟩
    -- a row before that names the bit goes the same way, and its record has it
    cases hd : OrderedRules.decider AclEntry.expanded b
        (countedRows token (ownerTokenSidOf token facts) before) with
    | none => rfl
    | some d =>
      obtain ⟨pre,row,mid,hpre,rfl,hrow,hb',hnone⟩ := first_named hd
      have hsplit' : supplied.zipIdx = pre ++ row :: (mid ++ (a.entry,a.position) :: after) := by
        rw [hsplit, hpre, List.append_assoc]
        rfl
      have hmem : row ∈ supplied.zipIdx ∧ row.2 < a.position :=
        (mem_before_iff hsplit).mp (by rw [hpre]; simp)
      obtain ⟨x,hx,hentry,hposition⟩ := row_applied hw hmem.1 hrow
      have hplaced : (x.entry,x.position) = row := by rw [hentry, hposition]
      rw [← hplaced] at hsplit'
      have hcontributed : (contribution x).getLsbD b = true := by
        refine (contribution_bit hw hx hsplit' hb).mpr ⟨by rw [hentry]; exact hb',?_⟩
        intro d hd'
        rw [hnone] at hd'
        cases hd'
      have hxs' : x ∈ xs := (applied_before hw hxs hx).mpr (hposition ▸ hmem.2)
      have hlost := hfirst x hxs' (by rw [hentry]; exact hsame row.1 hd)
      rw [hcontributed] at hlost
      cases hlost
  · rintro ⟨⟨hnamed,hnone⟩,howner⟩
    refine ⟨⟨hnamed,?_⟩,howner,?_⟩
    · intro d hd
      rw [hnone] at hd
      cases hd
    · intro x hx _
      have hxmem : x ∈ appliedEntries ev := by
        rw [hxs]
        exact List.mem_append_left _ hx
      obtain ⟨pre,post,hx',hcountsx,-⟩ := applied_exact hw hxmem
      have hbefore : (x.entry,x.position) ∈ before := by
        refine (mem_before_iff hsplit).mpr ⟨by rw [hx']; simp,?_⟩
        exact (applied_before hw hxs hxmem).mp hx
      cases hcontributed : (contribution x).getLsbD b with
      | false => rfl
      | true =>
        have hnamedx := ((contribution_bit hw hxmem hx' hb).mp hcontributed).1
        have hcountedx : x.entry ∈ countedRows token (ownerTokenSidOf token facts) before :=
          List.mem_filter.mpr ⟨List.mem_map_of_mem hbefore,hcountsx⟩
        have hno := List.find?_eq_none.mp hnone x.entry hcountedx
        exact absurd hnamedx hno

end Layer

end Adg.NovelEntries
