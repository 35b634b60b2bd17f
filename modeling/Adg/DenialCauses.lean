import Adg.RedundantEntries
import Adg.Verdicts

/-!
# Whether a denial is the cause of no access

A deny is reported when it withheld something at its own position. Whether
anything would be held without the reported denies is another question: some
allow, or ownership, must name a right that every ACL lets through.
-/

set_option autoImplicit false

namespace Adg.DenialCauses
open Adg.Observation Adg.RightsAlgebra Adg.AccessConditions Adg.AccessSubjects Adg.Evaluation
open Adg.FirstMatch Adg.AccessResolver Adg.ResolvedRights Adg.LowerBound Adg.MembershipGraph
open Adg.AccessCausality Adg.RemovalAnalysis Adg.Decomposition Adg.NovelEntries Adg.WithheldRights
open Adg.RedundantEntries Adg.Verdicts
open Adg.Fallible (bind_ok mapped_ok)

/-- The entries at some positions deleted, the order of the rest kept. -/
def deleteAt (entries : List AclEntry) (gone : List ℕ) : List AclEntry :=
  (entries.zipIdx.filter fun row => !gone.contains row.2).map Prod.fst

section Entries
variable (entries : List AclEntry) (token : SubjectToken) (facts : DaclFacts)

/-- A deny that counts and names a bit no allow before it has settled. -/
def Withholds (row : AclEntry × ℕ) : Prop :=
  counts token (ownerTokenSidOf token facts) row.1 = true ∧ row.1.isAllow = false ∧
    ∃ b, row.1.expanded.getLsbD b = true ∧
      ∀ d, decidingEntry (entries.take row.2) token facts b = some d → d.isAllow = false

/-- An allow that counts names the bit, wherever it stands. -/
def Allowed (b : ℕ) : Prop :=
  ∃ e ∈ entries, counts token (ownerTokenSidOf token facts) e = true ∧ e.isAllow = true ∧
    e.expanded.getLsbD b = true

/-- The owner holds the bit implicitly once the withholding denies are gone:
no other OWNER RIGHTS entry is there. -/
def OwnerLeft (b : ℕ) : Prop :=
  HoldsOwner token facts ∧ facts.ownerSid ≠ none ∧
    ownerImplicitRights.value.getLsbD b = true ∧
    ∀ row ∈ entries.zipIdx, row.1.namesOwnerRights = true → row.1.appliesToThisObject = true →
      Withholds entries token facts row

end Entries

theorem mem_deleteAt {entries : List AclEntry} {gone : List ℕ} {e : AclEntry} :
    e ∈ deleteAt entries gone ↔ ∃ i, (e,i) ∈ entries.zipIdx ∧ i ∉ gone := by
  unfold deleteAt
  rw [List.mem_map]
  constructor
  · rintro ⟨⟨e,i⟩,hrow,rfl⟩
    obtain ⟨hmem,hkept⟩ := List.mem_filter.mp hrow
    exact ⟨i,hmem,by simpa using hkept⟩
  · rintro ⟨i,hmem,hkept⟩
    exact ⟨(e,i),List.mem_filter.mpr ⟨hmem,by simpa using hkept⟩,rfl⟩

theorem deleteAt_subset {entries : List AclEntry} {gone : List ℕ} {e : AclEntry}
    (h : e ∈ deleteAt entries gone) : e ∈ entries := by
  obtain ⟨i,hmem,-⟩ := mem_deleteAt.mp h
  exact List.mem_of_getElem? (List.mem_zipIdx_iff_getElem?.mp hmem)

theorem deleteAt_length (entries : List AclEntry) (gone : List ℕ) :
    (deleteAt entries gone).length ≤ entries.length := by
  unfold deleteAt
  rw [List.length_map]
  exact (List.length_filter_le _ _).trans (by simp)

section Layer
variable {entries : List AclEntry} {token : SubjectToken} {layer : RightsLayer}
  {facts : DaclFacts} {ev : AclEvaluation}

/-- The positions of the reported denies of one evaluation. -/
def deniedAt (ev : AclEvaluation) : List ℕ := ev.deniedBy.map (·.position)

/-- What the rows before a row settle is what the entries before it decide. -/
theorem before_decides {before after : List (AclEntry × ℕ)} {row : AclEntry × ℕ}
    (hsplit : entries.zipIdx = before ++ row :: after) (b : ℕ) :
    OrderedRules.decider AclEntry.expanded b
      (countedRows token (ownerTokenSidOf token facts) before) =
      decidingEntry (entries.take row.2) token facts b := by
  have hentries : before.map Prod.fst = entries.take row.2 := by
    rw [before_eq hsplit, List.map_take, List.zipIdx_map_fst]
  unfold countedRows
  rw [hentries, decidingEntry_eq]
  rfl

/-- The reported denies are those at the withholding positions. -/
theorem denied_iff_withholds (hw : WalkResult entries token layer facts ev)
    {row : AclEntry × ℕ} (hrow : row ∈ entries.zipIdx) :
    row.2 ∈ deniedAt ev ↔ Withholds entries token facts row := by
  have hsorted := walkOver_sorted entries token layer facts
  have hfiled (a : AppliedAce) (ha : a ∈ ev.deniedBy) : a ∈ appliedEntries ev := by
    rw [(applied_filed hw).mem_iff]
    rw [hw.deniedBy] at ha
    simp [filed, ha]
  have hbits {a : AppliedAce} (ha : a ∈ appliedEntries ev) (hdeny : a.entry.isAllow = false)
      (b : ℕ) (hb : b < 32) : a.contributed.value.getLsbD b = true ↔
        a.entry.expanded.getLsbD b = true ∧
          ∀ d, decidingEntry (entries.take a.position) token facts b = some d →
            d.isAllow = false := by
    obtain ⟨before,after,hsplit,-⟩ := applied_exact hw ha
    rw [← contribution_eq hw ha, contribution_bit hw ha hsplit hb, before_decides hsplit, hdeny]
  constructor
  · intro hdenied
    obtain ⟨a,ha,hposition⟩ := List.mem_map.mp hdenied
    have happlied := hfiled a ha
    obtain ⟨before,after,hsplit,hcounts,-⟩ := applied_exact hw happlied
    have hplaced : (a.entry,a.position) ∈ entries.zipIdx := by
      rw [hsplit]
      simp
    have hsame : a.entry = row.1 := by
      have hget := List.mem_zipIdx_iff_getElem?.mp hplaced
      have hget' := List.mem_zipIdx_iff_getElem?.mp hrow
      rw [← hposition] at hget'
      exact Option.some.inj (hget.symm.trans hget')
    rw [hw.deniedBy] at ha
    obtain ⟨hdeny,hne⟩ := hsorted.denied a ha
    rw [show row = (a.entry,a.position) from Prod.ext hsame.symm hposition.symm]
    refine ⟨hcounts,hdeny,?_⟩
    by_contra hnone
    apply hne
    rw [zero_iff_bits]
    intro b
    rw [← Bool.not_eq_true]
    intro hb
    exact hnone ⟨b,(hbits happlied hdeny b (BitVec.lt_of_getLsbD hb)).mp hb⟩
  · rintro ⟨hcounts,hdeny,b,hnamed,hbefore⟩
    obtain ⟨a,ha,hentry,hposition⟩ := row_applied hw hrow hcounts
    have hrefuses : a.entry.isAllow = false := by
      rw [hentry]
      exact hdeny
    have hcontributed : a.contributed.value.getLsbD b = true := by
      rw [hbits ha hrefuses b (BitVec.lt_of_getLsbD hnamed), hentry, hposition]
      exact ⟨hnamed,hbefore⟩
    have hfile := (applied_filed hw).mem_iff.mp ha
    simp only [filed, List.mem_append] at hfile
    rcases hfile with (hg | hd) | hs
    · rw [(hsorted.granted a hg).1] at hrefuses
      cases hrefuses
    · rw [← hw.deniedBy] at hd
      exact List.mem_map.mpr ⟨a,hd,hposition⟩
    · rw [hsorted.superseded a hs] at hcontributed
      simp at hcontributed

/-- Of the rows that stay, the first to name a bit is an allow whenever any
allow names it: a deny that stays stands behind an allow. -/
theorem deleted_allows (hw : WalkResult entries token layer facts ev) (b : ℕ) :
    (∃ e, decidingEntry (deleteAt entries (deniedAt ev)) token facts b = some e ∧
        e.isAllow = true) ↔ Allowed entries token facts b := by
  constructor
  · rintro ⟨e,he,hallow⟩
    have hmem := List.mem_of_find?_eq_some he
    have hnames := List.find?_some he
    rw [Bool.and_eq_true] at hnames
    exact ⟨e,deleteAt_subset hmem,hnames.1,hallow,hnames.2⟩
  · rintro ⟨e,he,hcounts,hallow,hnamed⟩
    obtain ⟨i,hi⟩ := List.mem_iff_getElem?.mp he
    have hrow : (e,i) ∈ entries.zipIdx := List.mem_zipIdx_iff_getElem?.mpr hi
    have hstays (row : AclEntry × ℕ) (hin : row ∈ entries.zipIdx) (ha : row.1.isAllow = true) :
        row.2 ∉ deniedAt ev := by
      intro hgone
      have hwithholds := (denied_iff_withholds hw hin).mp hgone
      rw [hwithholds.2.1] at ha
      cases ha
    have hfind : decidingEntry (deleteAt entries (deniedAt ev)) token facts b =
        (entries.zipIdx.find? fun row => !(deniedAt ev).contains row.2 &&
          (counts token (ownerTokenSidOf token facts) row.1 &&
            row.1.expanded.getLsbD b)).map Prod.fst := by
      unfold decidingEntry deleteAt
      rw [List.find?_map, List.find?_filter]
      congr 2
      funext row
      simp
    have hsome : (entries.zipIdx.find? fun row => !(deniedAt ev).contains row.2 &&
        (counts token (ownerTokenSidOf token facts) row.1 &&
          row.1.expanded.getLsbD b)).isSome := by
      rw [List.find?_isSome]
      refine ⟨(e,i),hrow,?_⟩
      have hkept := hstays (e,i) hrow hallow
      simp [hkept, hcounts, hnamed]
    obtain ⟨row,hfirst⟩ := Option.isSome_iff_exists.mp hsome
    refine ⟨row.1,by rw [hfind, hfirst]; rfl,?_⟩
    obtain ⟨hpred,before,after,hsplit,hbefore⟩ := List.find?_eq_some_iff_append.mp hfirst
    have hin : row ∈ entries.zipIdx := List.mem_of_find?_eq_some hfirst
    simp only [Bool.and_eq_true, Bool.not_eq_true', List.contains_eq_mem,
      decide_eq_false_iff_not] at hpred
    obtain ⟨hkept,hrowCounts,hrowNamed⟩ := hpred
    by_contra hdeny
    rw [Bool.not_eq_true] at hdeny
    -- a deny that stays finds an allow of the same bit before it, and that one stays too
    have hnot : ¬ Withholds entries token facts row := fun h =>
      hkept ((denied_iff_withholds hw hin).mpr h)
    have hallowed : ∃ d, decidingEntry (entries.take row.2) token facts b = some d ∧
        d.isAllow = true := by
      by_contra hnone
      apply hnot
      refine ⟨hrowCounts,hdeny,b,hrowNamed,?_⟩
      intro d hd
      rw [← Bool.not_eq_true]
      intro hda
      exact hnone ⟨d,hd,hda⟩
    obtain ⟨d,hd,hda⟩ := hallowed
    rw [← before_decides hsplit] at hd
    obtain ⟨pre,first,post,hpre,rfl,hfc,hfb,-⟩ := first_named hd
    have hfmem : first ∈ before := by
      rw [hpre]
      simp
    have hfin : first ∈ entries.zipIdx := by
      rw [hsplit]
      exact List.mem_append_left _ hfmem
    have hno := hbefore first hfmem
    have hfkept := hstays first hfin hda
    simp [hfkept, hfc, hfb] at hno

/-- What a layer lets through once its reported denies are gone. -/
theorem deleted_lets (hw : WalkResult entries token layer facts ev) (b : ℕ) :
    LetsThrough (deleteAt entries (deniedAt ev)) token facts b ↔
      Allowed entries token facts b ∨ OwnerLeft entries token facts b := by
  have howner : (ownerGrant (deleteAt entries (deniedAt ev)) token facts).getLsbD b = true ↔
      OwnerLeft entries token facts b := by
    have hnone : ¬ OwnerRightsPresent (deleteAt entries (deniedAt ev)) ↔
        ∀ row ∈ entries.zipIdx, row.1.namesOwnerRights = true →
          row.1.appliesToThisObject = true → Withholds entries token facts row := by
      constructor
      · intro habsent row hrow hnames happlies
        rw [← denied_iff_withholds hw hrow]
        by_contra hkept
        exact habsent ⟨row.1,mem_deleteAt.mpr ⟨row.2,hrow,hkept⟩,hnames,happlies⟩
      · rintro hall ⟨e,he,hnames,happlies⟩
        obtain ⟨i,hrow,hkept⟩ := mem_deleteAt.mp he
        exact hkept ((denied_iff_withholds hw hrow).mpr (hall (e,i) hrow hnames happlies))
    rw [ownerGrant_bit, hnone]
    unfold OwnerLeft
    tauto
  unfold LetsThrough
  rw [howner, deleted_allows hw b, or_comm]

end Layer

/-- The positions at which the reported denies stand on one layer's ACL. -/
def positionsOn (layer : RightsLayer) (denials : List AppliedAce) : List ℕ :=
  (denials.filter (·.entry.layer = layer)).map (·.position)

/-- The object with the reported denies deleted from its DACL. -/
def clearedDacl (denials : List AppliedAce) (resource : ResourceDacl) : ResourceDacl :=
  { resource with entries := deleteAt resource.entries (positionsOn .ntfs denials) }

theorem cleared_unread (denials : List AppliedAce) (share : ShareDacl) :
    share.observed = false →
      deleteAt share.entries (positionsOn .smbShare denials) = [] := by
  intro h
  rw [share.unread_empty h]
  rfl

def clearedShare (denials : List AppliedAce) (share : ShareDacl) : ShareDacl :=
  { share with
    entries := deleteAt share.entries (positionsOn .smbShare denials)
    unread_empty := cleared_unread denials share }

/-- Some right is named by an allow, or left to the owner, on every ACL that
is crossed. -/
def SomethingAllowed (token : SubjectToken) (resource : ResourceDacl)
    (share : Option ShareDacl) : Prop :=
  ∃ b, (resource.daclPresent = false → fileAllAccess.getLsbD b = true) ∧
    (resource.daclPresent = true → Allowed resource.entries token resource.facts b ∨
      OwnerLeft resource.entries token resource.facts b) ∧
    ∀ s, share = some s → s.observed = true → Allowed s.entries token unownedPresentDacl b

section Findings
variable {token : SubjectToken} {layer : RightsLayer} {facts : DaclFacts} {ev : AclEvaluation}

/-- An ACL that was not read whole says so. -/
theorem truncated_reported {supplied : List AclEntry}
    (h : evaluateAcl supplied token layer facts = .ok ev) (hp : facts.daclPresent = true)
    (hlong : maxAclEntries < supplied.length) :
    ∃ f ∈ ev.findings, f.condition = .aclTruncated := by
  obtain ⟨hl,hs⟩ := evaluateAcl_layers h
  unfold evaluateAcl at h
  rw [if_neg hl, layers_agree.mpr hs] at h
  simp only [hp, withOwner_ok] at h
  cases h
  refine ⟨{ condition := .aclTruncated
            detail := [("supplied", .number supplied.length),
              ("evaluated", .number maxAclEntries)] },?_,rfl⟩
  apply List.mem_append_right
  unfold closingFindings
  simp [hlong]

/-- A reported deny carries the layer of the ACL it stands on. -/
theorem denied_layer {supplied : List AclEntry}
    (h : evaluateAcl supplied token layer facts = .ok ev) {a : AppliedAce}
    (ha : a ∈ ev.deniedBy) : a.entry.layer = layer := by
  have happlied : a ∈ appliedEntries ev := by
    rw [(applied_perm ev).mem_iff]
    simp [ha]
  have hw := walk_of_evaluation h (applied_walk h happlied)
  obtain ⟨before,after,hsplit,-⟩ := applied_exact hw happlied
  have hplaced : (a.entry,a.position) ∈ (supplied.take maxAclEntries).zipIdx := by
    rw [hsplit]
    simp
  have hmem := List.mem_of_getElem? (List.mem_zipIdx_iff_getElem?.mp hplaced)
  exact (evaluateAcl_layers h).2 a.entry (List.mem_of_mem_take hmem)

theorem positionsOn_own {denials : List AppliedAce}
    (h : ∀ a ∈ denials, a.entry.layer = layer) :
    positionsOn layer denials = denials.map (·.position) := by
  unfold positionsOn
  rw [List.filter_eq_self.mpr fun a ha => by simpa using h a ha]

theorem positionsOn_foreign {denials : List AppliedAce} {other : RightsLayer}
    (h : ∀ a ∈ denials, a.entry.layer = other) (hne : other ≠ layer) :
    positionsOn layer denials = [] := by
  unfold positionsOn
  rw [List.filter_eq_nil_iff.mpr fun a ha => by simpa [h a ha] using hne]
  rfl

theorem positionsOn_append (layer : RightsLayer) (xs ys : List AppliedAce) :
    positionsOn layer (xs++ys) = positionsOn layer xs ++ positionsOn layer ys := by
  unfold positionsOn
  rw [List.filter_append, List.map_append]

end Findings

section Answer
variable {token : SubjectToken} {resource : ResourceDacl} {share : Option ShareDacl}
  {fs : List AccessFinding} {access : EffectiveAccess}

/-- Where the reported denies stand on the file system's DACL. -/
theorem ntfs_positions (hacc : resolveAccess token resource share fs = .ok access) :
    positionsOn .ntfs (denialsOf access) = deniedAt access.ntfs := by
  have hres := resolveAccess_spec hacc
  have hown := positionsOn_own fun a ha => denied_layer hres.ntfs ha
  unfold denialsOf
  rw [positionsOn_append, hown]
  rcases share_evaluation hres with ⟨hnone,-⟩ | ⟨s,ev,-,-,hev,heval⟩
  · rw [hnone]
    exact List.append_nil _
  · have hforeign := positionsOn_foreign (fun a ha => denied_layer heval ha)
      (show RightsLayer.smbShare ≠ .ntfs by decide)
    rw [hev, Option.map_some, Option.getD_some, hforeign, List.append_nil]
    rfl

/-- Where they stand on the ACL of a share that was read. -/
theorem share_positions (hacc : resolveAccess token resource share fs = .ok access)
    {ev : AclEvaluation} {entries : List AclEntry} (hev : access.share = some ev)
    (heval : evaluateAcl entries token .smbShare unownedPresentDacl = .ok ev) :
    positionsOn .smbShare (denialsOf access) = deniedAt ev := by
  have hres := resolveAccess_spec hacc
  have hforeign := positionsOn_foreign (fun a ha => denied_layer hres.ntfs ha)
    (show RightsLayer.ntfs ≠ .smbShare by decide)
  have hown := positionsOn_own fun a ha => denied_layer heval ha
  unfold denialsOf
  rw [positionsOn_append, hforeign, hev, Option.map_some, Option.getD_some, hown]
  rfl

/-- An answer that hides no grant was read off whole ACLs. -/
theorem read_whole (hacc : resolveAccess token resource share fs = .ok access)
    (hcertain : access.certainty ∉ understatingCertainties) :
    (resource.daclPresent = true → resource.entries.length ≤ maxAclEntries) ∧
      ∀ s, share = some s → s.observed = true → s.entries.length ≤ maxAclEntries := by
  have hres := resolveAccess_spec hacc
  rw [hres.certainty] at hcertain
  have hquiet := certain_hides_nothing hcertain
  have hcut (f : AccessFinding) (hf : f ∈ access.findings) : f.condition ≠ .aclTruncated := by
    intro hc
    have hno := hquiet f hf
    unfold AccessFinding.mayUnderstate at hno
    rw [hc] at hno
    revert hno
    decide
  obtain ⟨-,ntfs,hn,c,hcross,rfl⟩ := resolveAccess_ok.mp hacc
  constructor
  · intro hpresent
    by_contra hlong
    obtain ⟨f,hf,hc⟩ := truncated_reported hn hpresent (not_le.mp hlong)
    have hkept : f ∈ ntfsFindings ntfs resource := by
      unfold ntfsFindings
      split
      · exact List.mem_filter.mpr ⟨hf,by rw [hc]; decide⟩
      · exact hf
    apply hcut f _ hc
    simp [assembled, collectedFindings, hkept]
  · rintro s rfl hobserved
    by_contra hlong
    rw [crossShare_observed ntfs token hobserved] at hcross
    obtain ⟨ev,heval,hcross⟩ := bind_ok.mp hcross
    obtain ⟨crossed,-,hcross⟩ := bind_ok.mp hcross
    cases hcross
    obtain ⟨f,hf,hc⟩ := truncated_reported heval rfl (not_le.mp hlong)
    apply hcut f _ hc
    simp [assembled, collectedFindings, hf]

theorem cleared_layered {denials : List AppliedAce} (h : Layered resource share) :
    Layered (clearedDacl denials resource) (share.map (clearedShare denials)) := by
  constructor
  · intro e he
    exact h.ntfs e (deleteAt_subset he)
  · intro s hs e he
    obtain ⟨s',hs',rfl⟩ := Option.map_eq_some_iff.mp hs
    exact h.share s' hs' e (deleteAt_subset he)

theorem cleared_fits {denials : List AppliedAce} (h : PathFits token share) :
    PathFits token (share.map (clearedShare denials)) := by
  unfold PathFits at *
  rw [Option.isSome_map]
  exact h

theorem has_access_iff (hacc : resolveAccess token resource share fs = .ok access) :
    access.hasAccess = true ↔ ∃ b, Unstopped token resource share b := by
  have hvalue : access.rights.value = resolvedMask token resource share := by
    rw [(resolveAccess_spec hacc).rights]
  unfold EffectiveAccess.hasAccess RightsMask.isEmpty
  rw [Bool.not_eq_true', decide_eq_false_iff_not, hvalue, zero_iff_bits, not_forall]
  apply exists_congr
  intro b
  rw [Bool.not_eq_false, resolvedMask_bit]

/-- One bit of the answer without the reported denies. -/
theorem cleared_bit (hacc : resolveAccess token resource share fs = .ok access)
    (hcertain : access.certainty ∉ understatingCertainties) (b : ℕ) :
    Unstopped token (clearedDacl (denialsOf access) resource)
        (share.map (clearedShare (denialsOf access))) b ↔
      (resource.daclPresent = false → fileAllAccess.getLsbD b = true) ∧
      (resource.daclPresent = true → Allowed resource.entries token resource.facts b ∨
        OwnerLeft resource.entries token resource.facts b) ∧
      ∀ s, share = some s → s.observed = true → Allowed s.entries token unownedPresentDacl b := by
  have hres := resolveAccess_spec hacc
  obtain ⟨hntfsLen,hshareLen⟩ := read_whole hacc hcertain
  rw [unstopped_iff]
  apply and_congr
  · exact Iff.rfl
  apply and_congr
  · apply forall_congr'
    intro hpresent
    have hw := walk_of_evaluation hres.ntfs hpresent
    rw [List.take_of_length_le (hntfsLen hpresent)] at hw
    have hentries : (clearedDacl (denialsOf access) resource).entries =
        deleteAt resource.entries (deniedAt access.ntfs) := by
      show deleteAt resource.entries (positionsOn .ntfs (denialsOf access)) = _
      rw [ntfs_positions hacc]
    have hshort : (deleteAt resource.entries (deniedAt access.ntfs)).length ≤ maxAclEntries :=
      (deleteAt_length _ _).trans (hntfsLen hpresent)
    rw [hentries, List.take_of_length_le hshort]
    exact deleted_lets hw b
  · rcases share_evaluation hres with ⟨-,hunread⟩ | ⟨s,ev,rfl,hobserved,hev,heval⟩
    · constructor
      · intro _ s hs ho
        rw [hunread s hs] at ho
        cases ho
      · intro _ s hs ho
        obtain ⟨s',hs',rfl⟩ := Option.map_eq_some_iff.mp hs
        rw [show (clearedShare (denialsOf access) s').observed = s'.observed from rfl,
          hunread s' hs'] at ho
        cases ho
    · have hlen := hshareLen s rfl hobserved
      have hw := walk_of_evaluation heval rfl
      rw [List.take_of_length_le hlen] at hw
      have hentries : (clearedShare (denialsOf access) s).entries =
          deleteAt s.entries (deniedAt ev) := by
        show deleteAt s.entries (positionsOn .smbShare (denialsOf access)) = _
        rw [share_positions hacc hev heval]
      have hshort : (deleteAt s.entries (deniedAt ev)).length ≤ maxAclEntries :=
        (deleteAt_length _ _).trans hlen
      have hlets : LetsThrough ((clearedShare (denialsOf access) s).entries.take maxAclEntries)
          token unownedPresentDacl b ↔ Allowed s.entries token unownedPresentDacl b := by
        rw [hentries, List.take_of_length_le hshort, deleted_lets hw b, or_iff_left]
        rintro ⟨-,hrecorded,-⟩
        exact hrecorded rfl
      constructor
      · intro hpass s' hs' _
        cases hs'
        exact hlets.mp (hpass _ rfl hobserved)
      · intro hall s' hs' _
        cases hs'
        exact hlets.mpr (hall s rfl hobserved)

end Answer

/-- Deleting the denies a denied verdict lists leaves some right exactly when an
allow, or ownership, names one that every crossed ACL has an allow for. -/
theorem denied_cause_iff (token : SubjectToken) (resource : ResourceDacl)
    (share : Option ShareDacl) (fs : List AccessFinding) (access : EffectiveAccess)
    (hacc : resolveAccess token resource share fs = .ok access)
    (hdenied : (classifyAccess access).outcome = .denied) :
    ∃ access', resolveAccess token (clearedDacl (classifyAccess access).denials resource)
        (share.map (clearedShare (classifyAccess access).denials)) fs = .ok access' ∧
      (access'.hasAccess = true ↔ SomethingAllowed token resource share) := by
  have hres := resolveAccess_spec hacc
  obtain ⟨-,hcertain,-⟩ := (denied_iff access).mp hdenied
  obtain ⟨access',hacc'⟩ := resolveAccess_returns fs
    (cleared_fits hres.fits) (cleared_layered hres.layered)
  refine ⟨access',hacc',?_⟩
  rw [has_access_iff hacc']
  exact exists_congr fun b => cleared_bit hacc hcertain b

namespace Sample
open Adg.FirstMatch.Sample Adg.WithheldRights.Sample

/-- A deny that takes away what everyone is allowed. -/
def closedFolder : ResourceDacl :=
  ResourceDacl.stored "folder"
    [ace .deny financeSid NtfsRight.genericAll financeSid_ne,
      ace .allow everyoneSid NtfsRight.readControl everyoneSid_ne] folderKey_ne

/-- A deny on a folder nobody is allowed anything on. -/
def refusedFolder : ResourceDacl :=
  ResourceDacl.stored "folder" [ace .deny financeSid NtfsRight.genericAll financeSid_ne]
    folderKey_ne

end Sample

theorem closed_folder_denied :
    ∃ access access', resolveAccess FirstMatch.Sample.aliceToken Sample.closedFolder none [] =
        .ok access ∧
      (classifyAccess access).outcome = .denied ∧
      resolveAccess FirstMatch.Sample.aliceToken
        (clearedDacl (classifyAccess access).denials Sample.closedFolder) none [] = .ok access' ∧
      (access'.hasAccess = true ↔
        SomethingAllowed FirstMatch.Sample.aliceToken Sample.closedFolder none) := by
  have hruns : (resolveAccess FirstMatch.Sample.aliceToken Sample.closedFolder none []).map
      (fun access => (classifyAccess access).outcome) = .ok .denied := by decide +kernel
  obtain ⟨access,hacc,hdenied⟩ := mapped_ok.mp hruns
  obtain ⟨access',hacc',hiff⟩ := denied_cause_iff FirstMatch.Sample.aliceToken
    Sample.closedFolder none [] access hacc hdenied
  exact ⟨access,access',hacc,hdenied,hacc',hiff⟩

/-- The verdict is a denial although no entry allows anything, so deleting the
deny changes nothing. -/
theorem refused_folder_denied :
    ¬ ∀ (token : SubjectToken) (resource : ResourceDacl) (share : Option ShareDacl)
      (fs : List AccessFinding) (access access' : EffectiveAccess),
      resolveAccess token resource share fs = .ok access →
      (classifyAccess access).outcome = .denied →
      resolveAccess token (clearedDacl (classifyAccess access).denials resource)
        (share.map (clearedShare (classifyAccess access).denials)) fs = .ok access' →
      access'.hasAccess = true := by
  intro hall
  have hruns : (resolveAccess FirstMatch.Sample.aliceToken Sample.refusedFolder none [] >>=
      fun access => (resolveAccess FirstMatch.Sample.aliceToken
        (clearedDacl (classifyAccess access).denials Sample.refusedFolder) none []).map
          fun access' => (access,access')).map
      (fun r => ((classifyAccess r.1).outcome,r.2.hasAccess)) = .ok (.denied,false) := by
    decide +kernel
  obtain ⟨⟨access,access'⟩,hboth,hread⟩ := mapped_ok.mp hruns
  obtain ⟨access1,hacc,hafter⟩ := bind_ok.mp hboth
  obtain ⟨access2,hacc',hsame⟩ := mapped_ok.mp hafter
  cases hsame
  obtain ⟨houtcome,hnothing⟩ := Prod.mk.inj hread
  have hheld := hall _ _ _ _ _ _ hacc houtcome hacc'
  rw [hnothing] at hheld
  cases hheld

end Adg.DenialCauses
