import Adg.AccessCausality
import Adg.ReviewGeneration

/-!
# What has become of a reviewed grant

A review item holds the entries it was frozen from. Compared with the entries
that name the same principal on the same target now, it has a verdict and a list
of changes. Entries are paired by their keys; a key that went and a key that
came are taken for one rewritten entry where no other reading is possible.
-/

set_option autoImplicit false

namespace Adg.GrantDrift
open Adg.Observation Adg.ObjectVersions Adg.SortedLists Adg.CanonicalJson
open Adg.ReviewGeneration Adg.AccessCausality

inductive DriftVerdict where
  | unchanged
  | modified
  | removed
  | unobserved
  deriving DecidableEq, Repr

def DriftVerdict.hasDrifted (v : DriftVerdict) : Bool := v ∈ [.modified, .removed]

inductive GrantChangeKind where
  | added
  | removed
  | changed
  deriving DecidableEq, Repr

def Json.fields : Json → List (String × Json)
  | .object fields => fields
  | _ => []

/-- `_content`: all of an entry but the row of the timeline it came from. -/
def content (e : ReviewedEntry) : List (String × Json) :=
  (Json.fields e.asDigestible).filter fun field => field.1 ≠ "version_id"

/-- `content_digest`. -/
def contentDigest (sha256 : String → String) (entries : List ReviewedEntry) : String :=
  sha256 (canonical (.array ((sortedBy (·.aceKey) entries).map fun e => .object (content e))))

structure GrantChange where
  kind : GrantChangeKind
  aceKey : String
  before : Option GrantEvidence
  after : Option GrantEvidence
  fields : List String
  deriving DecidableEq, Repr

structure ItemDrift where
  verdict : DriftVerdict
  baselineDigest : String
  baselineContentDigest : String
  currentContentDigest : Option String
  currentGrants : List GrantEvidence
  changes : List GrantChange
  currentCertainty : Option Certainty
  targetPresent : Option Bool
  targetCertainty : Option Certainty
  evidenceReissued : Bool := false
  deriving DecidableEq, Repr

/-- `_weakest`: none where there is no entry. -/
def weakest (grants : List GrantEvidence) : Option Certainty :=
  if grants = [] then none else some (weakestCertainty grants)

/-- `_differing_fields`. -/
def differingFields (before after : GrantEvidence) : List String :=
  sortedBy id (((content before.entry).filter fun field =>
    field.1 ≠ "ace_key" ∧ (content after.entry).lookup field.1 ≠ some field.2).map (·.1))

def removal (g : GrantEvidence) : GrantChange := ⟨.removed,g.entry.aceKey,some g,none,[]⟩

def addition (g : GrantEvidence) : GrantChange := ⟨.added,g.entry.aceKey,none,some g,[]⟩

/-- An entry that is another now, under its current key. -/
def rewriting (old new : GrantEvidence) : GrantChange :=
  ⟨.changed,new.entry.aceKey,some old,some new,differingFields old new⟩

/-- A dictionary of the entries: the last of a key stays. -/
def byAceKey (grants : List GrantEvidence) (key : String) : Option GrantEvidence :=
  grants.reverse.find? (·.entry.aceKey = key)

/-- The shape two entries are paired by. -/
def shape (g : GrantEvidence) : String × AceType := (g.entry.trusteeKey,g.entry.aceType)

/-- The values in the order they first occur. -/
def inTurn {α : Type} [DecidableEq α] : List α → List α
  | [] => []
  | a :: rest => a :: (inTurn rest).filter (· ≠ a)

/-- What is reported of the entries of one shape. -/
def pairShape (gone arrived : List GrantEvidence) : List GrantChange :=
  match gone, arrived with
  | [old], [new] => [rewriting old new]
  | _, _ => gone.map removal ++ arrived.map addition

/-- `_pair_rewritten`. -/
def pairRewritten (removals additions : List GrantEvidence) : List GrantChange :=
  (inTurn ((removals ++ additions).map shape)).flatMap fun s =>
    pairShape (removals.filter (shape · = s)) (additions.filter (shape · = s))

section Comparing
variable (baseline current : List GrantEvidence)

/-- The keys of both sides, in order. -/
def allKeys : List String :=
  sortedBy id ((baseline ++ current).map (·.entry.aceKey)).dedup

/-- The entries whose keys went. -/
def orphanedRemovals : List GrantEvidence :=
  (allKeys baseline current).filterMap fun key =>
    if byAceKey current key = none then byAceKey baseline key else none

/-- The entries whose keys came. -/
def orphanedAdditions : List GrantEvidence :=
  (allKeys baseline current).filterMap fun key =>
    if byAceKey baseline key = none then byAceKey current key else none

/-- What became of an entry that kept its key, if anything did. -/
def editAt (key : String) : Option GrantChange := do
  let old ← byAceKey baseline key
  let new ← byAceKey current key
  if differingFields old new = [] then none else some (rewriting old new)

/-- The entries that kept their keys and are not what they were. -/
def editsInPlace : List GrantChange := (allKeys baseline current).filterMap (editAt baseline current)

/-- `_changes`. -/
def changesBetween : List GrantChange :=
  sortedBy (·.aceKey) (editsInPlace baseline current ++
    pairRewritten (orphanedRemovals baseline current) (orphanedAdditions baseline current))

variable (sha256 : String → String)

/-- `compare_grants`. -/
def compareGrants (targetPresent : Option Bool) (targetCertainty : Option Certainty) : ItemDrift :=
  let baselineEvidence := evidenceDigest sha256 (baseline.map (·.entry))
  let baselineContent := contentDigest sha256 (baseline.map (·.entry))
  let currentSorted := sortedBy (·.entry.aceKey) current
  let currentContent := contentDigest sha256 (currentSorted.map (·.entry))
  let drift (verdict : DriftVerdict) (changes : List GrantChange) : ItemDrift :=
    { verdict := verdict
      baselineDigest := baselineEvidence
      baselineContentDigest := baselineContent
      currentContentDigest := some currentContent
      currentGrants := currentSorted
      changes := changes
      currentCertainty := weakest currentSorted
      targetPresent := targetPresent
      targetCertainty := targetCertainty }
  if targetPresent = none then
    { drift .unobserved [] with
      currentContentDigest := none
      currentGrants := []
      currentCertainty := none }
  else if currentSorted = [] then
    drift .removed ((sortedBy (·.entry.aceKey) baseline).map removal)
  else if currentContent = baselineContent then
    { drift .unchanged [] with
      evidenceReissued := evidenceDigest sha256 (currentSorted.map (·.entry)) ≠ baselineEvidence }
  else drift .modified (changesBetween baseline currentSorted)

end Comparing

/-! ### Contents -/

def contentNames : List String :=
  ["target_kind","ace_key","trustee_sid","trustee_key","ace_type","access_mask","permission",
    "ace_flags","source","inherited_from","order_index"]

theorem content_names (e : ReviewedEntry) : (content e).map (·.1) = contentNames := by
  simp [content, Json.fields, ReviewedEntry.asDigestible, contentNames]

theorem content_key (e : ReviewedEntry) : (content e).lookup "ace_key" = some (.text e.aceKey) := by
  simp [content, Json.fields, ReviewedEntry.asDigestible, List.lookup]

/-- The key is part of the content. -/
theorem aceKey_of_content {e o : ReviewedEntry} (h : content e = content o) :
    e.aceKey = o.aceKey := by
  have hk := content_key e
  rw [h, content_key o] at hk
  exact (Json.text.inj (Option.some.inj hk)).symm

theorem content_scalar {e : ReviewedEntry} {field : String × Json} (h : field ∈ content e) :
    sortKeys field.2 = field.2 := by
  have hopt : ∀ {α : Type} (f : α → Json) (o : Option α), (∀ a, sortKeys (f a) = f a) →
      sortKeys (optionalJson f o) = optionalJson f o := by
    intro α f o hf
    cases o with
    | none => simp [optionalJson, sortKeys]
    | some a => exact hf a
  have htext : ∀ t, sortKeys (.text t) = .text t := fun t => by simp [sortKeys]
  have hwhole : ∀ n, sortKeys (.whole n) = .whole n := fun n => by simp [sortKeys]
  simp only [content, Json.fields, ReviewedEntry.asDigestible] at h
  replace h := List.mem_of_mem_filter h
  simp only [List.mem_cons, List.not_mem_nil, or_false] at h
  rcases h with rfl | rfl | rfl | rfl | rfl | rfl | rfl | rfl | rfl | rfl | rfl | rfl
  · exact htext _
  · exact htext _
  · exact htext _
  · exact htext _
  · exact htext _
  · exact hopt _ _ hwhole
  · exact hopt _ _ fun _ => htext _
  · exact hopt _ _ hwhole
  · exact hopt _ _ fun _ => htext _
  · exact hopt _ _ htext
  · exact hopt _ _ hwhole
  · exact hwhole _

theorem content_same {e o : ReviewedEntry} (h : Same (.object (content e)) (.object (content o))) :
    content e = content o := by
  have hsorted : ∀ e : ReviewedEntry, (content e).map (fun f => (f.1,sortKeys f.2)) = content e := by
    intro e
    conv_rhs => rw [← List.map_id (content e)]
    apply List.map_congr_left
    intro f hf
    rw [content_scalar hf, id]
  apply eq_of_fields
  · rw [content_names, content_names]
  · rw [content_names]
    decide
  · have hperm := h.fields
    rwa [hsorted, hsorted] at hperm

/-- What the entries of a list are, whichever rows carry them. -/
def contents (grants : List GrantEvidence) : List (List (String × Json)) :=
  grants.map fun g => content g.entry

/-- Entries that can be told apart by their keys. -/
def Keyed (grants : List GrantEvidence) : Prop := (grants.map (·.entry.aceKey)).Nodup

/-- The key a content is sorted by. -/
def contentKey (c : List (String × Json)) : String :=
  match c.lookup "ace_key" with
  | some (.text key) => key
  | _ => ""

theorem contentKey_content (e : ReviewedEntry) : contentKey (content e) = e.aceKey := by
  unfold contentKey
  rw [content_key]

theorem sorted_contents (grants : List GrantEvidence) :
    (sortedBy (·.aceKey) (grants.map (·.entry))).map content = sortedBy contentKey (contents grants) := by
  rw [sortedBy_map ReviewedEntry.aceKey contentKey_content, List.map_map]
  rfl

theorem contents_keys (grants : List GrantEvidence) :
    (contents grants).map contentKey = grants.map (·.entry.aceKey) := by
  rw [contents, List.map_map]
  apply List.map_congr_left
  intro g _
  exact contentKey_content g.entry

/-- The digest of the contents tells lists with different contents apart. -/
theorem contentDigest_iff {sha256 : String → String} (collisionFree : Function.Injective sha256)
    {a b : List GrantEvidence} (hb : Keyed b) :
    contentDigest sha256 (a.map (·.entry)) = contentDigest sha256 (b.map (·.entry)) ↔
      (contents a).Perm (contents b) := by
  have hperm := fun g : List GrantEvidence => sortedBy_perm contentKey (contents g)
  constructor
  · intro h
    have hsame := (canonical_eq_iff.mp (collisionFree h)).items
    rw [List.map_map, List.map_map] at hsame
    have heq := map_eq_of_keys hsame fun e _ o _ h => content_same h
    rw [sorted_contents, sorted_contents] at heq
    exact (hperm a).symm.trans ((List.Perm.of_eq heq).trans (hperm b))
  · intro h
    have hkeys : ((contents b).map contentKey).Nodup := by
      rw [contents_keys]
      exact hb
    have heq : sortedBy contentKey (contents a) = sortedBy contentKey (contents b) :=
      sortedBy_eq_of_perm contentKey (h.trans (hperm b).symm) (sortedBy_strict hkeys)
    rw [← sorted_contents, ← sorted_contents] at heq
    have hobjects := congrArg (List.map Json.object) heq
    rw [List.map_map, List.map_map] at hobjects
    exact congrArg (fun items => sha256 (canonical (.array items))) hobjects

/-! ### Pairing by keys -/

section Keys
variable {l : List GrantEvidence} (hl : Keyed l)
include hl

theorem byAceKey_some {key : String} {g : GrantEvidence} :
    byAceKey l key = some g ↔ g ∈ l ∧ g.entry.aceKey = key := by
  unfold byAceKey
  constructor
  · intro h
    exact ⟨List.mem_reverse.mp (List.mem_of_find?_eq_some h),by simpa using List.find?_some h⟩
  · rintro ⟨hg,rfl⟩
    apply KeyedTables.find_keyed _ (List.mem_reverse.mpr hg)
    rw [List.map_reverse]
    exact List.nodup_reverse.mpr hl

omit hl in
theorem byAceKey_none {key : String} :
    byAceKey l key = none ↔ ∀ g ∈ l, g.entry.aceKey ≠ key := by
  unfold byAceKey
  rw [List.find?_eq_none]
  simp

end Keys

section Pairing
variable {baseline current : List GrantEvidence}

theorem mem_allKeys {key : String} : key ∈ allKeys baseline current ↔
    (∃ g ∈ baseline, g.entry.aceKey = key) ∨ ∃ g ∈ current, g.entry.aceKey = key := by
  unfold allKeys
  rw [mem_sortedBy, List.mem_dedup, List.map_append, List.mem_append, List.mem_map, List.mem_map]

theorem allKeys_nodup : (allKeys baseline current).Nodup :=
  (sortedBy_perm id _).nodup_iff.mpr (List.nodup_dedup _)

/-- The entries of one side whose keys the other does not have. -/
theorem mem_orphans {keys : List String} {l m : List GrantEvidence} (hl : Keyed l)
    (hkeys : ∀ g ∈ l, g.entry.aceKey ∈ keys) {g : GrantEvidence} :
    g ∈ (keys.filterMap fun key => if byAceKey m key = none then byAceKey l key else none) ↔
      g ∈ l ∧ ∀ o ∈ m, o.entry.aceKey ≠ g.entry.aceKey := by
  rw [List.mem_filterMap]
  constructor
  · rintro ⟨key,-,h⟩
    split_ifs at h with hnone
    obtain ⟨hg,rfl⟩ := (byAceKey_some hl).mp h
    exact ⟨hg,byAceKey_none.mp hnone⟩
  · rintro ⟨hg,hnone⟩
    refine ⟨g.entry.aceKey,hkeys g hg,?_⟩
    rw [if_pos (byAceKey_none.mpr hnone)]
    exact (byAceKey_some hl).mpr ⟨hg,rfl⟩

theorem orphans_nodup {keys : List String} {l m : List GrantEvidence} (hl : Keyed l)
    (hkeys : keys.Nodup) :
    (keys.filterMap fun key => if byAceKey m key = none then byAceKey l key else none).Nodup := by
  apply hkeys.filterMap
  intro key key' g hk hk'
  rw [Option.mem_def] at hk hk'
  split_ifs at hk hk'
  exact ((byAceKey_some hl).mp hk).2.symm.trans ((byAceKey_some hl).mp hk').2

section Sides
variable (hb : Keyed baseline) (hc : Keyed current)
include hb

theorem mem_orphanedRemovals {g : GrantEvidence} : g ∈ orphanedRemovals baseline current ↔
    g ∈ baseline ∧ ∀ o ∈ current, o.entry.aceKey ≠ g.entry.aceKey :=
  mem_orphans hb fun g hg => mem_allKeys.mpr (Or.inl ⟨g,hg,rfl⟩)

include hc

omit hb in
theorem mem_orphanedAdditions {g : GrantEvidence} : g ∈ orphanedAdditions baseline current ↔
    g ∈ current ∧ ∀ o ∈ baseline, o.entry.aceKey ≠ g.entry.aceKey :=
  mem_orphans hc fun g hg => mem_allKeys.mpr (Or.inr ⟨g,hg,rfl⟩)

theorem editAt_some {key : String} {c : GrantChange} : editAt baseline current key = some c ↔
    ∃ old ∈ baseline, ∃ new ∈ current, old.entry.aceKey = key ∧ new.entry.aceKey = key ∧
      differingFields old new ≠ [] ∧ c = rewriting old new := by
  unfold editAt
  rw [Option.bind_eq_bind, Option.bind_eq_some_iff]
  constructor
  · rintro ⟨old,hold,h⟩
    obtain ⟨new,hnew,h⟩ := Option.bind_eq_some_iff.mp h
    obtain ⟨hin,hkey⟩ := (byAceKey_some hb).mp hold
    obtain ⟨hin',hkey'⟩ := (byAceKey_some hc).mp hnew
    split_ifs at h with hdiffer
    exact ⟨old,hin,new,hin',hkey,hkey',hdiffer,(Option.some.inj h).symm⟩
  · rintro ⟨old,hin,new,hin',hkey,hkey',hdiffer,rfl⟩
    refine ⟨old,(byAceKey_some hb).mpr ⟨hin,hkey⟩,?_⟩
    refine Option.bind_eq_some_iff.mpr ⟨new,(byAceKey_some hc).mpr ⟨hin',hkey'⟩,?_⟩
    exact if_neg hdiffer

theorem mem_editsInPlace {c : GrantChange} : c ∈ editsInPlace baseline current ↔
    ∃ old ∈ baseline, ∃ new ∈ current, old.entry.aceKey = new.entry.aceKey ∧
      differingFields old new ≠ [] ∧ c = rewriting old new := by
  unfold editsInPlace
  rw [List.mem_filterMap]
  constructor
  · rintro ⟨key,-,h⟩
    obtain ⟨old,hin,new,hin',hkey,hkey',hrest⟩ := (editAt_some hb hc).mp h
    exact ⟨old,hin,new,hin',hkey.trans hkey'.symm,hrest⟩
  · rintro ⟨old,hin,new,hin',hkey,hrest⟩
    refine ⟨new.entry.aceKey,mem_allKeys.mpr (Or.inr ⟨new,hin',rfl⟩),?_⟩
    exact (editAt_some hb hc).mpr ⟨old,hin,new,hin',hkey,rfl,hrest⟩

end Sides
end Pairing

/-! ### What the changes account for -/

/-- The entries some changes are about, as they were. -/
def befores (changes : List GrantChange) : List GrantEvidence := changes.filterMap (·.before)

/-- The entries some changes are about, as they are. -/
def afters (changes : List GrantChange) : List GrantEvidence := changes.filterMap (·.after)

theorem mem_inTurn {α : Type} [DecidableEq α] {l : List α} {a : α} : a ∈ inTurn l ↔ a ∈ l := by
  induction l with
  | nil => rfl
  | cons b l ih =>
    rw [inTurn, List.mem_cons, List.mem_cons, List.mem_filter, ih]
    by_cases h : a = b <;> simp [h]

theorem inTurn_nodup {α : Type} [DecidableEq α] (l : List α) : (inTurn l).Nodup := by
  induction l with
  | nil => exact List.nodup_nil
  | cons b l ih =>
    rw [inTurn, List.nodup_cons]
    refine ⟨?_,ih.filter _⟩
    rw [List.mem_filter]
    simp

theorem pairShape_befores (gone arrived : List GrantEvidence) :
    befores (pairShape gone arrived) = gone := by
  have hremoval : ∀ l : List GrantEvidence, befores (l.map removal) = l := by
    intro l
    induction l with
    | nil => rfl
    | cons g l ih => exact congrArg (g :: ·) ih
  have haddition : ∀ l : List GrantEvidence, befores (l.map addition) = [] := by
    intro l
    induction l with
    | nil => rfl
    | cons g l ih => exact ih
  unfold pairShape
  split
  · rfl
  · rw [befores, List.filterMap_append]
    show befores _ ++ befores _ = _
    rw [hremoval, haddition, List.append_nil]

theorem pairShape_afters (gone arrived : List GrantEvidence) :
    afters (pairShape gone arrived) = arrived := by
  have hremoval : ∀ l : List GrantEvidence, afters (l.map removal) = [] := by
    intro l
    induction l with
    | nil => rfl
    | cons g l ih => exact ih
  have haddition : ∀ l : List GrantEvidence, afters (l.map addition) = l := by
    intro l
    induction l with
    | nil => rfl
    | cons g l ih => exact congrArg (g :: ·) ih
  unfold pairShape
  split
  · rfl
  · rw [afters, List.filterMap_append]
    show afters _ ++ afters _ = _
    rw [hremoval, haddition, List.nil_append]

/-- The groups by a value make up the list. -/
theorem groups_perm {α β : Type} [DecidableEq β] {f : α → β} {values : List β} {l : List α}
    (hvalues : values.Nodup) (hl : l.Nodup) (hall : ∀ a ∈ l, f a ∈ values) :
    (values.flatMap fun v => l.filter (f · = v)).Perm l := by
  rw [List.perm_ext_iff_of_nodup _ hl]
  · intro a
    rw [List.mem_flatMap]
    constructor
    · rintro ⟨v,-,ha⟩
      exact List.mem_of_mem_filter ha
    · intro ha
      exact ⟨f a,hall a ha,List.mem_filter.mpr ⟨ha,by simp⟩⟩
  · rw [List.nodup_flatMap]
    refine ⟨fun v _ => hl.filter _,?_⟩
    apply hvalues.imp
    intro v w hvw a hv hw
    rw [List.mem_filter, decide_eq_true_eq] at hv hw
    exact hvw (hv.2.symm.trans hw.2)

theorem pairRewritten_befores {removals additions : List GrantEvidence} (h : removals.Nodup) :
    (befores (pairRewritten removals additions)).Perm removals := by
  unfold pairRewritten befores
  rw [List.filterMap_flatMap]
  have hgroups : ∀ s, (pairShape (removals.filter (shape · = s))
      (additions.filter (shape · = s))).filterMap (·.before) = removals.filter (shape · = s) :=
    fun s => pairShape_befores _ _
  simp only [hgroups]
  apply groups_perm (inTurn_nodup _) h
  intro g hg
  rw [mem_inTurn, List.map_append]
  exact List.mem_append_left _ (List.mem_map_of_mem hg)

theorem pairRewritten_afters {removals additions : List GrantEvidence} (h : additions.Nodup) :
    (afters (pairRewritten removals additions)).Perm additions := by
  unfold pairRewritten afters
  rw [List.filterMap_flatMap]
  have hgroups : ∀ s, (pairShape (removals.filter (shape · = s))
      (additions.filter (shape · = s))).filterMap (·.after) = additions.filter (shape · = s) :=
    fun s => pairShape_afters _ _
  simp only [hgroups]
  apply groups_perm (inTurn_nodup _) h
  intro g hg
  rw [mem_inTurn, List.map_append]
  exact List.mem_append_right _ (List.mem_map_of_mem hg)

/-- Where no field differs but the key, and the keys are one, the contents are. -/
theorem differing_nil_iff {g o : GrantEvidence} (hkey : g.entry.aceKey = o.entry.aceKey) :
    differingFields g o = [] ↔ content g.entry = content o.entry := by
  have hnames : ∀ e, ((content e).map (·.1)).Nodup := by
    intro e
    rw [content_names]
    decide
  have hempty : differingFields g o = [] ↔ ∀ field ∈ content g.entry,
      field.1 = "ace_key" ∨ field ∈ content o.entry := by
    unfold differingFields
    rw [← List.length_eq_zero_iff, sortedBy_length, List.length_map, List.length_eq_zero_iff,
      List.filter_eq_nil_iff]
    apply forall₂_congr
    intro field _
    rw [decide_eq_true_eq, not_and_or, not_not, not_not, lookup_keyed (hnames _)]
  rw [hempty]
  constructor
  · intro h
    have hsub : content g.entry ⊆ content o.entry := by
      intro field hfield
      rcases h field hfield with hname | hin
      · have hvalue := (lookup_keyed (hnames _)).mpr hfield
        rw [hname, content_key, hkey] at hvalue
        rw [← Prod.mk.eta (p := field), hname, ← Option.some.inj hvalue]
        exact (lookup_keyed (hnames _)).mp (content_key _)
      · exact hin
    have hlength := congrArg List.length
      ((content_names g.entry).trans (content_names o.entry).symm)
    rw [List.length_map, List.length_map] at hlength
    apply eq_of_fields (by rw [content_names, content_names]) (hnames _)
    exact ((List.Nodup.of_map _ (hnames _)).subperm hsub).perm_of_length_le hlength.ge
  · intro h field hfield
    exact Or.inr (h ▸ hfield)

section Accounting
variable {baseline current : List GrantEvidence} (hb : Keyed baseline) (hc : Keyed current)

theorem Keyed.nodup {l : List GrantEvidence} (hl : Keyed l) : l.Nodup := List.Nodup.of_map _ hl

include hb hc

theorem edits_nodup {side : GrantChange → Option GrantEvidence}
    (hside : ∀ old new : GrantEvidence, old.entry.aceKey = new.entry.aceKey →
      ∀ g ∈ side (rewriting old new), g.entry.aceKey = new.entry.aceKey) :
    ((editsInPlace baseline current).filterMap side).Nodup := by
  unfold editsInPlace
  rw [List.filterMap_filterMap]
  apply allKeys_nodup.filterMap
  have hfrom : ∀ key g, g ∈ (editAt baseline current key).bind side → g.entry.aceKey = key := by
    intro key g hg
    obtain ⟨c,hcg,hg⟩ := Option.bind_eq_some_iff.mp hg
    obtain ⟨old,-,new,-,hkey,hkey',-,rfl⟩ := (editAt_some hb hc).mp hcg
    exact (hside old new (hkey.trans hkey'.symm) g hg).trans hkey'
  intro key key' g hk hk'
  exact (hfrom key g hk).symm.trans (hfrom key' g hk')

theorem edits_befores {g : GrantEvidence} : g ∈ befores (editsInPlace baseline current) ↔
    g ∈ baseline ∧ ∃ o ∈ current, o.entry.aceKey = g.entry.aceKey ∧
      content o.entry ≠ content g.entry := by
  unfold befores
  rw [List.mem_filterMap]
  constructor
  · rintro ⟨c,hcin,hg⟩
    obtain ⟨old,hin,new,hin',hkey,hdiffer,rfl⟩ := (mem_editsInPlace hb hc).mp hcin
    obtain rfl := Option.some.inj hg
    refine ⟨hin,new,hin',hkey.symm,fun h => hdiffer ?_⟩
    exact (differing_nil_iff hkey).mpr h.symm
  · rintro ⟨hin,o,hin',hkey,hdiffer⟩
    refine ⟨rewriting g o,(mem_editsInPlace hb hc).mpr ⟨g,hin,o,hin',hkey.symm,?_,rfl⟩,rfl⟩
    exact fun h => hdiffer ((differing_nil_iff hkey.symm).mp h).symm

theorem edits_afters {g : GrantEvidence} : g ∈ afters (editsInPlace baseline current) ↔
    g ∈ current ∧ ∃ o ∈ baseline, o.entry.aceKey = g.entry.aceKey ∧
      content o.entry ≠ content g.entry := by
  unfold afters
  rw [List.mem_filterMap]
  constructor
  · rintro ⟨c,hcin,hg⟩
    obtain ⟨old,hin,new,hin',hkey,hdiffer,rfl⟩ := (mem_editsInPlace hb hc).mp hcin
    obtain rfl := Option.some.inj hg
    refine ⟨hin',old,hin,hkey,fun h => hdiffer ?_⟩
    exact (differing_nil_iff hkey).mpr h
  · rintro ⟨hin,o,hin',hkey,hdiffer⟩
    refine ⟨rewriting o g,(mem_editsInPlace hb hc).mpr ⟨o,hin',g,hin,hkey,?_,rfl⟩,rfl⟩
    exact fun h => hdiffer ((differing_nil_iff hkey).mp h)

omit hb hc in
/-- An entry that was changed in place or has no counterpart. -/
theorem touched_iff {l m : List GrantEvidence} (hm : Keyed m) {g : GrantEvidence} :
    ((g ∈ l ∧ ∃ o ∈ m, o.entry.aceKey = g.entry.aceKey ∧ content o.entry ≠ content g.entry) ∨
      (g ∈ l ∧ ∀ o ∈ m, o.entry.aceKey ≠ g.entry.aceKey)) ↔
    g ∈ l ∧ ∀ o ∈ m, o.entry.aceKey = g.entry.aceKey → content o.entry ≠ content g.entry := by
  rw [← and_or_left]
  apply and_congr_right
  intro _
  constructor
  · rintro (⟨o,ho,hkey,hdiffer⟩ | hnone)
    · intro w hw hkey'
      rwa [List.inj_on_of_nodup_map hm hw ho (hkey'.trans hkey.symm)]
    · exact fun o ho hkey => absurd hkey (hnone o ho)
  · intro hall
    by_cases h : ∃ o ∈ m, o.entry.aceKey = g.entry.aceKey
    · obtain ⟨o,ho,hkey⟩ := h
      exact Or.inl ⟨o,ho,hkey,hall o ho hkey⟩
    · push Not at h
      exact Or.inr h

theorem changes_befores : (befores (changesBetween baseline current)).Nodup ∧
    ∀ g, g ∈ befores (changesBetween baseline current) ↔ g ∈ baseline ∧
      ∀ o ∈ current, o.entry.aceKey = g.entry.aceKey → content o.entry ≠ content g.entry := by
  have hremovals : (orphanedRemovals baseline current).Nodup := orphans_nodup hb allKeys_nodup
  have hperm : (befores (changesBetween baseline current)).Perm
      (befores (editsInPlace baseline current) ++ orphanedRemovals baseline current) := by
    unfold changesBetween befores
    refine ((sortedBy_perm _ _).filterMap _).trans ?_
    rw [List.filterMap_append]
    exact (pairRewritten_befores hremovals).append_left _
  constructor
  · rw [hperm.nodup_iff, List.nodup_append]
    refine ⟨?_,hremovals,?_⟩
    · apply edits_nodup hb hc
      intro old new hkey g hg
      rw [← Option.some.inj hg, hkey]
    · intro g hg o ho hgo
      obtain ⟨-,w,hw,hkey,-⟩ := (edits_befores hb hc).mp hg
      exact ((mem_orphanedRemovals hb).mp ho).2 w hw (hgo ▸ hkey)
  · intro g
    rw [hperm.mem_iff, List.mem_append, edits_befores hb hc, mem_orphanedRemovals hb]
    exact touched_iff hc

theorem changes_afters : (afters (changesBetween baseline current)).Nodup ∧
    ∀ g, g ∈ afters (changesBetween baseline current) ↔ g ∈ current ∧
      ∀ o ∈ baseline, o.entry.aceKey = g.entry.aceKey → content o.entry ≠ content g.entry := by
  have hadditions : (orphanedAdditions baseline current).Nodup := orphans_nodup hc allKeys_nodup
  have hperm : (afters (changesBetween baseline current)).Perm
      (afters (editsInPlace baseline current) ++ orphanedAdditions baseline current) := by
    unfold changesBetween afters
    refine ((sortedBy_perm _ _).filterMap _).trans ?_
    rw [List.filterMap_append]
    exact (pairRewritten_afters hadditions).append_left _
  constructor
  · rw [hperm.nodup_iff, List.nodup_append]
    refine ⟨?_,hadditions,?_⟩
    · apply edits_nodup hb hc
      intro old new _ g hg
      rw [← Option.some.inj hg]
    · intro g hg o ho hgo
      obtain ⟨-,w,hw,hkey,-⟩ := (edits_afters hb hc).mp hg
      exact ((mem_orphanedAdditions hc).mp ho).2 w hw (hgo ▸ hkey)
  · intro g
    rw [hperm.mem_iff, List.mem_append, edits_afters hb hc, mem_orphanedAdditions hc]
    exact touched_iff hb

end Accounting

/-- The entries that no change is about. -/
def untouched (touched grants : List GrantEvidence) : List GrantEvidence :=
  grants.filter fun g => g ∉ touched

/-- The changes turn one list into the other, each entry is in one of them at most, and
those in none are the same on both sides. -/
structure Accounted (baseline current : List GrantEvidence) (changes : List GrantChange) :
    Prop where
  befores_once : (befores changes).Nodup
  befores_frozen : befores changes ⊆ baseline
  afters_once : (afters changes).Nodup
  afters_current : afters changes ⊆ current
  kept : (contents (untouched (befores changes) baseline)).Perm
    (contents (untouched (afters changes) current))
  replaced : (contents (untouched (befores changes) baseline ++ afters changes)).Perm
    (contents current)

theorem contents_nodup {l : List GrantEvidence} (hl : Keyed l) : (contents l).Nodup := by
  apply List.Nodup.of_map contentKey
  rw [contents_keys]
  exact hl

theorem mem_contents {l : List GrantEvidence} {c : List (String × Json)} :
    c ∈ contents l ↔ ∃ g ∈ l, content g.entry = c := List.mem_map

theorem untouched_keyed {touched l : List GrantEvidence} (hl : Keyed l) :
    Keyed (untouched touched l) := List.Nodup.sublist (List.filter_sublist.map _) hl

/-- Once the entries in no change agree, the changes turn one list into the other. -/
theorem replaced_of_kept {baseline current befores afters : List GrantEvidence}
    (hafters : afters.Nodup) (hsub : afters ⊆ current) (hc : current.Nodup)
    (hkept : (contents (untouched befores baseline)).Perm (contents (untouched afters current))) :
    (contents (untouched befores baseline ++ afters)).Perm (contents current) := by
  have hsplit : (untouched afters current ++ afters).Perm current := by
    rw [List.perm_ext_iff_of_nodup _ hc]
    · intro g
      rw [List.mem_append, untouched, List.mem_filter, decide_eq_true_eq]
      constructor
      · rintro (⟨hg,-⟩ | hg)
        · exact hg
        · exact hsub hg
      · intro hg
        by_cases h : g ∈ afters
        · exact Or.inr h
        · exact Or.inl ⟨hg,h⟩
    · rw [List.nodup_append]
      refine ⟨hc.filter _,hafters,?_⟩
      intro g hg o ho hgo
      exact of_decide_eq_true (List.mem_filter.mp hg).2 (hgo ▸ ho)
  have hmap : (contents (untouched befores baseline ++ afters)).Perm
      (contents (untouched afters current ++ afters)) := by
    unfold contents at hkept ⊢
    rw [List.map_append, List.map_append]
    exact hkept.append_right _
  exact hmap.trans (hsplit.map _)

/-- What no change is about is what both sides hold. -/
theorem mem_contents_untouched {l m touched : List GrantEvidence}
    (h : ∀ g, g ∈ touched ↔ g ∈ l ∧
      ∀ o ∈ m, o.entry.aceKey = g.entry.aceKey → content o.entry ≠ content g.entry)
    {c : List (String × Json)} :
    c ∈ contents (untouched touched l) ↔ c ∈ contents l ∧ c ∈ contents m := by
  rw [mem_contents, mem_contents, mem_contents]
  constructor
  · rintro ⟨g,hg,rfl⟩
    rw [untouched, List.mem_filter, decide_eq_true_eq, h, not_and] at hg
    obtain ⟨hin,hkept⟩ := hg
    have hsome := hkept hin
    push Not at hsome
    obtain ⟨o,ho,-,hsame⟩ := hsome
    exact ⟨⟨g,hin,rfl⟩,o,ho,hsame⟩
  · rintro ⟨⟨g,hin,rfl⟩,o,ho,hsame⟩
    refine ⟨g,?_,rfl⟩
    rw [untouched, List.mem_filter, decide_eq_true_eq, h, not_and]
    exact ⟨hin,fun _ hall => hall o ho (aceKey_of_content hsame) hsame⟩

theorem changesBetween_accounted {baseline current : List GrantEvidence} (hb : Keyed baseline)
    (hc : Keyed current) : Accounted baseline current (changesBetween baseline current) := by
  obtain ⟨hbefores,hbefore⟩ := changes_befores hb hc
  obtain ⟨hafters,hafter⟩ := changes_afters hb hc
  have hkept : (contents (untouched (befores (changesBetween baseline current)) baseline)).Perm
      (contents (untouched (afters (changesBetween baseline current)) current)) := by
    rw [List.perm_ext_iff_of_nodup (contents_nodup (untouched_keyed hb))
      (contents_nodup (untouched_keyed hc))]
    intro c
    rw [mem_contents_untouched hbefore, mem_contents_untouched hafter, and_comm]
  exact
    { befores_once := hbefores
      befores_frozen := fun g hg => ((hbefore g).mp hg).1
      afters_once := hafters
      afters_current := fun g hg => ((hafter g).mp hg).1
      kept := hkept
      replaced := replaced_of_kept hafters (fun g hg => ((hafter g).mp hg).1) hc.nodup hkept }

theorem untouched_nothing (l : List GrantEvidence) : untouched [] l = l := by
  unfold untouched
  rw [List.filter_eq_self]
  simp

/-- Nothing is reported where both sides hold the same, and all of it is accounted for. -/
theorem nothing_accounted {baseline current : List GrantEvidence}
    (h : (contents baseline).Perm (contents current)) : Accounted baseline current [] := by
  exact
    { befores_once := List.nodup_nil
      befores_frozen := List.nil_subset _
      afters_once := List.nodup_nil
      afters_current := List.nil_subset _
      kept := by
        show (contents (untouched [] baseline)).Perm (contents (untouched [] current))
        rw [untouched_nothing, untouched_nothing]
        exact h
      replaced := by
        show (contents (untouched [] baseline ++ [])).Perm (contents current)
        rw [untouched_nothing, List.append_nil]
        exact h }

/-- All of it went. -/
theorem removals_accounted {baseline : List GrantEvidence} (hb : Keyed baseline) :
    Accounted baseline [] ((sortedBy (·.entry.aceKey) baseline).map removal) := by
  have hbefores : ∀ l : List GrantEvidence, befores (l.map removal) = l := by
    intro l
    induction l with
    | nil => rfl
    | cons g l ih => exact congrArg (g :: ·) ih
  have hafters : ∀ l : List GrantEvidence, afters (l.map removal) = [] := by
    intro l
    induction l with
    | nil => rfl
    | cons g l ih => exact ih
  have hnone : untouched (sortedBy (·.entry.aceKey) baseline) baseline = [] := by
    unfold untouched
    rw [List.filter_eq_nil_iff]
    intro g hg
    simpa using hg
  constructor
  · rw [hbefores]
    exact (sortedBy_perm _ _).nodup_iff.mpr hb.nodup
  · rw [hbefores]
    exact (sortedBy_perm _ _).subset
  · rw [hafters]
    exact List.nodup_nil
  · rw [hafters]
    exact List.nil_subset _
  · rw [hbefores, hnone]
    exact List.Perm.refl _
  · rw [hbefores, hafters, hnone]
    exact List.Perm.refl _

/-- The order of the entries does not count. -/
theorem Accounted.of_perm {baseline current sorted : List GrantEvidence}
    {changes : List GrantChange} (h : Accounted baseline sorted changes)
    (hperm : sorted.Perm current) : Accounted baseline current changes where
  befores_once := h.befores_once
  befores_frozen := h.befores_frozen
  afters_once := h.afters_once
  afters_current := fun _ hg => hperm.subset (h.afters_current hg)
  kept := h.kept.trans ((hperm.filter _).map _)
  replaced := h.replaced.trans (hperm.map _)

/-- Where something differs, some change says so. -/
theorem Accounted.same_of_nothing {baseline current : List GrantEvidence}
    (h : Accounted baseline current []) : (contents baseline).Perm (contents current) := by
  have hreplaced := h.replaced
  change (contents (untouched [] baseline ++ [])).Perm _ at hreplaced
  rwa [untouched_nothing, List.append_nil] at hreplaced

/-- What a comparison promises. The verdicts are tried in this order. -/
structure Accounts (baseline current : List GrantEvidence) (present : Option Bool)
    (drift : ItemDrift) : Prop where
  unobserved : drift.verdict = .unobserved ↔ present = none
  removed : drift.verdict = .removed ↔
    present.isSome = true ∧ (present = some false ∨ current = [])
  unchanged : drift.verdict = .unchanged ↔
    present = some true ∧ current ≠ [] ∧ (contents baseline).Perm (contents current)
  silent : drift.changes = [] ↔ drift.verdict = .unchanged ∨ drift.verdict = .unobserved
  accounted : present.isSome = true → Accounted baseline current drift.changes

section Verdicts
variable {sha256 : String → String} (collisionFree : Function.Injective sha256)
  {baseline current : List GrantEvidence} (hb : Keyed baseline) (hc : Keyed current)
  (certainty : Option Certainty)

theorem compare_unobserved : Accounts baseline current none
    (compareGrants baseline current sha256 none certainty) := by
  have hverdict : (compareGrants baseline current sha256 none certainty).verdict = .unobserved := rfl
  constructor
  · exact iff_of_true hverdict rfl
  · rw [hverdict]
    simp
  · rw [hverdict]
    simp
  · exact iff_of_true rfl (Or.inr hverdict)
  · exact fun h => absurd h Bool.false_ne_true

include hb in
/-- Without entries now the verdict is a removal, which has to name something. -/
theorem compare_removed (present : Bool) : Accounts baseline [] (some present)
    (compareGrants baseline [] sha256 (some present) certainty) ↔ baseline ≠ [] := by
  have hverdict : (compareGrants baseline [] sha256 (some present) certainty).verdict = .removed :=
    rfl
  have hchanges : (compareGrants baseline [] sha256 (some present) certainty).changes =
      (sortedBy (·.entry.aceKey) baseline).map removal := rfl
  have hnil : (sortedBy (·.entry.aceKey) baseline).map removal = [] ↔ baseline = [] := by
    rw [List.map_eq_nil_iff, ← List.length_eq_zero_iff, sortedBy_length, List.length_eq_zero_iff]
  constructor
  · intro h hnone
    have hsilent := h.silent.mp (by rw [hchanges, hnil, hnone])
    rw [hverdict] at hsilent
    simp at hsilent
  · intro hsome
    constructor
    · rw [hverdict]
      simp
    · exact iff_of_true hverdict ⟨rfl,Or.inr rfl⟩
    · rw [hverdict]
      simp
    · rw [hverdict, hchanges, hnil]
      simp [hsome]
    · intro _
      rw [hchanges]
      exact removals_accounted hb

include collisionFree hb in
/-- With entries now the contents decide. -/
theorem standing_verdict (hcurrent : current ≠ []) {present : Option Bool}
    (hpresent : present ≠ none) :
    ((contents current).Perm (contents baseline) →
      (compareGrants baseline current sha256 present certainty).verdict = .unchanged ∧
      (compareGrants baseline current sha256 present certainty).changes = []) ∧
    (¬ (contents current).Perm (contents baseline) →
      (compareGrants baseline current sha256 present certainty).verdict = .modified ∧
      (compareGrants baseline current sha256 present certainty).changes =
        changesBetween baseline (sortedBy (·.entry.aceKey) current)) := by
  have hsorted := sortedBy_perm (fun g : GrantEvidence => g.entry.aceKey) current
  have hstanding : sortedBy (fun g : GrantEvidence => g.entry.aceKey) current ≠ [] :=
    fun h => hcurrent (List.perm_nil.mp (h ▸ hsorted.symm))
  have hcontents : (contents (sortedBy (·.entry.aceKey) current)).Perm (contents current) :=
    hsorted.map _
  have hiff : contentDigest sha256 ((sortedBy (·.entry.aceKey) current).map (·.entry)) =
      contentDigest sha256 (baseline.map (·.entry)) ↔
        (contents current).Perm (contents baseline) := by
    rw [contentDigest_iff collisionFree hb]
    exact ⟨hcontents.symm.trans,hcontents.trans⟩
  unfold compareGrants
  constructor
  · intro h
    simp [hpresent, hstanding, hiff.mpr h]
  · intro h
    simp [hpresent, hstanding, mt hiff.mp h]

include collisionFree hb hc in
theorem compare_standing (hcurrent : current ≠ []) (present : Bool) :
    Accounts baseline current (some present)
      (compareGrants baseline current sha256 (some present) certainty) ↔ present = true := by
  obtain ⟨hsame,hmoved⟩ := standing_verdict collisionFree hb certainty hcurrent
    (Option.some_ne_none present)
  set drift := compareGrants baseline current sha256 (some present) certainty
  by_cases hequal : (contents current).Perm (contents baseline)
  · obtain ⟨hverdict,hchanges⟩ := hsame hequal
    constructor
    · intro h
      exact Option.some.inj (h.unchanged.mp hverdict).1
    · rintro rfl
      constructor
      · simp [hverdict]
      · simp [hverdict, hcurrent]
      · exact iff_of_true hverdict ⟨rfl,hcurrent,hequal.symm⟩
      · exact iff_of_true hchanges (Or.inl hverdict)
      · intro _
        rw [hchanges]
        exact nothing_accounted hequal.symm
  · obtain ⟨hverdict,hchanges⟩ := hmoved hequal
    have hsorted := sortedBy_perm (fun g : GrantEvidence => g.entry.aceKey) current
    have haccounted : Accounted baseline current drift.changes := by
      rw [hchanges]
      exact (changesBetween_accounted hb ((hsorted.map _).nodup_iff.mpr hc)).of_perm hsorted
    constructor
    · intro h
      by_contra hgone
      have hremoved := h.removed.mpr ⟨rfl,Or.inl (by simpa using hgone)⟩
      rw [hverdict] at hremoved
      cases hremoved
    · rintro rfl
      constructor
      · simp [hverdict]
      · simp [hverdict, hcurrent]
      · rw [hverdict]
        exact iff_of_false (by simp) fun h => hequal h.2.2.symm
      · rw [hverdict]
        refine iff_of_false (fun hnone => ?_) (by simp)
        rw [hnone] at haccounted
        exact hequal haccounted.same_of_nothing.symm
      · exact fun _ => haccounted

end Verdicts

/-- The comparison keeps its promise unless entries remain of a target that is gone, or
there was never an entry and is none. -/
theorem drift_accounts_iff {sha256 : String → String} (collisionFree : Function.Injective sha256)
    {baseline current : List GrantEvidence} (hb : Keyed baseline) (hc : Keyed current)
    (present : Option Bool) (certainty : Option Certainty) :
    Accounts baseline current present (compareGrants baseline current sha256 present certainty) ↔
      ¬ (present = some false ∧ current ≠ []) ∧
      ¬ (present.isSome = true ∧ baseline = [] ∧ current = []) := by
  cases present with
  | none => exact iff_of_true (compare_unobserved certainty) (by simp)
  | some present =>
    by_cases hcurrent : current = []
    · subst hcurrent
      rw [compare_removed hb]
      simp
    · rw [compare_standing collisionFree hb hc certainty hcurrent]
      simp [hcurrent]

namespace Sample

def reader : GrantEvidence where
  entry :=
    { targetKind := .resource
      aceKey := "ace1"
      trusteeSid := "S-1-5-21-1-2-3-1104"
      trusteeKey := "S-1-5-21-1-2-3-1104"
      aceType := .allow
      accessMask := some 1179785
      permission := none
      aceFlags := some 3
      source := some .explicit
      inheritedFrom := none
      orderIndex := some 0
      versionId := 7 }
  observedFrom := 0
  lastConfirmedAt := 5
  certainty := .observed

/-- The entry once its rights were widened: another mask, so another key. -/
def writer : GrantEvidence :=
  { reader with
    entry := { reader.entry with
      aceKey := "ace2"
      accessMask := some 1245631
      versionId := 9 } }

def contentText (g : GrantEvidence) : String := canonical (.array [.object (content g.entry)])

def evidenceText (g : GrantEvidence) : String := canonical (.array [g.entry.asDigestible])

/-- SHA-256 on the three documents that are digested. -/
def sampleHash (text : String) : String :=
  Equiv.swap (contentText reader) "8025fe6ff9ab944e8adf823e6dd6e50f1ef479a18449650f4b86ede9cc432e31"
    (Equiv.swap (contentText writer)
      "0e903966763d8f22ca705406a034b75d6e388f4cc71c5f71587b23e2e5fe27a4"
      (Equiv.swap (evidenceText reader)
        "7c21edde8efe2d5b21bc0cba311debaef7497d4409027620e94bb3930682f07b" text))

theorem sampleHash_injective : Function.Injective sampleHash :=
  (Equiv.injective _).comp ((Equiv.injective _).comp (Equiv.injective _))

example : (compareGrants [reader] [writer] id (some true) none).changes =
    [⟨.changed,"ace2",some reader,some writer,["access_mask"]⟩] := by decide +kernel

end Sample

/-- The drift of a widened entry is accounted for. -/
theorem drift_accounts_widened :
    Accounts [Sample.reader] [Sample.writer] (some true)
      (compareGrants [Sample.reader] [Sample.writer] Sample.sampleHash (some true) none) :=
  have hbefore : Keyed [Sample.reader] := List.nodup_singleton _
  have hafter : Keyed [Sample.writer] := List.nodup_singleton _
  (drift_accounts_iff Sample.sampleHash_injective hbefore hafter (some true) none).mpr
    ⟨by simp,by simp⟩

/-- A folder is gone and its entry is still on record: the verdict is that nothing changed. -/
theorem gone_target_unchanged : ¬ Accounts [Sample.reader] [Sample.reader] (some false)
    (compareGrants [Sample.reader] [Sample.reader] Sample.sampleHash (some false) none) := by
  intro h
  have hremoved := h.removed.mpr ⟨rfl,Or.inl rfl⟩
  have hkeyed : Keyed [Sample.reader] := List.nodup_singleton _
  have hunchanged := (standing_verdict Sample.sampleHash_injective hkeyed none
    (List.cons_ne_nil _ _) (Option.some_ne_none false)).1 (List.Perm.refl _)
  rw [hunchanged.1] at hremoved
  cases hremoved

end Adg.GrantDrift
