import Adg.SortedLists
import Adg.VersionTable

/-!
# Reading versions at an instant

A read names an instant and what it looks for, and finds the versions that
cover the instant and hold a state, in the order of their keys. What it finds
depends on nothing but the rows that answer at that instant.
-/

set_option autoImplicit false

namespace Adg.VersionReads
open Adg.ObjectVersions Adg.VersionTable Adg.SortedLists

/-- The rows that cover an instant and are no tombstones. -/
def answering (t : Table) (moment : Instant) : List ObjectVersion :=
  t.rows.filter fun v => v.covers moment && v.isPresent

/-- One statement of the reader, `present_only`. -/
def select (t : Table) (moment : Instant) (p : ObjectVersion → Bool) : List ObjectVersion :=
  sortedBy (·.key) ((answering t moment).filter p)

/-- `versions_at`. -/
def versionsAt (t : Table) (kind : ObservationKind) (keys : List String) (moment : Instant) :
    List ObjectVersion :=
  select t moment fun v => v.kind = kind && v.key ∈ keys

/-- `contained_at`. -/
def containedAt (t : Table) (kind : ObservationKind) (containers : List String)
    (moment : Instant) : List ObjectVersion :=
  select t moment fun v => v.kind = kind && v.containerKey.any (· ∈ containers)

/-- `related_at`. -/
def relatedAt (t : Table) (kind : ObservationKind) (related : List String) (moment : Instant) :
    List ObjectVersion :=
  select t moment fun v => v.kind = kind && v.relatedKey.any (· ∈ related)

/-- The values of a dictionary by key. Versions in the order of their keys stand
together where they share one, and the last of them counts. -/
def asDict : List ObjectVersion → List ObjectVersion
  | [] => []
  | v :: rest => if rest.any (·.object = v.object) then asDict rest else v :: asDict rest

theorem mem_select {t : Table} {moment : Instant} {p : ObjectVersion → Bool}
    {v : ObjectVersion} :
    v ∈ select t moment p ↔ v ∈ answering t moment ∧ p v = true := by
  unfold select
  rw [mem_sortedBy, List.mem_filter]

/-- A dictionary of different objects keeps them as they came. -/
theorem asDict_self {l : List ObjectVersion} (h : (l.map (·.object)).Nodup) : asDict l = l := by
  induction l with
  | nil => rfl
  | cons v l ih =>
    obtain ⟨hv,hl⟩ := List.nodup_cons.mp h
    have hno : ¬ l.any (·.object = v.object) = true := by
      intro hany
      obtain ⟨w,hw,hobj⟩ := List.any_eq_true.mp hany
      exact hv (List.mem_map.mpr ⟨w,hw,of_decide_eq_true hobj⟩)
    rw [asDict, if_neg hno, ih hl]

/-- A dictionary keeps every object. -/
theorem asDict_keeps {l : List ObjectVersion} {v : ObjectVersion} (h : v ∈ l) :
    ∃ w ∈ asDict l, w.object = v.object := by
  induction l generalizing v with
  | nil => cases h
  | cons u l ih =>
    unfold asDict
    split_ifs with hagain
    · rcases List.mem_cons.mp h with rfl | h
      · obtain ⟨w,hw,hsame⟩ := List.any_eq_true.mp hagain
        obtain ⟨x,hx,hobject⟩ := ih hw
        exact ⟨x,hx,hobject.trans (of_decide_eq_true hsame)⟩
      · exact ih h
    · rcases List.mem_cons.mp h with rfl | h
      · exact ⟨v,List.mem_cons_self,rfl⟩
      · obtain ⟨w,hw,hsame⟩ := ih h
        exact ⟨w,List.mem_cons_of_mem u hw,hsame⟩

theorem asDict_subset (l : List ObjectVersion) : asDict l ⊆ l := by
  induction l with
  | nil => exact List.Subset.refl _
  | cons v l ih =>
    unfold asDict
    split_ifs
    · exact fun w hw => List.mem_cons_of_mem v (ih hw)
    · exact List.cons_subset_cons v ih

/-- What a version says, less the instants it was seen at. -/
structure Said where
  versionId : ℕ
  kind : ObservationKind
  key : String
  containerKey : Option String
  relatedKey : Option String
  state : Option State
  deriving DecidableEq, Repr

def said (v : ObjectVersion) : Said where
  versionId := v.versionId
  kind := v.kind
  key := v.key
  containerKey := v.containerKey
  relatedKey := v.relatedKey
  state := v.state

/-- Two tables answer alike at an instant, as far as `p` looks. -/
def AnswerAlike (t t' : Table) (moment : Instant) (p : Said → Bool) : Prop :=
  ((answering t' moment).map said).filter p = ((answering t moment).map said).filter p

section Alike
variable {t t' : Table} {moment : Instant}

theorem AnswerAlike.mono {p q : Said → Bool} (h : AnswerAlike t t' moment q)
    (hpq : ∀ s, p s = true → q s = true) : AnswerAlike t t' moment p := by
  have hboth : ∀ l : List Said, (l.filter q).filter p = l.filter p := by
    intro l
    rw [List.filter_filter]
    refine List.filter_congr fun s _ => ?_
    cases hp : p s with
    | true => simp [hpq s hp]
    | false => simp
  unfold AnswerAlike at h ⊢
  rw [← hboth, ← hboth ((answering t moment).map said), h]

/-- Tables that answer alike are read alike. -/
theorem select_said {p : Said → Bool} (h : AnswerAlike t t' moment p) :
    (select t' moment fun v => p (said v)).map said =
      (select t moment fun v => p (said v)).map said := by
  have hsaid : ∀ t : Table, (select t moment fun v => p (said v)).map said =
      sortedBy (·.key) (((answering t moment).map said).filter p) := by
    intro t
    unfold select
    rw [List.filter_map]
    exact sortedBy_map (f := said) (k := Said.key) (fun v : ObjectVersion => v.key)
      (fun _ => rfl) _
  rw [hsaid, hsaid, h]

theorem asDict_said {l l' : List ObjectVersion} (h : l'.map said = l.map said) :
    (asDict l').map said = (asDict l).map said := by
  induction l generalizing l' with
  | nil =>
    cases l' with
    | nil => rfl
    | cons v' rest' => cases h
  | cons v rest ih =>
    cases l' with
    | nil => cases h
    | cons v' rest' =>
      obtain ⟨hv,hrest⟩ := List.cons.inj h
      have hobject : ∀ w w' : ObjectVersion, said w' = said w → w'.object = w.object :=
        fun w w' hs => Prod.ext (congrArg Said.kind hs) (congrArg Said.key hs)
      have hany : rest'.any (·.object = v'.object) = rest.any (·.object = v.object) := by
        have hobjects : rest'.map (·.object) = rest.map (·.object) := by
          have := congrArg (List.map fun s : Said => ((s.kind,s.key) : Object)) hrest
          rwa [List.map_map, List.map_map] at this
        have heach : ∀ (l : List ObjectVersion) (o : Object),
            l.any (·.object = o) = (l.map (·.object)).any (· = o) := by
          intro l o
          rw [List.any_map]
          rfl
        rw [heach, heach, hobjects, hobject v v' hv]
      unfold asDict
      rw [hany]
      split_ifs
      · exact ih hrest
      · rw [List.map_cons, List.map_cons, hv, ih hrest]

end Alike

end Adg.VersionReads
