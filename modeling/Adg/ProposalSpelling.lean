import Adg.ChangeScopes
import Adg.OverlayDocuments

/-!
# Spelling a proposal

The constructors fold directories and shares and keep the identifiers of trustees
and of members as they were typed. So two spellings of one proposal have one
digest exactly when these identifiers are spelled alike, and an overlay may change
one thing twice when they are not.
-/

set_option autoImplicit false

namespace Adg.ProposalSpelling
open Adg.Observation Adg.SecurityIdentifier Adg.ResourcePath Adg.ChangePlans
open Adg.SimulatedAcls Adg.SimulationOverlays Adg.OverlayDigest Adg.PathFolding
open Adg.OverlayDocuments
open Adg.ChangeScopes (rpartitionBar)
open Adg.Fallible (bind_ok mem_mapM mapM_forall₂)

/-! ### Spellings -/

section Spelling
variable (casefold : String → String)

/-- The canonical form of a text that denotes a SID. Another text is its own. -/
def canonicalSid (text : String) : String := (canonicalizeSid text).toOption.getD text

/-- The canonical form of a principal's key: its host is folded. -/
def canonicalKey (key : String) : String :=
  let (host,sid) := rpartitionBar key
  (host.elim "" fun h => casefold h ++ "|") ++ canonicalSid sid

/-- What a change is constructed from, with every identifier in its canonical form. -/
def canonicalForm : Arguments → Arguments
  | .membership m => .membership { m with
      groupKey := canonicalKey casefold m.groupKey
      memberKey := canonicalKey casefold m.memberKey }
  | .ntfs n => .ntfs { n with
      resourceKey := (resourceKey casefold n.resourceKey).toOption.getD n.resourceKey
      trusteeSid := n.trusteeSid.map canonicalSid }
  | .share s => .share { s with
      shareKey := (shareKey casefold s.shareKey).toOption.elim s.shareKey shareKeyOf
      trusteeSid := s.trusteeSid.map canonicalSid }
  | .inheritance i => .inheritance { i with
      resourceKey := (resourceKey casefold i.resourceKey).toOption.getD i.resourceKey }

/-- Two spellings of one change. -/
def Respelled (a b : Arguments) : Prop := canonicalForm casefold a = canonicalForm casefold b

/-- The identifiers that no constructor folds. -/
def written : Arguments → List (Option String)
  | .membership m => [some m.groupKey,some m.memberKey]
  | .ntfs n => [n.trusteeSid]
  | .share s => [s.trusteeSid]
  | .inheritance _ => []

/-- What an addition adds, and which membership a change is about. -/
inductive Thing where
  | edge (groupKey memberKey : String) (kind : MembershipEdgeKind)
  | ntfsEntry (resourceKey : String) (trustee : Option String) (aceType : Option AceType)
      (rights : Option ℤ)
  | shareEntry (share : ShareIdentity) (trustee : Option String) (aceType : Option AceType)
      (mask : Option ℤ) (permission : Option SharePermission)
  deriving DecidableEq

/-- The membership that a change is about, or the entry that it adds. -/
def thingOf : SimulationChange → Option Thing
  | .membership m => some (.edge (canonicalKey casefold m.groupKey)
      (canonicalKey casefold m.memberKey) m.edgeKind)
  | .ntfs n => if n.kind = .addNtfsAce then some (.ntfsEntry n.resourceKey
      (n.trusteeSid.map canonicalSid) n.aceType n.accessMask) else none
  | .share s => if s.kind = .addShareAce then some (.shareEntry s.share
      (s.trusteeSid.map canonicalSid) s.aceType s.accessMask s.permission) else none
  | .inheritance _ => none

/-- How a change writes what it is about: the identifiers as they were typed, and what an
addition carries besides. -/
def recorded : SimulationChange → List (Option String) × Option ℤ
  | .membership m => ([some m.groupKey,some m.memberKey],none)
  | .ntfs n => ([n.trusteeSid,n.aceKey],n.aceFlags)
  | .share s => ([s.trusteeSid,s.aceKey],none)
  | .inheritance _ => ([],none)

/-- No thing is changed twice. -/
def NoneTwice (l : List SimulationChange) : Prop :=
  l.Pairwise fun c d => ∀ t, thingOf casefold c = some t → thingOf casefold d ≠ some t

/-- Changes of one thing write it in one way. -/
def WrittenOneWay (l : List SimulationChange) : Prop :=
  l.Pairwise fun c d => ∀ t, thingOf casefold c = some t → thingOf casefold d = some t →
    recorded c = recorded d

end Spelling

/-! ### One change, two spellings -/

section Constructed
variable (f : Casefold)

/-- Two spellings construct one change when what is not folded is spelled alike. -/
theorem respelled_same {a b : Arguments} {c d : SimulationChange}
    (ha : construct f.text a = .ok c) (hb : construct f.text b = .ok d)
    (h : Respelled f.text a b) : groupOf c = groupOf d ∧ (c = d ↔ written a = written b) := by
  cases a with
  | membership m =>
    cases b with
    | membership m' =>
      obtain ⟨_,-,hc⟩ := bind_ok.mp ha
      obtain ⟨_,-,hd⟩ := bind_ok.mp hb
      cases hc
      cases hd
      have hform := Arguments.membership.inj h
      simp only [MembershipChange.mk.injEq] at hform
      refine ⟨rfl,?_⟩
      cases m
      cases m'
      simp only [written, SimulationChange.membership.injEq, MembershipChange.mk.injEq,
        List.cons.injEq, Option.some.injEq, and_true]
      simp only at hform
      tauto
    | _ => cases h
  | ntfs n =>
    cases b with
    | ntfs n' =>
      obtain ⟨made,hn,hc⟩ := bind_ok.mp ha
      obtain ⟨made',hn',hd⟩ := bind_ok.mp hb
      cases hc
      cases hd
      obtain ⟨-,-,hn⟩ := bind_ok.mp hn
      obtain ⟨key,hkey,hn⟩ := bind_ok.mp hn
      obtain ⟨_,-,hn⟩ := bind_ok.mp hn
      obtain ⟨-,-,hn'⟩ := bind_ok.mp hn'
      obtain ⟨key',hkey',hn'⟩ := bind_ok.mp hn'
      obtain ⟨_,-,hn'⟩ := bind_ok.mp hn'
      cases hn
      cases hn'
      have hform := Arguments.ntfs.inj h
      simp only [NtfsAceChange.mk.injEq, hkey, hkey', Except.toOption, Option.getD_some] at hform
      refine ⟨rfl,?_⟩
      simp only [written, SimulationChange.ntfs.injEq, NtfsAceChange.mk.injEq,
        List.cons.injEq, and_true]
      tauto
    | _ => cases h
  | share s =>
    cases b with
    | share s' =>
      have hspelled := admissible_spelled f (construct_admissible ha)
      have hspelled' := admissible_spelled f (construct_admissible hb)
      obtain ⟨made,hn,hc⟩ := bind_ok.mp ha
      obtain ⟨made',hn',hd⟩ := bind_ok.mp hb
      cases hc
      cases hd
      obtain ⟨-,-,hn⟩ := bind_ok.mp hn
      obtain ⟨key,hkey,hn⟩ := bind_ok.mp hn
      obtain ⟨_,-,hn⟩ := bind_ok.mp hn
      obtain ⟨-,-,hn'⟩ := bind_ok.mp hn'
      obtain ⟨key',hkey',hn'⟩ := bind_ok.mp hn'
      obtain ⟨_,-,hn'⟩ := bind_ok.mp hn'
      cases hn
      cases hn'
      have hform := Arguments.share.inj h
      simp only [ShareArguments.mk.injEq, hkey, hkey', Except.toOption, Option.elim_some] at hform
      have hshare : key = key' := shareKeyOf_injective hspelled hspelled' hform.2.1
      refine ⟨rfl,?_⟩
      simp only [written, SimulationChange.share.injEq, ShareAceChange.mk.injEq,
        List.cons.injEq, and_true]
      tauto
    | _ => cases h
  | inheritance i =>
    cases b with
    | inheritance i' =>
      obtain ⟨made,hn,hc⟩ := bind_ok.mp ha
      obtain ⟨made',hn',hd⟩ := bind_ok.mp hb
      cases hc
      cases hd
      obtain ⟨key,hkey,hn⟩ := bind_ok.mp hn
      obtain ⟨_,-,hn⟩ := bind_ok.mp hn
      obtain ⟨key',hkey',hn'⟩ := bind_ok.mp hn'
      obtain ⟨_,-,hn'⟩ := bind_ok.mp hn'
      cases hn
      cases hn'
      have hform := Arguments.inheritance.inj h
      simp only [InheritanceChange.mk.injEq, hkey, hkey', Except.toOption,
        Option.getD_some] at hform
      refine ⟨rfl,?_⟩
      simp only [written, SimulationChange.inheritance.injEq, InheritanceChange.mk.injEq, iff_true]
      exact hform
    | _ => cases h

theorem respelled_lists {l l' : List Arguments} {cs cs' : List SimulationChange}
    (hl : List.Forall₂ (fun a c => construct f.text a = .ok c) l cs)
    (hl' : List.Forall₂ (fun a c => construct f.text a = .ok c) l' cs')
    (h : List.Forall₂ (Respelled f.text) l l') :
    cs.map groupOf = cs'.map groupOf ∧ (cs = cs' ↔ l.map written = l'.map written) := by
  induction h generalizing cs cs' with
  | nil =>
    cases hl
    cases hl'
    simp
  | cons hone _ ih =>
    cases hl with
    | cons ha hl =>
      cases hl' with
      | cons hb hl' =>
        obtain ⟨hgroup,hsame⟩ := respelled_same f ha hb hone
        obtain ⟨hgroups,hrest⟩ := ih hl hl'
        constructor
        · rw [List.map_cons, List.map_cons, hgroup, hgroups]
        · rw [List.map_cons, List.map_cons, List.cons.injEq, List.cons.injEq, hsame, hrest]

theorem constructed_admissible {l : List Arguments} {cs : List SimulationChange}
    (h : l.mapM (construct f.text) = .ok cs) : ∀ c ∈ cs, Admissible f.text c := by
  intro c hc
  obtain ⟨a,-,ha⟩ := mem_mapM h hc
  exact construct_admissible ha

/-- Different overlays are taken over different texts. -/
theorem text_tells {printable : Char → Bool} {l l' : List Arguments}
    {cs cs' : List SimulationChange} (hl : l.mapM (construct f.text) = .ok cs)
    (hl' : l'.mapM (construct f.text) = .ok cs') {o o' : SimulationOverlay}
    (ho : SimulationOverlay.fromChanges cs = .ok o)
    (ho' : SimulationOverlay.fromChanges cs' = .ok o')
    (h : material printable o = material printable o') : o.changes = o'.changes := by
  apply material_injective _ _ h
  · exact fun c hc => admissible_spelled f (constructed_admissible f hl c (mem_changes ho hc))
  · exact fun c hc => admissible_spelled f (constructed_admissible f hl' c (mem_changes ho' hc))

/-- Two spellings of one proposal are one overlay exactly when what is not folded is spelled
alike. -/
theorem respelled_material (printable : Char → Bool) {l l' : List Arguments}
    {cs cs' : List SimulationChange} (hl : l.mapM (construct f.text) = .ok cs)
    (hl' : l'.mapM (construct f.text) = .ok cs') (h : List.Forall₂ (Respelled f.text) l l')
    {o o' : SimulationOverlay} (ho : SimulationOverlay.fromChanges cs = .ok o)
    (ho' : SimulationOverlay.fromChanges cs' = .ok o') :
    material printable o = material printable o' ↔ l.map written = l'.map written := by
  obtain ⟨hgroups,hsame⟩ := respelled_lists f (mapM_forall₂.mp hl) (mapM_forall₂.mp hl') h
  rw [← hsame]
  constructor
  · intro hmaterial
    have hchanges := text_tells f hl hl' ho ho' hmaterial
    obtain ⟨hm,hn,hs,hi⟩ := fromChanges_fields ho
    obtain ⟨hm',hn',hs',hi'⟩ := fromChanges_fields ho'
    obtain ⟨pm,pn,ps,pi⟩ := changes_parts o
    obtain ⟨pm',pn',ps',pi'⟩ := changes_parts o'
    rw [hchanges] at pm pn ps pi
    apply eq_of_groups hgroups
    exact ⟨hm.symm.trans (pm.symm.trans (pm'.trans hm')),
      hn.symm.trans (pn.symm.trans (pn'.trans hn')),
      hs.symm.trans (ps.symm.trans (ps'.trans hs')),
      hi.symm.trans (pi.symm.trans (pi'.trans hi'))⟩
  · intro hcs
    rw [hcs] at ho
    rw [Except.ok.inj (ho.symm.trans ho')]

end Constructed

/-! ### One thing, two changes -/

section Twice
variable (f : Casefold)

/-- An overlay holds the changes that it was made from. -/
theorem changes_perm {cs : List SimulationChange} {o : SimulationOverlay}
    (h : SimulationOverlay.fromChanges cs = .ok o) : o.changes.Perm cs := by
  obtain ⟨hm,hn,hs,hi⟩ := fromChanges_fields h
  unfold SimulationOverlay.changes
  rw [hm, hn, hs, hi]
  clear h hm hn hs hi
  induction cs with
  | nil => exact List.Perm.refl _
  | cons c cs ih =>
    have hmove : ∀ front back : List SimulationChange, (front ++ back).Perm cs →
        (front ++ c :: back).Perm (c :: cs) := fun front back h =>
      List.perm_middle.trans (h.cons c)
    cases c with
    | membership m => exact ih.cons _
    | ntfs n =>
      rw [List.append_assoc, List.append_assoc] at ih ⊢
      exact hmove _ _ ih
    | share s =>
      rw [List.append_assoc] at ih ⊢
      exact hmove _ _ ih
    | inheritance i => exact hmove _ _ ih

/-- Changes of one thing that are written in one way have one target. -/
theorem same_target {casefold : String → String} {c d : SimulationChange} {t : Thing}
    (hc : thingOf casefold c = some t) (hd : thingOf casefold d = some t)
    (h : recorded c = recorded d) : c.target = d.target := by
  cases c with
  | membership m =>
    cases hc
    cases d with
    | membership m' =>
      obtain ⟨-,-,hkind⟩ := Thing.edge.inj (Option.some.inj hd)
      simp only [recorded, Prod.mk.injEq, List.cons.injEq, Option.some.injEq, and_true] at h
      simp only [SimulationChange.target, MembershipChange.target, h.1, h.2, hkind]
    | ntfs n' =>
      simp only [thingOf] at hd
      split_ifs at hd
      cases hd
    | share s' =>
      simp only [thingOf] at hd
      split_ifs at hd
      cases hd
    | inheritance i' => cases hd
  | ntfs n =>
    simp only [thingOf] at hc
    split_ifs at hc
    cases hc
    cases d with
    | ntfs n' =>
      simp only [thingOf] at hd
      split_ifs at hd
      obtain ⟨hkey,-,htype,hmask⟩ := Thing.ntfsEntry.inj (Option.some.inj hd)
      simp only [recorded, Prod.mk.injEq, List.cons.injEq, and_true] at h
      simp only [SimulationChange.target, h.1.1, h.1.2, h.2, hkey, htype, hmask]
    | membership m' => cases hd
    | share s' =>
      simp only [thingOf] at hd
      split_ifs at hd
      cases hd
    | inheritance i' => cases hd
  | share s =>
    simp only [thingOf] at hc
    split_ifs at hc
    cases hc
    cases d with
    | share s' =>
      simp only [thingOf] at hd
      split_ifs at hd
      obtain ⟨hshare,-,htype,hmask,hpermission⟩ := Thing.shareEntry.inj (Option.some.inj hd)
      simp only [recorded, Prod.mk.injEq, List.cons.injEq, and_true] at h
      simp only [SimulationChange.target, h.1, h.2, hshare, htype, hmask, hpermission]
    | membership m' => cases hd
    | ntfs n' =>
      simp only [thingOf] at hd
      split_ifs at hd
      cases hd
    | inheritance i' => cases hd
  | inheritance i => cases hc

/-- An accepted overlay changes nothing twice exactly when its changes of one thing would write
it in one way. -/
theorem noneTwice_iff (casefold : String → String) {cs : List SimulationChange}
    {o : SimulationOverlay} (h : SimulationOverlay.fromChanges cs = .ok o) :
    NoneTwice casefold o.changes ↔ WrittenOneWay casefold cs := by
  have hperm := changes_perm h
  have htargets : cs.Pairwise fun c d => c.target ≠ d.target := by
    have hdistinct : (o.changes.map (·.target)).Nodup := o.distinct
    exact List.pairwise_map.mp ((hperm.map _).nodup_iff.mp hdistinct)
  unfold NoneTwice WrittenOneWay
  rw [hperm.pairwise_iff fun hcd t hd hc => hcd t hc hd]
  constructor
  · intro hnone
    exact hnone.imp fun hcd t hc hd => absurd hd (hcd t hc)
  · intro hwritten
    have hboth := hwritten.and htargets
    exact hboth.imp fun hcd t hc hd => hcd.2 (same_target hc hd (hcd.1 t hc hd))

end Twice

/-! ### A proposal, however it was spelled -/

section Settling
variable (f : Casefold) (printable : Char → Bool) (sha256 : String → String)

/-- A stored overlay is read back, two spellings of it have one digest, it changes nothing
twice, and no other changes have its text. -/
structure Settled (l l' : List Arguments) (o o' : SimulationOverlay) : Prop where
  reread : fromDocument f.text (overlayDocument printable sha256 o) = .ok o
  respelled : List.Forall₂ (Respelled f.text) l l' →
    overlayHash printable sha256 o = overlayHash printable sha256 o'
  once : NoneTwice f.text o.changes
  told : material printable o = material printable o' → o.changes = o'.changes

/-- Two proposals that are accepted are settled exactly when no key of the first ends in a blank,
what is not folded is spelled alike in the second when that is a spelling of it, and the changes
of one thing write it in one way. -/
theorem settled_iff {l l' : List Arguments} {cs cs' : List SimulationChange}
    (hl : l.mapM (construct f.text) = .ok cs) (hl' : l'.mapM (construct f.text) = .ok cs')
    {o o' : SimulationOverlay} (ho : SimulationOverlay.fromChanges cs = .ok o)
    (ho' : SimulationOverlay.fromChanges cs' = .ok o')
    (hsha : ¬ Collided printable sha256 o o') :
    Settled f printable sha256 l l' o o' ↔ (∀ c ∈ cs, Clean c) ∧
      (List.Forall₂ (Respelled f.text) l l' → l.map written = l'.map written) ∧
      WrittenOneWay f.text cs := by
  have hadmissible : ∀ c ∈ o.changes, Admissible f.text c := fun c hc =>
    constructed_admissible f hl c (mem_changes ho hc)
  have hreread := fromDocument_back f printable sha256 hadmissible
  have hclean : (∀ c ∈ o.changes, Clean c) ↔ ∀ c ∈ cs, Clean c :=
    forall_congr' fun c => by rw [(changes_perm ho).mem_iff]
  have honce := noneTwice_iff f.text ho
  constructor
  · intro h
    refine ⟨hclean.mp (hreread.mp h.reread),?_,honce.mp h.once⟩
    intro hspelled
    apply (respelled_material f printable hl hl' hspelled ho ho').mp
    by_contra hne
    exact hsha ⟨h.respelled hspelled,hne⟩
  · rintro ⟨hkeys,hspelled,hwritten⟩
    constructor
    · exact hreread.mpr (hclean.mpr hkeys)
    · intro hforms
      have hmaterial := (respelled_material f printable hl hl' hforms ho ho').mpr (hspelled hforms)
      unfold overlayHash
      rw [hmaterial]
    · exact honce.mpr hwritten
    · exact text_tells f hl hl' ho ho'

end Settling

/-! ### Everyone, spelled twice -/

namespace Sample

/-- An addition for a trustee to a directory. -/
def addition (resourceKey trusteeSid : String) : NtfsAceChange where
  kind := .addNtfsAce
  resourceKey := resourceKey
  trusteeSid := some trusteeSid
  aceType := some .allow
  accessMask := some 1

def capital : NtfsAceChange := addition folder "S-1-1-0"
def small : NtfsAceChange := addition folder "s-1-1-00"

/-- A directory whose name ends in a blank, before the last separator. -/
def blank : NtfsAceChange := addition "\\\\fs\\s\\d \\" "S-1-1-0"

/-- The directory as its constructor keeps it. -/
def kept : NtfsAceChange := addition "\\\\fs\\s\\d " "S-1-1-0"

/-- What the constructors make of the samples, and what the parsers say of them. -/
theorem samples_made :
    ([Arguments.ntfs capital].mapM (construct asciiFold.text) = .ok [.ntfs capital] ∧
      [Arguments.ntfs small].mapM (construct asciiFold.text) = .ok [.ntfs small]) ∧
    ([Arguments.ntfs capital, .ntfs small].mapM (construct asciiFold.text) =
        .ok [.ntfs capital, .ntfs small] ∧
      [Arguments.ntfs blank].mapM (construct asciiFold.text) = .ok [.ntfs kept]) ∧
    canonicalSid "S-1-1-0" = canonicalSid "s-1-1-00" := by
  constructor
  · constructor
    · decide +kernel
    · decide +kernel
  · constructor
    · constructor
      · decide +kernel
      · decide +kernel
    · decide +kernel

theorem capital_made : [Arguments.ntfs capital].mapM (construct asciiFold.text) =
    .ok [.ntfs capital] := samples_made.1.1

theorem small_made : [Arguments.ntfs small].mapM (construct asciiFold.text) =
    .ok [.ntfs small] := samples_made.1.2

theorem both_made : [Arguments.ntfs capital, .ntfs small].mapM (construct asciiFold.text) =
    .ok [.ntfs capital, .ntfs small] := samples_made.2.1.1

theorem blank_made : [Arguments.ntfs blank].mapM (construct asciiFold.text) =
    .ok [.ntfs kept] := samples_made.2.1.2

theorem capital_small : List.Forall₂ (Respelled asciiFold.text) [.ntfs capital] [.ntfs small] := by
  apply List.Forall₂.cons _ List.Forall₂.nil
  have hsid : canonicalSid "S-1-1-0" = canonicalSid "s-1-1-00" := samples_made.2.2
  unfold Respelled canonicalForm
  show Arguments.ntfs { capital with
    resourceKey := _
    trusteeSid := some (canonicalSid "S-1-1-0") } = _
  rw [hsid]
  rfl

/-- Two spellings of one trustee give two digests. -/
theorem digests_differ : ∃ sha256 o o',
    SimulationOverlay.fromChanges [.ntfs capital] = .ok o ∧
    SimulationOverlay.fromChanges [.ntfs small] = .ok o' ∧
    overlayHash (fun _ => true) sha256 o ≠ overlayHash (fun _ => true) sha256 o' := by
  have hmade : ∃ o, SimulationOverlay.fromChanges [.ntfs capital] = .ok o := ⟨_,rfl⟩
  have hmade' : ∃ o, SimulationOverlay.fromChanges [.ntfs small] = .ok o := ⟨_,rfl⟩
  obtain ⟨o,ho⟩ := hmade
  obtain ⟨o',ho'⟩ := hmade'
  have htexts : material (fun _ => true) o' ≠ material (fun _ => true) o := by
    intro hsame
    have hwritten := (respelled_material asciiFold _ capital_made small_made capital_small
      ho ho').mp hsame.symm
    exact absurd hwritten (by decide)
  refine ⟨fun text => if text = material (fun _ => true) o then "1" else "0",o,o',ho,ho',?_⟩
  unfold overlayHash
  beta_reduce
  rw [if_pos rfl, if_neg htexts]
  decide

/-- Both spellings are added in one overlay. -/
theorem both_accepted : ∃ o, SimulationOverlay.fromChanges [.ntfs capital, .ntfs small] = .ok o ∧
    ¬ NoneTwice asciiFold.text o.changes := by
  refine ⟨_,rfl,?_⟩
  intro hnone
  have hfirst := List.rel_of_pairwise_cons hnone (List.mem_singleton.mpr rfl)
    (.ntfsEntry folder (some "S-1-1-0") (some .allow) (some 1)) (by decide +kernel)
  exact hfirst (by decide +kernel)

/-- The directory with the blank is read as another one. -/
theorem blank_lost : ∃ o, SimulationOverlay.fromChanges [.ntfs kept] = .ok o ∧
    fromDocument asciiFold.text (overlayDocument (fun _ => true) id o) ≠ .ok o := by
  have hmade : ∃ o, SimulationOverlay.fromChanges [.ntfs kept] = .ok o := ⟨_,rfl⟩
  obtain ⟨o,ho⟩ := hmade
  have hadmissible : ∀ c ∈ o.changes, Admissible asciiFold.text c := fun c hc =>
    constructed_admissible asciiFold blank_made c (mem_changes ho hc)
  refine ⟨o,ho,?_⟩
  intro hread
  have hclean := (fromDocument_back asciiFold _ _ hadmissible).mp hread (.ntfs kept)
    ((changes_perm ho).mem_iff.mpr List.mem_cons_self)
  exact absurd hclean (by unfold Clean; decide +kernel)

end Sample

open Sample in
/-- Two spellings of one trustee are two proposals and may stand in one, and a directory whose
name ends in a blank is not read back. -/
theorem spelling_matters :
    (∃ sha256 cs cs' o o', [Arguments.ntfs capital].mapM (construct asciiFold.text) = .ok cs ∧
      [Arguments.ntfs small].mapM (construct asciiFold.text) = .ok cs' ∧
      SimulationOverlay.fromChanges cs = .ok o ∧ SimulationOverlay.fromChanges cs' = .ok o' ∧
      List.Forall₂ (Respelled asciiFold.text) [.ntfs capital] [.ntfs small] ∧
      ¬ Settled asciiFold (fun _ => true) sha256 [.ntfs capital] [.ntfs small] o o') ∧
    (∃ cs o, [Arguments.ntfs capital, .ntfs small].mapM (construct asciiFold.text) = .ok cs ∧
      SimulationOverlay.fromChanges cs = .ok o ∧ ¬ NoneTwice asciiFold.text o.changes) ∧
    ∃ cs o, [Arguments.ntfs blank].mapM (construct asciiFold.text) = .ok cs ∧
      SimulationOverlay.fromChanges cs = .ok o ∧
      fromDocument asciiFold.text (overlayDocument (fun _ => true) id o) ≠ .ok o := by
  refine ⟨?_,?_,?_⟩
  · obtain ⟨sha256,o,o',ho,ho',hdiffer⟩ := digests_differ
    exact ⟨sha256,_,_,o,o',capital_made,small_made,ho,ho',capital_small,
      fun h => hdiffer (h.respelled capital_small)⟩
  · obtain ⟨o,ho,htwice⟩ := both_accepted
    exact ⟨_,o,both_made,ho,htwice⟩
  · obtain ⟨o,ho,hlost⟩ := blank_lost
    exact ⟨_,o,blank_made,ho,hlost⟩

open Sample in
/-- One addition is settled. -/
theorem addition_settled : ∃ o, SimulationOverlay.fromChanges [.ntfs capital] = .ok o ∧
    Settled asciiFold (fun _ => true) id [.ntfs capital] [.ntfs capital] o o := by
  have hmade : ∃ o, SimulationOverlay.fromChanges [.ntfs capital] = .ok o := ⟨_,rfl⟩
  obtain ⟨o,ho⟩ := hmade
  refine ⟨o,ho,?_⟩
  apply (settled_iff asciiFold (fun _ => true) id capital_made capital_made ho ho
    fun h => h.2 rfl).mpr
  refine ⟨?_,fun _ => rfl,List.pairwise_singleton _ _⟩
  intro c hc
  rw [List.mem_singleton.mp hc]
  unfold Clean
  decide +kernel

end Adg.ProposalSpelling
