import Adg.RemovalAnalysis
import Adg.SortedLists

/-!
# The explanation decomposes the answer

The builder replays what each entry settled first. The replay loses nothing
and invents nothing: over the grants of one layer it adds up to what the
layer permits, and the crossing cuts that down to the answer.
-/

set_option autoImplicit false

namespace Adg.Decomposition
open Adg.Observation Adg.RightsAlgebra Adg.AccessConditions Adg.AccessSubjects Adg.Evaluation
open Adg.FirstMatch Adg.AccessResolver Adg.ResolvedRights Adg.MembershipGraph
open Adg.AccessCausality Adg.RemovalAnalysis Adg.SortedLists
open Adg.Fallible (bind_ok mapped_ok)

section Replay

/-- What an applied entry brings to the replay. -/
def contribution (a : AppliedAce) : AccessMask := a.contributed.expandGenerics.value

def replay (seed : AccessMask) (as : List AppliedAce) : Replay :=
  as.foldl replayEntry { granted := seed }

theorem replay_append (seed : AccessMask) (xs ys : List AppliedAce) :
    replay seed (xs++ys) = ys.foldl replayEntry (replay seed xs) :=
  List.foldl_append

theorem replayEntry_granted (r : Replay) (a : AppliedAce) (b : ℕ) :
    (replayEntry r a).granted.getLsbD b =
      (r.granted.getLsbD b || (a.entry.isAllow && (contribution a).getLsbD b)) := by
  unfold replayEntry contribution
  cases a.entry.isAllow <;> simp

theorem foldl_granted (as : List AppliedAce) (r : Replay) (b : ℕ) :
    (as.foldl replayEntry r).granted.getLsbD b = true ↔ r.granted.getLsbD b = true ∨
      ∃ a ∈ as, a.entry.isAllow = true ∧ (contribution a).getLsbD b = true := by
  induction as generalizing r with
  | nil => simp
  | cons a as ih =>
    rw [List.foldl_cons, ih, replayEntry_granted]
    simp [or_assoc]

/-- The part of an entry that nothing before it had settled. -/
def novelPart (r : Replay) (a : AppliedAce) : AccessMask :=
  contribution a &&& ~~~(if a.entry.isAllow then r.granted else r.denied)

theorem replayEntry_novel (r : Replay) (a : AppliedAce) :
    (replayEntry r a).novel = r.novel ++ [(a.position,novelPart r a)] := by
  unfold replayEntry novelPart contribution
  cases a.entry.isAllow <;> simp

theorem foldl_positions (as : List AppliedAce) (r : Replay) :
    (as.foldl replayEntry r).novel.map Prod.fst = r.novel.map Prod.fst ++ as.map (·.position) := by
  induction as generalizing r with
  | nil => simp
  | cons a as ih => rw [List.foldl_cons, ih, replayEntry_novel]; simp

theorem foldl_novel_extends (as : List AppliedAce) (r : Replay) :
    r.novel <+: (as.foldl replayEntry r).novel := by
  induction as generalizing r with
  | nil => exact List.prefix_refl _
  | cons a as ih =>
    refine List.IsPrefix.trans ?_ (ih _)
    rw [replayEntry_novel]
    exact List.prefix_append _ _

/-- At distinct positions, each entry's novel part is the one its turn gave. -/
theorem novelAt_split {seed : AccessMask} {as xs ys : List AppliedAce} {a : AppliedAce}
    (hsplit : as = xs ++ a :: ys) (hn : (as.map (·.position)).Nodup) :
    novelAt (replay seed as).novel a.position = novelPart (replay seed xs) a := by
  have hmem : (a.position,novelPart (replay seed xs) a) ∈ (replay seed as).novel := by
    rw [hsplit, replay_append, List.foldl_cons]
    refine (foldl_novel_extends ys _).subset ?_
    rw [replayEntry_novel]
    simp
  have hpositions : ((replay seed as).novel.reverse.map Prod.fst).Nodup := by
    rw [List.map_reverse, List.nodup_reverse, replay, foldl_positions]
    simpa using hn
  unfold novelAt
  rw [(lookup_keyed hpositions).mpr (List.mem_reverse.mpr hmem)]
  rfl

variable {seed : AccessMask} {as : List AppliedAce} (hn : (as.map (·.position)).Nodup)
include hn

theorem novel_contributed {a : AppliedAce} (ha : a ∈ as) {b : ℕ}
    (hb : (novelAt (replay seed as).novel a.position).getLsbD b = true) :
    (contribution a).getLsbD b = true := by
  obtain ⟨xs,ys,hsplit⟩ := List.append_of_mem ha
  rw [novelAt_split hsplit hn, novelPart, BitVec.getLsbD_and, Bool.and_eq_true] at hb
  exact hb.1

variable (seed) in
/-- The replayed grants, with the seed, are exactly the contributed ones. -/
theorem novel_grants_iff (b : ℕ) :
    (seed.getLsbD b = true ∨ ∃ a ∈ as, a.entry.isAllow = true ∧
        (novelAt (replay seed as).novel a.position).getLsbD b = true) ↔
      (seed.getLsbD b = true ∨ ∃ a ∈ as, a.entry.isAllow = true ∧
        (contribution a).getLsbD b = true) := by
  constructor
  · rintro (hs | ⟨a,ha,hallow,hb⟩)
    · exact .inl hs
    · exact .inr ⟨a,ha,hallow,novel_contributed hn ha hb⟩
  · rintro (hs | ⟨a,ha,hallow,hb⟩)
    · exact .inl hs
    · by_cases hs : seed.getLsbD b = true
      · exact .inl hs
      · -- the first allow that contributes the bit is the one it is novel for
        have hsome : (as.find? fun a => a.entry.isAllow && (contribution a).getLsbD b).isSome :=
          List.find?_isSome.mpr ⟨a,ha,by simp [hallow, hb]⟩
        obtain ⟨f,hf⟩ := Option.isSome_iff_exists.mp hsome
        obtain ⟨hfb,xs,ys,hsplit,hbefore⟩ := List.find?_eq_some_iff_append.mp hf
        rw [Bool.and_eq_true] at hfb
        have hungranted : (replay seed xs).granted.getLsbD b = false := by
          rw [← Bool.not_eq_true]
          unfold replay
          rw [foldl_granted]
          rintro (hseed | ⟨x,hx,hxa,hxb⟩)
          · exact hs hseed
          · simpa [hxa, hxb] using hbefore x hx
        refine .inr ⟨f,hsplit ▸ by simp,hfb.1,?_⟩
        have hlt : b < 32 := by
          by_contra hge
          simp [BitVec.getLsbD_of_ge (contribution f) b (by omega)] at hfb
        rw [novelAt_split hsplit hn, novelPart, if_pos hfb.1, BitVec.getLsbD_and,
          BitVec.getLsbD_not, hfb.2, hungranted]
        simp [hlt]

end Replay

section Layer
variable {supplied : List AclEntry} {token : SubjectToken} {layer : RightsLayer}
  {facts : DaclFacts} {ev : AclEvaluation}

theorem applied_perm (ev : AclEvaluation) :
    (appliedEntries ev).Perm (ev.grantedBy ++ ev.deniedBy ++ ev.superseded) :=
  List.perm_insertionSort _ _

theorem applied_filed (hw : WalkResult supplied token layer facts ev) :
    (appliedEntries ev).Perm (filed (walkOver supplied token layer facts)) := by
  rw [filed, ← hw.grantedBy, ← hw.deniedBy, ← hw.superseded]
  exact applied_perm ev

/-- The applied entries stand at distinct positions of the DACL. -/
theorem applied_positions (hw : WalkResult supplied token layer facts ev) :
    ((appliedEntries ev).map (·.position)).Nodup := by
  have hplaced := ((applied_filed hw).map placed).trans (walkOver_filed supplied token layer facts)
  have hpos := (hplaced.map Prod.snd).nodup_iff
  rw [List.map_map] at hpos
  refine hpos.mpr ?_
  have hall : (supplied.zipIdx.map Prod.snd).Nodup := by
    rw [List.zipIdx_map_snd]
    exact List.nodup_range'
  exact hall.sublist (List.filter_sublist.map _)

/-- An applied entry keeps no generic bit. -/
theorem contribution_eq (hw : WalkResult supplied token layer facts ev) {a : AppliedAce}
    (ha : a ∈ appliedEntries ev) : contribution a = a.contributed.value := by
  have hfaithful := walkOver_faithful supplied token layer facts a ((applied_filed hw).mem_iff.mp ha)
  obtain ⟨m,hm⟩ := hfaithful.contributed
  unfold contribution
  rw [RightsMask.expand_specific]
  rw [hm]
  exact specific_and_left m a.entry.expanded_specific

theorem ownerSeed_eq (hw : WalkResult supplied token layer facts ev) :
    ownerSeed ev = ownerGrant supplied token facts := by
  have hspec := ownerGrant_specific supplied token facts
  unfold ownerSeed ownerGrant at *
  rw [hw.ownerRights]
  generalize (ownerRightsOf (ownerTokenSidOf token facts) facts supplied).1 = owner at hspec
  cases owner with
  | none => rfl
  | some owner => exact congrArg RightsMask.value (RightsMask.expand_specific owner hspec)

theorem ownerRightsOf_cases (ownerTokenSid : Option TokenSid) (facts : DaclFacts)
    (entries : List AclEntry) :
    (ownerRightsOf ownerTokenSid facts entries).1 = none ∨
      (ownerRightsOf ownerTokenSid facts entries).1 = some ownerImplicitRights := by
  unfold ownerRightsOf
  split
  · exact .inl rfl
  · split
    · exact .inl rfl
    · split
      · exact .inl rfl
      · exact .inr rfl

theorem ownerSeed_ne (hw : WalkResult supplied token layer facts ev) (ho : ev.ownerRights ≠ none) :
    ownerSeed ev ≠ 0 := by
  have hsome : ev.ownerRights = some ownerImplicitRights := by
    rw [hw.ownerRights] at ho ⊢
    exact (ownerRightsOf_cases _ facts supplied).resolve_left ho
  simp only [ownerSeed, hsome]
  decide

/-- Ownership and the novel grants of one layer add up to what it permits. -/
theorem layer_decomposes (hw : WalkResult supplied token layer facts ev) (b : ℕ) :
    ev.rights.value.getLsbD b = true ↔ (ownerSeed ev).getLsbD b = true ∨
      ∃ a ∈ appliedEntries ev, a.entry.isAllow = true ∧
        (novelAt (novelContributions ev) a.position).getLsbD b = true := by
  have hreplay := novel_grants_iff (ownerSeed ev) (applied_positions hw) b
  unfold novelContributions
  change _ ↔ (ownerSeed ev).getLsbD b = true ∨ ∃ a ∈ appliedEntries ev,
    a.entry.isAllow = true ∧
      (novelAt (replay (ownerSeed ev) (appliedEntries ev)).novel a.position).getLsbD b = true
  rw [hreplay, hw.rights, BitVec.getLsbD_or, Bool.or_eq_true, or_comm, ← ownerSeed_eq hw]
  have hsorted := walkOver_sorted supplied token layer facts
  refine or_congr_right ?_
  rw [hsorted.bits b, List.any_eq_true]
  constructor
  · rintro ⟨a,ha,hb⟩
    have happlied : a ∈ appliedEntries ev := (applied_filed hw).mem_iff.mpr (by simp [filed, ha])
    exact ⟨a,happlied,(hsorted.granted a ha).1,by rw [contribution_eq hw happlied]; exact hb⟩
  · rintro ⟨a,ha,hallow,hb⟩
    rw [contribution_eq hw ha] at hb
    have hfiled := (applied_filed hw).mem_iff.mp ha
    simp only [filed, List.mem_append] at hfiled
    rcases hfiled with (hg | hd) | hs
    · exact ⟨a,hg,hb⟩
    · rw [(hsorted.denied a hd).1] at hallow
      cases hallow
    · rw [hsorted.superseded a hs] at hb
      simp at hb

end Layer

/-- The builder only ever adds paths and reasons. -/
structure Grows (b b' : Builder) : Prop where
  paths : ∀ p ∈ b.paths, p ∈ b'.paths
  truncation : ∀ r ∈ b.truncation, r ∈ b'.truncation

theorem Grows.refl (b : Builder) : Grows b b := ⟨fun _ h => h,fun _ h => h⟩

theorem Grows.trans {a b c : Builder} (h : Grows a b) (h' : Grows b c) : Grows a c :=
  ⟨fun p hp => h'.paths p (h.paths p hp),fun r hr => h'.truncation r (h.truncation r hr)⟩

theorem mem_truncate {b : Builder} {reason r : PathTruncation} :
    r ∈ (b.truncate reason).truncation ↔ r ∈ b.truncation ∨ r = reason := by
  unfold Builder.truncate
  split
  · next h =>
    constructor
    · exact .inl
    · rintro (hr | rfl)
      · exact hr
      · exact h
  · simp

@[simp] theorem truncate_paths (b : Builder) (reason : PathTruncation) :
    (b.truncate reason).paths = b.paths ∧ (b.truncate reason).chains = b.chains := by
  unfold Builder.truncate
  split <;> simp

theorem addNode_frame (b : Builder) (n : ExplanationNode) :
    (b.addNode n).2.paths = b.paths ∧ (b.addNode n).2.truncation = b.truncation ∧
      (b.addNode n).2.chains = b.chains := by
  unfold Builder.addNode
  split <;> simp

theorem addEdge_frame (b : Builder) (e : ExplanationEdge) :
    (b.addEdge e).2.paths = b.paths ∧ (b.addEdge e).2.truncation = b.truncation ∧
      (b.addEdge e).2.chains = b.chains := by
  unfold Builder.addEdge
  split <;> simp

section Paths
variable (q : Question)

theorem followChain_frame (previous : String) (keys : List String) (hops : List GraphEdge)
    (b : Builder) :
    (followChain q previous keys hops b).2.paths = b.paths ∧
      (followChain q previous keys hops b).2.truncation = b.truncation ∧
      (followChain q previous keys hops b).2.chains = b.chains := by
  induction keys generalizing previous hops b with
  | nil => exact ⟨rfl,rfl,rfl⟩
  | cons key keys ih =>
    obtain ⟨hn1,hn2,hn3⟩ := addNode_frame b (membershipNode q key)
    simp only [followChain]
    obtain ⟨he1,he2,he3⟩ := addEdge_frame (b.addNode (membershipNode q key)).2
      (membershipEdge previous (b.addNode (membershipNode q key)).1.nodeId hops.head?)
    obtain ⟨h1,h2,h3⟩ := ih (b.addNode (membershipNode q key)).1.nodeId hops.tail
      ((b.addNode (membershipNode q key)).2.addEdge
        (membershipEdge previous (b.addNode (membershipNode q key)).1.nodeId hops.head?)).2
    exact ⟨h1.trans (he1.trans hn1),h2.trans (he2.trans hn2),h3.trans (he3.trans hn3)⟩

/-- A path to one matched entry: its rights are those of the replay, crossed. -/
structure EntryPath (layer : RightsLayer) (ev : AclEvaluation) (a : AppliedAce)
    (p : CausalPath) : Prop where
  layer_eq : p.layer = layer
  relation : p.relation = if a.entry.isAllow then .grant else .deny
  position : p.acePosition = a.position
  trustee : p.trusteeKey = a.entry.trusteeKey
  aceKey : p.aceKey = a.entry.aceKey
  layerRights : p.layerRights = ⟨novelAt (novelContributions ev) a.position,layer⟩
  crossed : (p.effectiveRights,p.constrainedRights) =
    crossing q (novelAt (novelContributions ev) a.position) layer
  effect : p.effect = effectOf (novelAt (novelContributions ev) a.position)
    p.effectiveRights p.constrainedRights

/-- The path of an owner's implicit rights. -/
structure OwnerPath (layer : RightsLayer) (ev : AclEvaluation) (p : CausalPath) : Prop where
  layer_eq : p.layer = layer
  relation : p.relation = .grant
  position : p.acePosition = ownershipPosition
  trustee : p.trusteeKey = q.access.token.subject.key
  layerRights : p.layerRights = ⟨ownerSeed ev,layer⟩
  crossed : (p.effectiveRights,p.constrainedRights) = crossing q (ownerSeed ev) layer
  effect : p.effect = effectOf (ownerSeed ev) p.effectiveRights p.constrainedRights

variable {q} {layer : RightsLayer} {ev : AclEvaluation}

variable (q layer ev) in
theorem appendPath_spec (a : AppliedAce) (aceId objectEdgeId : String) (b : Builder)
    (chain : MembershipPath) :
    ∃ p, (appendPath q a layer (novelContributions ev) aceId objectEdgeId b chain).paths =
        b.paths ++ [p] ∧ EntryPath q layer ev a p ∧
      (appendPath q a layer (novelContributions ev) aceId objectEdgeId b chain).truncation =
        b.truncation ∧
      (appendPath q a layer (novelContributions ev) aceId objectEdgeId b chain).chains =
        b.chains := by
  obtain ⟨hn1,hn2,hn3⟩ := addNode_frame b (principalNode q (chain.nodes.headD ""))
  have hf := followChain_frame q (b.addNode (principalNode q (chain.nodes.headD ""))).1.nodeId
    chain.nodes.tail chain.edges (b.addNode (principalNode q (chain.nodes.headD ""))).2
  simp only [appendPath]
  generalize hroute : followChain q (b.addNode (principalNode q (chain.nodes.headD ""))).1.nodeId
    chain.nodes.tail chain.edges (b.addNode (principalNode q (chain.nodes.headD ""))).2 = route at hf ⊢
  obtain ⟨⟨nodeIds,edgeIds⟩,b1⟩ := route
  obtain ⟨h1,h2,h3⟩ := hf
  simp only []
  obtain ⟨he1,he2,he3⟩ := addEdge_frame b1
    (trusteeEdge ((b.addNode (principalNode q (chain.nodes.headD ""))).1.nodeId :: nodeIds |>.getLast
      (List.cons_ne_nil _ _)) aceId a)
  refine ⟨_,congrArg (· ++ [_]) (he1.trans (h1.trans hn1)),⟨rfl,rfl,rfl,rfl,rfl,rfl,rfl,rfl⟩,
    he2.trans (h2.trans hn2),he3.trans (h3.trans hn3)⟩

variable (q layer ev) in
/-- The chains of one entry: all of them, unless the path limit is reported. -/
theorem appendChains_spec (a : AppliedAce) (aceId objectEdgeId : String)
    (chains : List MembershipPath) (b : Builder) :
    Grows b (appendChains q a layer (novelContributions ev) aceId objectEdgeId chains b) ∧
      (appendChains q a layer (novelContributions ev) aceId objectEdgeId chains b).chains =
        b.chains ∧
      (∀ p ∈ (appendChains q a layer (novelContributions ev) aceId objectEdgeId chains b).paths,
        p ∈ b.paths ∨ EntryPath q layer ev a p) ∧
      (.maxPaths ∉ (appendChains q a layer (novelContributions ev) aceId objectEdgeId chains
          b).truncation → chains ≠ [] →
        ∃ p ∈ (appendChains q a layer (novelContributions ev) aceId objectEdgeId chains b).paths,
          EntryPath q layer ev a p) := by
  induction chains generalizing b with
  | nil => exact ⟨.refl b,rfl,fun p hp => .inl hp,fun _ h => absurd rfl h⟩
  | cons chain rest ih =>
    unfold appendChains
    split
    · obtain ⟨hpaths,hchains⟩ := truncate_paths b .maxPaths
      refine ⟨⟨fun p hp => hpaths ▸ hp,fun r hr => mem_truncate.mpr (.inl hr)⟩,hchains,
        fun p hp => .inl (hpaths ▸ hp),fun hcut => ?_⟩
      exact absurd (mem_truncate.mpr (.inr rfl)) hcut
    · obtain ⟨p,hp,hentry,ht,hc⟩ := appendPath_spec q layer ev a aceId
        objectEdgeId b chain
      obtain ⟨hg,hc',hsound,-⟩ := ih
        (appendPath q a layer (novelContributions ev) aceId objectEdgeId b chain)
      have hmem : p ∈ (appendPath q a layer (novelContributions ev) aceId objectEdgeId b
          chain).paths := by simp [hp]
      refine ⟨Grows.trans ⟨fun r hr => by simp [hp, hr],fun r hr => ht ▸ hr⟩ hg,hc'.trans hc,
        fun r hr => ?_,fun _ _ => ⟨p,hg.paths p hmem,hentry⟩⟩
      rcases hsound r hr with hold | hnew
      · rw [hp] at hold
        rcases List.mem_append.mp hold with h | h
        · exact .inl h
        · exact .inr (List.mem_singleton.mp h ▸ hentry)
      · exact .inr hnew

/-- Every trustee explained so far has at least one chain. -/
def Explained (b : Builder) : Prop := ∀ row ∈ b.chains, row.2 ≠ []

theorem truncateAll_frame (reasons : List TruncationReason) (b : Builder) :
    Grows b (reasons.foldl (fun b reason => b.truncate (chainTruncation reason)) b) ∧
      (reasons.foldl (fun b reason => b.truncate (chainTruncation reason)) b).paths = b.paths ∧
      (reasons.foldl (fun b reason => b.truncate (chainTruncation reason)) b).chains =
        b.chains := by
  induction reasons generalizing b with
  | nil => exact ⟨.refl b,rfl,rfl⟩
  | cons reason reasons ih =>
    obtain ⟨hg,hp,hc⟩ := ih (b.truncate (chainTruncation reason))
    obtain ⟨hp',hc'⟩ := truncate_paths b (chainTruncation reason)
    exact ⟨Grows.trans ⟨fun p h => hp' ▸ h,fun r hr => mem_truncate.mpr (.inl hr)⟩ hg,
      hp.trans hp',hc.trans hc'⟩

/-- What an enumeration of chains leaves of the builder. -/
structure Enumerated (b : Builder) (result : List MembershipPath × Builder) : Prop where
  nonempty : result.1 ≠ []
  grows : Grows b result.2
  paths : result.2.paths = b.paths
  chains : result.2.chains = b.chains

theorem enumerateChains_spec {matched : TokenSid} {b : Builder}
    {result : List MembershipPath × Builder} (h : enumerateChains q matched b = .ok result) :
    Enumerated b result := by
  have hcut (b : Builder) (reason : PathTruncation) : Grows b (b.truncate reason) :=
    ⟨fun p hp => (truncate_paths b reason).1 ▸ hp,fun r hr => mem_truncate.mpr (.inl hr)⟩
  unfold enumerateChains at h
  simp only [] at h
  split at h
  · cases h
    exact ⟨by simp,.refl b,rfl,rfl⟩
  · split at h
    · cases h
      exact ⟨by simp,.refl b,rfl,rfl⟩
    · split at h
      · cases h
        obtain ⟨hp,hc⟩ := truncate_paths b .edgesNotSupplied
        exact ⟨by simp,hcut b _,hp,hc⟩
      · obtain ⟨found,-,hrest⟩ := bind_ok.mp h
        obtain ⟨hg,hp,hc⟩ := truncateAll_frame found.truncation b
        split at hrest
        · cases hrest
          obtain ⟨hp',hc'⟩ := truncate_paths
            (found.truncation.foldl (fun b reason => b.truncate (chainTruncation reason)) b)
            .edgesNotSupplied
          have hg' := hg.trans (hcut _ .edgesNotSupplied)
          exact ⟨by simp,⟨hg'.paths,hg'.truncation⟩,hp'.trans hp,hc'.trans hc⟩
        · next hne =>
          cases hrest
          exact ⟨hne,hg,hp,hc⟩

theorem lookup_mem {rows : List (String × List MembershipPath)} {key : String}
    {chains : List MembershipPath} (h : rows.lookup key = some chains) : (key,chains) ∈ rows := by
  induction rows with
  | nil => cases h
  | cons row rows ih =>
    obtain ⟨k,v⟩ := row
    rw [List.lookup_cons] at h
    split at h
    · next hk =>
      cases h
      rw [beq_iff_eq.mp hk]
      exact List.mem_cons_self
    · exact List.mem_cons_of_mem _ (ih h)

theorem chainsTo_spec {matched : TokenSid} {b : Builder} (hb : Explained b)
    {result : List MembershipPath × Builder} (h : chainsTo q matched b = .ok result) :
    result.1 ≠ [] ∧ Grows b result.2 ∧ result.2.paths = b.paths ∧ Explained result.2 := by
  unfold chainsTo at h
  split at h
  · next cached hc =>
    cases h
    exact ⟨hb _ (lookup_mem hc),.refl b,rfl,hb⟩
  · obtain ⟨⟨chains,b'⟩,he,hrest⟩ := bind_ok.mp h
    have hspec := enumerateChains_spec he
    cases hrest
    refine ⟨hspec.nonempty,⟨hspec.grows.paths,hspec.grows.truncation⟩,hspec.paths,?_⟩
    intro row hrow
    rcases List.mem_append.mp hrow with hold | hnew
    · exact hb row (hspec.chains ▸ hold)
    · rw [List.mem_singleton.mp hnew]
      exact hspec.nonempty

/-- One matched entry: its paths and no others, at least one below the limit. -/
theorem pathsFor_spec {a : AppliedAce} {b b' : Builder} (hb : Explained b)
    (h : pathsFor q layer (novelContributions ev) b a = .ok b') :
    Grows b b' ∧ Explained b' ∧ (∀ p ∈ b'.paths, p ∈ b.paths ∨ EntryPath q layer ev a p) ∧
      (.maxPaths ∉ b'.truncation → ∃ p ∈ b'.paths, EntryPath q layer ev a p) := by
  obtain ⟨hn1,hn2,hn3⟩ := addNode_frame b (aceNode q a layer)
  obtain ⟨he1,he2,he3⟩ := addEdge_frame (b.addNode (aceNode q a layer)).2
    (objectEdge q (b.addNode (aceNode q a layer)).1.nodeId a)
  obtain ⟨⟨chains,b1⟩,hc,hrest⟩ := bind_ok.mp h
  have hexplained : Explained ((b.addNode (aceNode q a layer)).2.addEdge
      (objectEdge q (b.addNode (aceNode q a layer)).1.nodeId a)).2 := by
    intro row hrow
    exact hb row (by rw [← hn3, ← he3]; exact hrow)
  obtain ⟨hne,hg1,hp1,hx1⟩ := chainsTo_spec hexplained hc
  cases hrest
  have hspec := appendChains_spec q layer ev a
    (b.addNode (aceNode q a layer)).1.nodeId
    ((b.addNode (aceNode q a layer)).2.addEdge
      (objectEdge q (b.addNode (aceNode q a layer)).1.nodeId a)).1.edgeId chains b1
  obtain ⟨hg2,hc2,hsound,hcomplete⟩ := hspec
  have hpaths : b1.paths = b.paths := hp1.trans (he1.trans hn1)
  refine ⟨Grows.trans ⟨fun p hp => hpaths ▸ hp,fun r hr => ?_⟩ hg2,?_,?_,?_⟩
  · refine hg1.truncation r ?_
    rw [he2, hn2]
    exact hr
  · intro row hrow
    exact hx1 row (hc2 ▸ hrow)
  · intro p hp
    exact (hsound p hp).imp (fun h => hpaths ▸ h) id
  · exact fun hcut => hcomplete hcut hne

variable (q layer ev) in
theorem ownershipPath_spec (b : Builder) :
    Grows b (ownershipPath q ev layer b) ∧
      (ownershipPath q ev layer b).chains = b.chains ∧
      (∀ p ∈ (ownershipPath q ev layer b).paths, p ∈ b.paths ∨
        (ownerSeed ev ≠ 0 ∧ OwnerPath q layer ev p)) ∧
      (ownerSeed ev ≠ 0 → ∃ p ∈ (ownershipPath q ev layer b).paths, OwnerPath q layer ev p) := by
  unfold ownershipPath
  simp only []
  split
  · next hzero => exact ⟨.refl b,rfl,fun p hp => .inl hp,fun h => absurd hzero h⟩
  · next hne =>
    obtain ⟨hn1,hn2,hn3⟩ := addNode_frame b (principalNode q q.access.token.subject.key)
    obtain ⟨he1,he2,he3⟩ := addEdge_frame
      (b.addNode (principalNode q q.access.token.subject.key)).2
      (ownershipEdge q (b.addNode (principalNode q q.access.token.subject.key)).1.nodeId)
    refine ⟨⟨fun p hp => ?_,fun r hr => ?_⟩,he3.trans hn3,fun p hp => ?_,fun _ => ?_⟩
    · simp only [he1, hn1, List.mem_append]
      exact .inl hp
    · simp only [he2, hn2]
      exact hr
    · simp only [he1, hn1, List.mem_append, List.mem_singleton] at hp
      rcases hp with hold | rfl
      · exact .inl hold
      · exact .inr ⟨hne,⟨rfl,rfl,rfl,rfl,rfl,rfl,rfl⟩⟩
    · exact ⟨_,List.mem_append_right _ (List.mem_singleton_self _),
        ⟨rfl,rfl,rfl,rfl,rfl,rfl,rfl⟩⟩

theorem entries_spec {as : List AppliedAce} {b b' : Builder} (hb : Explained b)
    (h : as.foldlM (pathsFor q layer (novelContributions ev)) b = .ok b') :
    Grows b b' ∧ Explained b' ∧
      (∀ p ∈ b'.paths, p ∈ b.paths ∨ ∃ a ∈ as, EntryPath q layer ev a p) ∧
      (.maxPaths ∉ b'.truncation → ∀ a ∈ as, ∃ p ∈ b'.paths, EntryPath q layer ev a p) := by
  induction as generalizing b with
  | nil =>
    cases h
    exact ⟨.refl _,hb,fun p hp => .inl hp,fun _ a ha => absurd ha List.not_mem_nil⟩
  | cons a as ih =>
    rw [List.foldlM_cons] at h
    obtain ⟨b1,h1,hrest⟩ := bind_ok.mp h
    obtain ⟨hg1,hx1,hs1,hc1⟩ := pathsFor_spec hb h1
    obtain ⟨hg,hx,hs,hc⟩ := ih hx1 hrest
    refine ⟨hg1.trans hg,hx,fun p hp => ?_,fun hcut c hmem => ?_⟩
    · rcases hs p hp with hold | ⟨c,hmem,hentry⟩
      · rcases hs1 p hold with hb | hentry
        · exact .inl hb
        · exact .inr ⟨a,List.mem_cons_self,hentry⟩
      · exact .inr ⟨c,List.mem_cons_of_mem _ hmem,hentry⟩
    · rcases List.mem_cons.mp hmem with rfl | hin
      · obtain ⟨p,hp,hentry⟩ := hc1 fun h => hcut (hg.truncation _ h)
        exact ⟨p,hg.paths p hp,hentry⟩
      · exact hc hcut c hin

end Paths

section Explanation
variable (q : Question)

/-- A path that belongs to one evaluated layer. -/
def FromLayer (row : RightsLayer × AclEvaluation) (p : CausalPath) : Prop :=
  (ownerSeed row.2 ≠ 0 ∧ OwnerPath q row.1 row.2 p) ∨
    ∃ a ∈ appliedEntries row.2, EntryPath q row.1 row.2 a p

/-- Every cause in one evaluated layer has a path. -/
structure Shown (row : RightsLayer × AclEvaluation) (paths : List CausalPath) : Prop where
  owner : ownerSeed row.2 ≠ 0 → ∃ p ∈ paths, OwnerPath q row.1 row.2 p
  entries : ∀ a ∈ appliedEntries row.2, ∃ p ∈ paths, EntryPath q row.1 row.2 a p

variable {q}

theorem FromLayer.layer_eq {row : RightsLayer × AclEvaluation} {p : CausalPath}
    (h : FromLayer q row p) : p.layer = row.1 := by
  rcases h with ⟨_,hp⟩ | ⟨_,_,hp⟩
  · exact hp.layer_eq
  · exact hp.layer_eq

theorem Shown.mono {row : RightsLayer × AclEvaluation} {paths paths' : List CausalPath}
    (h : Shown q row paths) (hp : ∀ p ∈ paths, p ∈ paths') : Shown q row paths' :=
  ⟨fun ho => (h.owner ho).imp fun p hr => ⟨hp p hr.1,hr.2⟩,
    fun a ha => (h.entries a ha).imp fun p hr => ⟨hp p hr.1,hr.2⟩⟩

theorem buildLayer_spec {row : RightsLayer × AclEvaluation} {b b' : Builder} (hb : Explained b)
    (h : buildLayer q b row = .ok b') :
    Grows b b' ∧ Explained b' ∧ (∀ p ∈ b'.paths, p ∈ b.paths ∨ FromLayer q row p) ∧
      (.maxPaths ∉ b'.truncation → Shown q row b'.paths) := by
  obtain ⟨hg1,hc1,hs1,ho1⟩ := ownershipPath_spec q row.1 row.2 b
  have hx1 : Explained (ownershipPath q row.2 row.1 b) := fun r hr => hb r (hc1 ▸ hr)
  obtain ⟨hg,hx,hs,hc⟩ := entries_spec hx1 h
  refine ⟨hg1.trans hg,hx,fun p hp => ?_,fun hcut => ⟨fun ho => ?_,hc hcut⟩⟩
  · rcases hs p hp with hold | hentry
    · exact (hs1 p hold).imp id .inl
    · exact .inr (.inr hentry)
  · obtain ⟨p,hp,howner⟩ := ho1 ho
    exact ⟨p,hg.paths p hp,howner⟩

theorem layers_spec {rows : List (RightsLayer × AclEvaluation)} {b b' : Builder}
    (hb : Explained b) (h : rows.foldlM (buildLayer q) b = .ok b') :
    Grows b b' ∧ (∀ p ∈ b'.paths, p ∈ b.paths ∨ ∃ row ∈ rows, FromLayer q row p) ∧
      (.maxPaths ∉ b'.truncation → ∀ row ∈ rows, Shown q row b'.paths) := by
  induction rows generalizing b with
  | nil =>
    cases h
    exact ⟨.refl _,fun p hp => .inl hp,fun _ row hr => absurd hr List.not_mem_nil⟩
  | cons row rows ih =>
    rw [List.foldlM_cons] at h
    obtain ⟨b1,h1,hrest⟩ := bind_ok.mp h
    obtain ⟨hg1,hx1,hs1,hc1⟩ := buildLayer_spec hb h1
    obtain ⟨hg,hs,hc⟩ := ih hx1 hrest
    refine ⟨hg1.trans hg,fun p hp => ?_,fun hcut r hr => ?_⟩
    · rcases hs p hp with hold | ⟨r,hr,hp⟩
      · exact (hs1 p hold).imp id fun h => ⟨row,List.mem_cons_self,h⟩
      · exact .inr ⟨r,List.mem_cons_of_mem _ hr,hp⟩
    · rcases List.mem_cons.mp hr with rfl | hin
      · exact (hc1 fun h => hcut (hg.truncation _ h)).mono hg.paths
      · exact hc hcut r hin

theorem startBuilder_frame : (startBuilder q).paths = [] ∧ (startBuilder q).chains = [] := by
  unfold startBuilder
  cases q.access.token.membershipComplete with
  | true => simp [addNode_frame]
  | false => simp [addNode_frame, truncate_paths]

/-- Every path of an explanation belongs to a layer, and no layer is short of
one unless the path limit is reported. -/
theorem build_spec {b : Builder} (h : build q = .ok b) :
    (∀ p ∈ b.paths, ∃ row ∈ evaluations q.access, FromLayer q row p) ∧
      (.maxPaths ∉ b.truncation → ∀ row ∈ evaluations q.access, Shown q row b.paths) := by
  obtain ⟨b1,h1,hrest⟩ := bind_ok.mp h
  obtain ⟨hpaths,hchains⟩ := startBuilder_frame (q := q)
  obtain ⟨-,hs,hc⟩ := layers_spec (fun row hr => by rw [hchains] at hr; cases hr) h1
  cases hrest
  refine ⟨fun p hp => ?_,fun hcut row hr => (hc hcut row hr).mono fun p hp => ?_⟩
  · rcases hs p ((List.mem_insertionSort _).mp hp) with hold | hrow
    · rw [hpaths] at hold
      cases hold
    · exact hrow
  · exact (List.mem_insertionSort _).mpr hp

theorem measureAll_truncation {ids : List String} {targets : List RemovalTarget} {b : Builder}
    {result : List RemovalTarget × Builder} (h : measureAll q ids targets b = .ok result) :
    ∀ r ∈ b.truncation, r ∈ result.2.truncation := by
  induction ids generalizing targets with
  | nil =>
    cases h
    exact fun r hr => hr
  | cons id ids ih =>
    unfold measureAll at h
    split at h
    · cases h
      exact fun r hr => mem_truncate.mpr (.inl hr)
    · obtain ⟨target,-,hrest⟩ := bind_ok.mp h
      exact ih hrest

/-- What an explanation that returned was made of. -/
theorem explainAccess_ok {access : EffectiveAccess} {resource : ResourceDacl}
    {share : Option ShareDacl} {edges : List GraphEdge} {limits : ExplanationLimits}
    {exp : AccessExplanation} (h : explainAccess access resource share edges limits = .ok exp) :
    ∃ b b', build ⟨access,resource,share,limits,edges⟩ = .ok b ∧
      removalTargets ⟨access,resource,share,limits,edges⟩ b = .ok (exp.removalTargets,b') ∧
      exp.access = access ∧ exp.paths = b.paths ∧ exp.graph = b.graph ∧
      ∀ r, r ∈ exp.truncation ↔ r ∈ b'.truncation := by
  obtain ⟨-,-,h⟩ := bind_ok.mp h
  obtain ⟨b,hb,h⟩ := bind_ok.mp h
  obtain ⟨⟨targets,b'⟩,ht,h⟩ := bind_ok.mp h
  cases h
  exact ⟨b,b',hb,ht,rfl,rfl,rfl,fun r => List.mem_insertionSort _⟩

/-- What the grant paths of one layer are worth together. -/
def grantUnion (layer : RightsLayer) (paths : List CausalPath) : AccessMask :=
  (paths.filter fun p => p.layer = layer && p.isGrant).foldl
    (fun union p => union ||| p.effectiveRights.value) 0

theorem foldl_union_bit (paths : List CausalPath) (v : AccessMask) (b : ℕ) :
    (paths.foldl (fun union p => union ||| p.effectiveRights.value) v).getLsbD b = true ↔
      v.getLsbD b = true ∨ ∃ p ∈ paths, p.effectiveRights.value.getLsbD b = true := by
  induction paths generalizing v with
  | nil => simp
  | cons p ps ih =>
    rw [List.foldl_cons, ih, BitVec.getLsbD_or, Bool.or_eq_true]
    simp [or_assoc]

theorem grantUnion_bit (layer : RightsLayer) (paths : List CausalPath) (b : ℕ) :
    (grantUnion layer paths).getLsbD b = true ↔
      ∃ p ∈ paths, p.layer = layer ∧ p.isGrant = true ∧
        p.effectiveRights.value.getLsbD b = true := by
  unfold grantUnion
  rw [foldl_union_bit]
  simp [and_assoc]

end Explanation

section Answer
variable {token : SubjectToken} {resource : ResourceDacl} {share : Option ShareDacl}
  {fs : List AccessFinding} {access : EffectiveAccess} {q : Question}

theorem crossing_value (v : AccessMask) (layer : RightsLayer) :
    (crossing q v layer).1.value =
      v &&& (otherLayer q layer).getD (BitVec.allOnes 32) := by
  unfold crossing
  cases otherLayer q layer with
  | none => exact BitVec.and_allOnes.symm
  | some other => rfl

theorem walk_of_evaluation {entries : List AclEntry} {layer : RightsLayer} {facts : DaclFacts}
    {ev : AclEvaluation} (h : evaluateAcl entries token layer facts = .ok ev)
    (hp : facts.daclPresent = true) :
    WalkResult (entries.take maxAclEntries) token layer facts ev := by
  obtain ⟨hl,hs⟩ := evaluateAcl_layers h
  have hpresent : ∃ ev', evaluateAcl entries token layer facts = .ok ev' ∧
      WalkResult (entries.take maxAclEntries) token layer facts ev' := evaluateAcl_present hl hs hp
  obtain ⟨ev',hev,hw⟩ := hpresent
  rw [h] at hev
  cases hev
  exact hw

/-- The rows of the DACL a layer reads. -/
def layerEntries (resource : ResourceDacl) (share : Option ShareDacl) : RightsLayer → List AclEntry
  | .ntfs => resource.entries
  | _ => (share.map (·.entries)).getD []

/-- The facts a layer's DACL is read under; nobody owns a share. -/
def layerFacts (resource : ResourceDacl) : RightsLayer → DaclFacts
  | .ntfs => resource.facts
  | _ => unownedPresentDacl

/-- The share a resolution read, or none. -/
theorem share_evaluation (hres : Resolution token resource share fs access) :
    (access.share = none ∧ ∀ s, share = some s → s.observed = false) ∨
      ∃ s ev, share = some s ∧ s.observed = true ∧ access.share = some ev ∧
        evaluateAcl s.entries token .smbShare unownedPresentDacl = .ok ev := by
  by_cases hread : ∃ s, share = some s ∧ s.observed = true
  · obtain ⟨s,rfl,ho⟩ := hread
    obtain ⟨ev,hev,heval⟩ := hres.shareRead s rfl ho
    exact .inr ⟨s,ev,rfl,ho,hev,heval⟩
  · have hunread : ∀ s, share = some s → s.observed = false := by
      intro s hs
      by_contra ho
      exact hread ⟨s,hs,by simpa using ho⟩
    exact .inl ⟨hres.shareUnread hunread,hunread⟩

/-- Each reported layer is the evaluation of its own DACL. -/
theorem evaluation_row (hacc : resolveAccess token resource share fs = .ok access)
    {row : RightsLayer × AclEvaluation} (hrow : row ∈ evaluations access) :
    evaluateAcl (layerEntries resource share row.1) token row.1 (layerFacts resource row.1) =
      .ok row.2 := by
  have hres := resolveAccess_spec hacc
  unfold evaluations at hrow
  rcases List.mem_cons.mp hrow with rfl | hrow
  · exact hres.ntfs
  · rcases share_evaluation hres with ⟨hnone,-⟩ | ⟨s,ev,rfl,-,hev,heval⟩
    · rw [hnone] at hrow
      cases hrow
    · rw [hev] at hrow
      rw [List.mem_singleton.mp hrow]
      exact heval

/-- How the other layer cuts an evaluated layer to the answer. -/
theorem answer_row (hacc : resolveAccess token resource share fs = .ok access)
    (hq : q.access = access) {row : RightsLayer × AclEvaluation}
    (hrow : row ∈ evaluations access) :
    access.rights.expandGenerics.value =
      row.2.rights.value &&& (otherLayer q row.1).getD (BitVec.allOnes 32) := by
  have hres := resolveAccess_spec hacc
  have hanswer : access.rights.expandGenerics.value = resolvedMask token resource share := by
    rw [hres.rights]
    exact congrArg RightsMask.value
      (RightsMask.expand_specific ⟨_,.effective⟩ (resolvedMask_specific token resource share))
  have hntfsRights := evaluateAcl_rights hres.ntfs
  have hexpand (l : RightsLayer) (entries : List AclEntry) (facts : DaclFacts) :
      (RightsMask.mk (aclRights entries token l facts) l).expandGenerics.value =
        aclRights entries token l facts :=
    congrArg RightsMask.value (aclRights_expanded entries token l l facts)
  rw [hanswer]
  rcases share_evaluation hres with ⟨hnone,hunread⟩ | ⟨s,ev,rfl,ho,hev,heval⟩
  · have hmask : resolvedMask token resource share =
        aclRights resource.entries token .ntfs resource.facts := by
      cases share with
      | none => rfl
      | some s => simp [resolvedMask, hunread s rfl]
    simp only [evaluations, hnone, Option.map_none, Option.toList_none,
      List.mem_singleton] at hrow
    have hother : otherLayer q .ntfs = none := by simp [otherLayer, hq, hnone]
    rw [hrow, hmask, hother, hntfsRights]
    exact BitVec.and_allOnes.symm
  · have hshareRights := evaluateAcl_rights heval
    have hmask : resolvedMask token resource (some s) =
        aclRights s.entries token .smbShare unownedPresentDacl &&&
          aclRights resource.entries token .ntfs resource.facts := by simp [resolvedMask, ho]
    simp only [evaluations, hev, Option.map_some, Option.toList_some, List.mem_cons,
      List.not_mem_nil, or_false] at hrow
    rcases hrow with rfl | rfl
    · have hother : otherLayer q .ntfs =
          some (aclRights s.entries token .smbShare unownedPresentDacl) := by
        simp [otherLayer, hq, hev, hshareRights, hexpand]
      rw [hother, hmask, hntfsRights, BitVec.and_comm]
      rfl
    · have hother : otherLayer q .smbShare =
          some (aclRights resource.entries token .ntfs resource.facts) := by
        simp [otherLayer, hq, hev, hntfsRights, hexpand]
      rw [hother, hmask, hshareRights]
      rfl

/-- An evaluated layer: its walk, and how the other layer cuts it to the answer. -/
theorem evaluated_layer (hacc : resolveAccess token resource share fs = .ok access)
    (hpresent : resource.daclPresent = true) (hq : q.access = access)
    {row : RightsLayer × AclEvaluation} (hrow : row ∈ evaluations access) :
    (∃ supplied facts, WalkResult supplied token row.1 facts row.2) ∧
      access.rights.expandGenerics.value =
        row.2.rights.value &&& (otherLayer q row.1).getD (BitVec.allOnes 32) := by
  have hfacts : (layerFacts resource row.1).daclPresent = true := by
    unfold layerFacts
    split
    · exact hpresent
    · rfl
  exact ⟨⟨_,_,walk_of_evaluation (evaluation_row hacc hrow) hfacts⟩,answer_row hacc hq hrow⟩

theorem isGrant_entry {layer : RightsLayer} {ev : AclEvaluation} {a : AppliedAce} {p : CausalPath}
    (h : EntryPath q layer ev a p) : p.isGrant = a.entry.isAllow := by
  unfold CausalPath.isGrant
  rw [h.relation]
  cases a.entry.isAllow <;> rfl

/-- The grant paths of one shown layer, added up bit by bit. -/
theorem grantUnion_layer {row : RightsLayer × AclEvaluation} {paths : List CausalPath}
    (hfrom : ∀ p ∈ paths, p.layer = row.1 → FromLayer q row p) (hshown : Shown q row paths)
    {supplied : List AclEntry} {facts : DaclFacts}
    (hw : WalkResult supplied token row.1 facts row.2) :
    grantUnion row.1 paths =
      row.2.rights.value &&& (otherLayer q row.1).getD (BitVec.allOnes 32) := by
  have hcross {v : AccessMask} {e c : RightsMask} (h : (e,c) = crossing q v row.1) (b : ℕ) :
      e.value.getLsbD b = true ↔ v.getLsbD b = true ∧
        ((otherLayer q row.1).getD (BitVec.allOnes 32)).getLsbD b = true := by
    have he : e = (crossing q v row.1).1 := congrArg Prod.fst h
    rw [he, crossing_value, BitVec.getLsbD_and, Bool.and_eq_true]
  apply BitVec.eq_of_getLsbD_eq
  intro b _
  rw [Bool.eq_iff_iff, grantUnion_bit, BitVec.getLsbD_and, Bool.and_eq_true,
    layer_decomposes hw b]
  constructor
  · rintro ⟨p,hp,hlayer,hgrant,hb⟩
    rcases hfrom p hp hlayer with ⟨-,howner⟩ | ⟨a,ha,hentry⟩
    · obtain ⟨hv,ho⟩ := (hcross howner.crossed b).mp hb
      exact ⟨.inl hv,ho⟩
    · obtain ⟨hv,ho⟩ := (hcross hentry.crossed b).mp hb
      exact ⟨.inr ⟨a,ha,isGrant_entry hentry ▸ hgrant,hv⟩,ho⟩
  · rintro ⟨hv | ⟨a,ha,hallow,hv⟩,ho⟩
    · have hne : ownerSeed row.2 ≠ 0 := fun hz => by simp [hz] at hv
      obtain ⟨p,hp,howner⟩ := hshown.owner hne
      exact ⟨p,hp,howner.layer_eq,by simp [CausalPath.isGrant, howner.relation],
        (hcross howner.crossed b).mpr ⟨hv,ho⟩⟩
    · obtain ⟨p,hp,hentry⟩ := hshown.entries a ha
      exact ⟨p,hp,hentry.layer_eq,isGrant_entry hentry ▸ hallow,
        (hcross hentry.crossed b).mpr ⟨hv,ho⟩⟩

theorem evaluations_distinct {row row' : RightsLayer × AclEvaluation}
    (h : row ∈ evaluations access) (h' : row' ∈ evaluations access) (hl : row.1 = row'.1) :
    row = row' := by
  unfold evaluations at h h'
  cases hs : access.share with
  | none =>
    simp only [hs, Option.map_none, Option.toList_none, List.mem_singleton] at h h'
    exact h.trans h'.symm
  | some ev =>
    simp only [hs, Option.map_some, Option.toList_some, List.mem_cons, List.not_mem_nil,
      or_false] at h h'
    rcases h with rfl | rfl <;> rcases h' with rfl | rfl <;> simp_all

/-- The explanation decomposes the answer it explains: over each evaluated
layer the grant paths add up to the answer, no grant path claims more, and
every matched entry and the owner's implicit rights have a path. -/
theorem explanation_decomposes_answer (token : SubjectToken) (resource : ResourceDacl)
    (share : Option ShareDacl) (fs : List AccessFinding) (access : EffectiveAccess)
    (edges : List GraphEdge) (limits : ExplanationLimits) (exp : AccessExplanation)
    (hacc : resolveAccess token resource share fs = .ok access)
    (hpresent : resource.daclPresent = true)
    (hexp : explainAccess access resource share edges limits = .ok exp)
    (hcut : .maxPaths ∉ exp.truncation) :
    (∀ row ∈ evaluations access,
      grantUnion row.1 exp.paths = access.rights.expandGenerics.value ∧
      (∀ a ∈ row.2.grantedBy ++ row.2.deniedBy ++ row.2.superseded, ∃ p ∈ exp.paths,
        p.layer = row.1 ∧ p.acePosition = a.position ∧ p.trusteeKey = a.entry.trusteeKey ∧
          p.aceKey = a.entry.aceKey ∧ p.isGrant = a.entry.isAllow) ∧
      (row.2.ownerRights ≠ none → ∃ p ∈ exp.paths, p.layer = row.1 ∧
        p.acePosition = ownershipPosition ∧ p.isGrant = true)) ∧
    ∀ p ∈ exp.paths, p.isGrant = true →
      p.effectiveRights.value &&& ~~~access.rights.expandGenerics.value = 0 := by
  obtain ⟨b,b',hbuild,htargets,-,hpaths,-,htrunc⟩ := explainAccess_ok hexp
  have hkept : .maxPaths ∉ b.truncation := fun h =>
    hcut ((htrunc _).mpr (measureAll_truncation htargets _ h))
  obtain ⟨hfrom,hshown⟩ := build_spec hbuild
  have hlayers (row) (hrow : row ∈ evaluations access) (p) (hp : p ∈ b.paths)
      (hl : p.layer = row.1) : FromLayer ⟨access,resource,share,limits,edges⟩ row p := by
    obtain ⟨row',hrow',hp'⟩ := hfrom p hp
    rwa [evaluations_distinct hrow hrow' (hl.symm.trans hp'.layer_eq)]
  have hunion (row) (hrow : row ∈ evaluations access) :
      grantUnion row.1 b.paths = access.rights.expandGenerics.value := by
    obtain ⟨⟨supplied,facts,hw⟩,hanswer⟩ := evaluated_layer
      (q := ⟨access,resource,share,limits,edges⟩) hacc hpresent rfl hrow
    rw [hanswer]
    exact grantUnion_layer (hlayers row hrow) (hshown hkept row hrow) hw
  rw [hpaths]
  refine ⟨fun row hrow => ⟨hunion row hrow,fun a ha => ?_,fun ho => ?_⟩,fun p hp hgrant => ?_⟩
  · obtain ⟨p,hp,hentry⟩ := (hshown hkept row hrow).entries a ((applied_perm row.2).mem_iff.mpr ha)
    exact ⟨p,hp,hentry.layer_eq,hentry.position,hentry.trustee,hentry.aceKey,isGrant_entry hentry⟩
  · obtain ⟨⟨supplied,facts,hw⟩,-⟩ := evaluated_layer
      (q := ⟨access,resource,share,limits,edges⟩) hacc hpresent rfl hrow
    obtain ⟨p,hp,howner⟩ := (hshown hkept row hrow).owner (ownerSeed_ne hw ho)
    exact ⟨p,hp,howner.layer_eq,howner.position,by simp [CausalPath.isGrant, howner.relation]⟩
  · obtain ⟨row,hrow,hp'⟩ := hfrom p hp
    rw [← hunion row hrow]
    apply BitVec.eq_of_getLsbD_eq
    intro i hi
    have hcovered (hb : p.effectiveRights.value.getLsbD i = true) :
        (grantUnion row.1 b.paths).getLsbD i = true :=
      (grantUnion_bit row.1 b.paths i).mpr ⟨p,hp,hp'.layer_eq,hgrant,hb⟩
    cases hb : p.effectiveRights.value.getLsbD i with
    | false => simp [hb]
    | true => simp [hb, hcovered hb]

end Answer

namespace Sample
open Adg.FirstMatch.Sample

/-- A folder Alice owns, with a deny that narrows what everyone is allowed. -/
def folder : ResourceDacl :=
  { ResourceDacl.stored "folder" mixedDacl (by decide) with
    ownerSid := some aliceSid, ownerKey := some aliceSid, owner_keyed := by decide }

def aliceInFinance : GraphEdge :=
  { edgeKey := "1", groupKey := financeSid, memberKey := aliceSid
    group_ne := financeSid_ne, member_ne := aliceSid_ne }

end Sample

theorem folder_decomposes :
    ∃ access exp, resolveAccess FirstMatch.Sample.aliceToken Sample.folder none [] = .ok access ∧
      explainAccess access Sample.folder none [Sample.aliceInFinance] {} = .ok exp ∧
      grantUnion .ntfs exp.paths = access.rights.expandGenerics.value := by
  have hruns : (resolveAccess FirstMatch.Sample.aliceToken Sample.folder none [] >>= fun access =>
      explainAccess access Sample.folder none [Sample.aliceInFinance] {}).map (·.truncation) =
        .ok [] := by decide
  obtain ⟨exp,hexp,htrunc⟩ := mapped_ok.mp hruns
  obtain ⟨access,hacc,hexp⟩ := bind_ok.mp hexp
  refine ⟨access,exp,hacc,hexp,?_⟩
  exact ((explanation_decomposes_answer FirstMatch.Sample.aliceToken Sample.folder none [] access
    [Sample.aliceInFinance] {} exp hacc rfl hexp (by rw [htrunc]; decide)).1
      (.ntfs,access.ntfs) List.mem_cons_self).1

end Adg.Decomposition
