import Adg.Decomposition

/-!
# The explanation graph is well wired

Nodes and edges are stored once an id. A trustee edge leads to an entry's
node, which names the entry by layer and position, and an observed membership
names its stored row. Measured removals read both off the graph.
-/

set_option autoImplicit false

namespace Adg.ExplanationGraph
open Adg.Observation Adg.RightsAlgebra Adg.AccessSubjects Adg.Evaluation Adg.MembershipGraph
open Adg.AccessCausality Adg.Decomposition
open Adg.Fallible (bind_ok)

/-- The ids of entry nodes are the ones that start like this. -/
def isAceId (nodeId : String) : Bool :=
  nodeId.toList.head? = some 'n' || nodeId.toList.head? = some 's'

structure Located (n : ExplanationNode) : Prop where
  place : isAceId n.nodeId = true → ∃ layer position, n.layer = some layer ∧
    n.position = some position

theorem isAceId_append {prefixed rest : String} (h : prefixed ≠ "") :
    isAceId (prefixed ++ rest) = isAceId prefixed := by
  have hne : prefixed.toList ≠ [] := fun he => h (String.toList_eq_nil_iff.mp he)
  unfold isAceId
  rw [String.toList_append]
  cases hl : prefixed.toList with
  | nil => exact absurd hl hne
  | cons c cs => rfl

theorem located_of_plain {n : ExplanationNode} (h : isAceId n.nodeId = false) : Located n :=
  ⟨fun ht => by rw [h] at ht; cases ht⟩

section Nodes
variable (q : Question)

theorem located_object : Located (objectNode q) :=
  located_of_plain ((isAceId_append (by decide)).trans (by decide))

theorem located_principal (key : String) : Located (principalNode q key) :=
  located_of_plain ((isAceId_append (by decide)).trans (by decide))

theorem located_membership (key : String) : Located (membershipNode q key) := by
  apply located_of_plain
  simp only [membershipNode]
  split <;> exact (isAceId_append (by decide)).trans (by decide)

theorem isAceId_ace (layer : RightsLayer) (position : ℕ) :
    isAceId (aceNodeId q layer position) = true := by
  unfold aceNodeId
  rw [String.append_assoc, String.append_assoc]
  split <;> exact (isAceId_append (by decide)).trans (by decide)

theorem located_ace (a : AppliedAce) (layer : RightsLayer) : Located (aceNode q a layer) :=
  ⟨fun _ => ⟨layer,a.position,rfl,rfl⟩⟩

end Nodes

/-- What an edge needs of the nodes stored so far. -/
structure Anchored (nodes : List ExplanationNode) (e : ExplanationEdge) : Prop where
  row : e.kind = .membership → ∃ row, e.membershipEdgeKey = some row
  ace : e.kind = .trustee → isAceId e.target = true ∧ ∃ n ∈ nodes, n.nodeId = e.target

structure Wired (b : Builder) : Prop where
  located : ∀ n ∈ b.nodes, Located n
  nodeIds : (b.nodes.map (·.nodeId)).Nodup
  anchored : ∀ e ∈ b.edges, Anchored b.nodes e
  edgeIds : (b.edges.map (·.edgeId)).Nodup

theorem Anchored.mono {nodes nodes' : List ExplanationNode} {e : ExplanationEdge}
    (h : Anchored nodes e) (hsub : ∀ n ∈ nodes, n ∈ nodes') : Anchored nodes' e :=
  ⟨h.row,fun hk => ⟨(h.ace hk).1,(h.ace hk).2.imp fun n hn => ⟨hsub n hn.1,hn.2⟩⟩⟩

/-- From one builder to a later one: still wired, and no node is lost. -/
structure Rewired (b b' : Builder) : Prop where
  wired : Wired b'
  kept : ∀ n ∈ b.nodes, n ∈ b'.nodes

theorem Wired.self {b : Builder} (h : Wired b) : Rewired b b := ⟨h,fun _ hn => hn⟩

theorem Rewired.trans {a b c : Builder} (h : Rewired a b) (h' : Rewired b c) : Rewired a c :=
  ⟨h'.wired,fun n hn => h'.kept n (h.kept n hn)⟩

theorem Wired.congr {b b' : Builder} (h : Wired b) (hn : b'.nodes = b.nodes)
    (he : b'.edges = b.edges) : Rewired b b' := by
  refine ⟨⟨?_,?_,?_,?_⟩,fun n h => hn ▸ h⟩
  · rw [hn]; exact h.located
  · rw [hn]; exact h.nodeIds
  · rw [hn, he]; exact h.anchored
  · rw [he]; exact h.edgeIds

theorem nodup_snoc {α : Type} {xs : List α} {key : α → String} {x : α}
    (h : (xs.map key).Nodup) (hx : xs.find? (fun y => key y = key x) = none) :
    ((xs++[x]).map key).Nodup := by
  rw [List.map_append, List.nodup_append]
  refine ⟨h,by simp,?_⟩
  rintro a ha b hb rfl
  obtain ⟨y,hy,rfl⟩ := List.mem_map.mp ha
  have hab : key y = key x := by simpa using hb
  simpa [hab] using List.find?_eq_none.mp hx y hy

theorem addNode_wired {b : Builder} (h : Wired b) {n : ExplanationNode} (hn : Located n) :
    Rewired b (b.addNode n).2 ∧ (b.addNode n).1.nodeId = n.nodeId ∧
      ∃ m ∈ (b.addNode n).2.nodes, m.nodeId = n.nodeId := by
  unfold Builder.addNode
  cases hf : b.node n.nodeId with
  | some stored =>
    have hid : stored.nodeId = n.nodeId := by simpa using List.find?_some hf
    exact ⟨h.self,hid,stored,List.mem_of_find?_eq_some hf,hid⟩
  | none =>
    have hsub : ∀ m ∈ b.nodes, m ∈ b.nodes ++ [n] := fun m hm => List.mem_append_left _ hm
    refine ⟨⟨⟨fun m hm => ?_,nodup_snoc h.nodeIds hf,fun e he => (h.anchored e he).mono hsub,
      h.edgeIds⟩,hsub⟩,rfl,n,by simp,rfl⟩
    rcases List.mem_append.mp hm with hold | hnew
    · exact h.located m hold
    · exact List.mem_singleton.mp hnew ▸ hn

theorem addEdge_wired {b : Builder} (h : Wired b) {e : ExplanationEdge}
    (he : Anchored b.nodes e) : Rewired b (b.addEdge e).2 := by
  unfold Builder.addEdge
  cases hf : b.edge e.edgeId with
  | some stored => exact h.self
  | none =>
    refine ⟨⟨h.located,h.nodeIds,fun d hd => ?_,nodup_snoc h.edgeIds hf⟩,fun _ hn => hn⟩
    rcases List.mem_append.mp hd with hold | hnew
    · exact h.anchored d hold
    · exact List.mem_singleton.mp hnew ▸ he

theorem anchored_membership (nodes : List ExplanationNode) (source target : String)
    (hop : Option GraphEdge) : Anchored nodes (membershipEdge source target hop) := by
  cases hop with
  | none => exact ⟨fun h => by simp [membershipEdge] at h,fun h => by simp [membershipEdge] at h⟩
  | some e => exact ⟨fun _ => ⟨e.edgeKey,rfl⟩,fun h => by simp [membershipEdge] at h⟩

section Build
variable (q : Question)

theorem followChain_wired (previous : String) (keys : List String) (hops : List GraphEdge)
    {b : Builder} (h : Wired b) : Rewired b (followChain q previous keys hops b).2 := by
  induction keys generalizing previous hops b with
  | nil => exact h.self
  | cons key keys ih =>
    obtain ⟨hn,-,-⟩ := addNode_wired h (located_membership q key)
    have he := addEdge_wired hn.wired (anchored_membership (b.addNode (membershipNode q key)).2.nodes
      previous (b.addNode (membershipNode q key)).1.nodeId hops.head?)
    simp only [followChain]
    exact (hn.trans he).trans (ih _ _ he.wired)

variable {q} {layer : RightsLayer} {novel : List (ℕ × AccessMask)}

variable (q layer novel) in
theorem appendPath_wired (a : AppliedAce) {aceId : String} (objectEdgeId : String) {b : Builder}
    (chain : MembershipPath) (h : Wired b) (hid : isAceId aceId = true)
    (hace : ∃ n ∈ b.nodes, n.nodeId = aceId) :
    Rewired b (appendPath q a layer novel aceId objectEdgeId b chain) := by
  obtain ⟨hn,-,-⟩ := addNode_wired h (located_principal q (chain.nodes.headD ""))
  have hf := followChain_wired q (b.addNode (principalNode q (chain.nodes.headD ""))).1.nodeId
    chain.nodes.tail chain.edges hn.wired
  simp only [appendPath]
  generalize hroute : followChain q (b.addNode (principalNode q (chain.nodes.headD ""))).1.nodeId
    chain.nodes.tail chain.edges (b.addNode (principalNode q (chain.nodes.headD ""))).2 = route
    at hf ⊢
  obtain ⟨⟨nodeIds,edgeIds⟩,b1⟩ := route
  have hto : Rewired b b1 := hn.trans hf
  have hedge : Anchored b1.nodes (trusteeEdge
      (((b.addNode (principalNode q (chain.nodes.headD ""))).1.nodeId :: nodeIds).getLast
        (List.cons_ne_nil _ _)) aceId a) :=
    ⟨fun hk => by simp [trusteeEdge] at hk,
      fun _ => ⟨hid,hace.imp fun n hn' => ⟨hto.kept n hn'.1,hn'.2⟩⟩⟩
  have he := addEdge_wired hf.wired hedge
  exact (hto.trans he).trans (he.wired.congr rfl rfl)

theorem truncate_wired {b : Builder} (h : Wired b) (reason : PathTruncation) :
    Rewired b (b.truncate reason) := by
  unfold Builder.truncate
  split
  · exact h.self
  · exact h.congr rfl rfl

theorem appendChains_wired (a : AppliedAce) {aceId : String} (objectEdgeId : String)
    (chains : List MembershipPath) {b : Builder} (h : Wired b) (hid : isAceId aceId = true)
    (hace : ∃ n ∈ b.nodes, n.nodeId = aceId) :
    Rewired b (appendChains q a layer novel aceId objectEdgeId chains b) := by
  induction chains generalizing b with
  | nil => exact h.self
  | cons chain rest ih =>
    unfold appendChains
    split
    · exact truncate_wired h _
    · have h1 := appendPath_wired q layer novel a objectEdgeId chain h
        hid hace
      exact h1.trans (ih h1.wired (hace.imp fun n hn => ⟨h1.kept n hn.1,hn.2⟩))

theorem truncateAll_wired (reasons : List TruncationReason) {b : Builder} (h : Wired b) :
    Rewired b (reasons.foldl (fun b reason => b.truncate (chainTruncation reason)) b) := by
  induction reasons generalizing b with
  | nil => exact h.self
  | cons reason reasons ih =>
    have h1 := truncate_wired h (chainTruncation reason)
    exact h1.trans (ih h1.wired)

theorem enumerateChains_wired {matched : TokenSid} {b : Builder} (h : Wired b)
    {result : List MembershipPath × Builder} (hr : enumerateChains q matched b = .ok result) :
    Rewired b result.2 := by
  unfold enumerateChains at hr
  simp only [] at hr
  split at hr
  · cases hr
    exact h.self
  · split at hr
    · cases hr
      exact h.self
    · split at hr
      · cases hr
        exact truncate_wired h _
      · obtain ⟨found,-,hrest⟩ := bind_ok.mp hr
        have h1 := truncateAll_wired found.truncation h
        split at hrest
        · cases hrest
          have h2 := truncate_wired h1.wired .edgesNotSupplied
          exact (h1.trans h2).trans (h2.wired.congr rfl rfl)
        · cases hrest
          exact h1

theorem chainsTo_wired {matched : TokenSid} {b : Builder} (h : Wired b)
    {result : List MembershipPath × Builder} (hr : chainsTo q matched b = .ok result) :
    Rewired b result.2 := by
  unfold chainsTo at hr
  split at hr
  · cases hr
    exact h.self
  · obtain ⟨⟨chains,b'⟩,he,hrest⟩ := bind_ok.mp hr
    have h1 := enumerateChains_wired h he
    cases hrest
    exact h1.trans (h1.wired.congr rfl rfl)

theorem pathsFor_wired {a : AppliedAce} {b b' : Builder} (h : Wired b)
    (hr : pathsFor q layer novel b a = .ok b') : Rewired b b' := by
  obtain ⟨hn,hid,hstored⟩ := addNode_wired h (located_ace q a layer)
  obtain ⟨⟨chains,b1⟩,hc,hrest⟩ := bind_ok.mp hr
  have hobject : Anchored (b.addNode (aceNode q a layer)).2.nodes
      (objectEdge q (b.addNode (aceNode q a layer)).1.nodeId a) := by
    unfold objectEdge
    cases a.entry.isAllow <;> exact ⟨fun hk => by simp at hk,fun hk => by simp at hk⟩
  have he := addEdge_wired hn.wired hobject
  have h1 := chainsTo_wired he.wired hc
  obtain rfl : appendChains q a layer novel (b.addNode (aceNode q a layer)).1.nodeId _ chains b1 =
    b' := Except.ok.inj hrest
  have hto := he.trans h1
  refine (hn.trans hto).trans (appendChains_wired a _ chains h1.wired ?_ ?_)
  · rw [hid]
    exact isAceId_ace q layer a.position
  · obtain ⟨m,hm,hmid⟩ := hstored
    exact ⟨m,hto.kept m hm,hmid.trans hid.symm⟩

theorem ownershipPath_wired (ev : AclEvaluation) {b : Builder} (h : Wired b) :
    Rewired b (ownershipPath q ev layer b) := by
  unfold ownershipPath
  simp only []
  split
  · exact h.self
  · obtain ⟨hn,-,-⟩ := addNode_wired h (located_principal q q.access.token.subject.key)
    have he := addEdge_wired hn.wired (e := ownershipEdge q
      (b.addNode (principalNode q q.access.token.subject.key)).1.nodeId)
      ⟨fun hk => by simp [ownershipEdge] at hk,fun hk => by simp [ownershipEdge] at hk⟩
    exact (hn.trans he).trans (he.wired.congr rfl rfl)

/-- A fold that keeps the builder wired at each step keeps it wired. -/
theorem foldlM_wired {α : Type} {f : Builder → α → Except DomainError Builder}
    (hf : ∀ b b' x, Wired b → f b x = .ok b' → Rewired b b') {xs : List α} {b b' : Builder}
    (h : Wired b) (hr : xs.foldlM f b = .ok b') : Rewired b b' := by
  induction xs generalizing b with
  | nil =>
    cases hr
    exact h.self
  | cons x xs ih =>
    rw [List.foldlM_cons] at hr
    obtain ⟨b1,h1,hrest⟩ := bind_ok.mp hr
    have hw := hf b b1 x h h1
    exact hw.trans (ih hw.wired hrest)

theorem startBuilder_wired : Wired (startBuilder q) := by
  have hempty : Wired {} := ⟨by simp,by simp,by simp,by simp⟩
  have hstart (b : Builder) (h : Wired b) : Wired ((b.addNode (objectNode q)).2.addNode
      (principalNode q q.access.token.subject.key)).2 :=
    (addNode_wired (addNode_wired h (located_object q)).1.wired
      (located_principal q q.access.token.subject.key)).1.wired
  unfold startBuilder
  split
  · exact hstart _ hempty
  · exact hstart _ (truncate_wired hempty _).wired

/-- The builder an explanation reads its graph from is wired. -/
theorem build_wired {b : Builder} (h : build q = .ok b) : Wired b := by
  obtain ⟨b1,h1,hrest⟩ := bind_ok.mp h
  have hlayers := foldlM_wired (fun b b' row hb hr =>
    (ownershipPath_wired row.2 hb).trans
      (foldlM_wired (fun _ _ _ hw hp => pathsFor_wired hw hp)
        (ownershipPath_wired row.2 hb).wired hr)) startBuilder_wired h1
  cases hrest
  exact Rewired.wired (hlayers.wired.congr rfl rfl)

end Build

section Lookup
variable {α : Type} {key : α → String}

theorem find_of_nodup {xs : List α} (hn : (xs.map key).Nodup) {x : α} (hx : x ∈ xs) :
    xs.find? (fun y => key y = key x) = some x := by
  induction xs with
  | nil => cases hx
  | cons y ys ih =>
    rw [List.map_cons, List.nodup_cons] at hn
    rcases List.mem_cons.mp hx with rfl | hin
    · simp
    · have hne : key y ≠ key x := fun he => hn.1 (he ▸ List.mem_map_of_mem hin)
      rw [List.find?_cons_of_neg (by simpa using hne)]
      exact ih hn.2 hin

/-- Sorting a list whose keys are unique does not change what a key finds. -/
theorem find_perm {xs ys : List α} (hp : ys.Perm xs) (hn : (xs.map key).Nodup) {x : α}
    {id : String} (h : xs.find? (fun y => key y = id) = some x) :
    ys.find? (fun y => key y = id) = some x := by
  have hid : key x = id := by simpa using List.find?_some h
  subst hid
  exact find_of_nodup ((hp.map key).nodup_iff.mpr hn) (hp.mem_iff.mpr (List.mem_of_find?_eq_some h))

end Lookup

theorem Wired.graph_node {b : Builder} (h : Wired b) {id : String} {n : ExplanationNode}
    (hn : b.node id = some n) : b.graph.node id = some n :=
  find_perm (List.perm_insertionSort _ _) h.nodeIds hn

theorem Wired.graph_edge {b : Builder} (h : Wired b) {id : String} {e : ExplanationEdge}
    (he : b.edge id = some e) : b.graph.edge id = some e :=
  find_perm (List.perm_insertionSort _ _) h.edgeIds he

end Adg.ExplanationGraph
