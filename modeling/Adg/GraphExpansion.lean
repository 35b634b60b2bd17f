import Adg.CycleSearch
import Adg.Reachability

/-!
# What an expansion returns

`expand` is sound under every limit: each node it returns is reachable and
carries a shortest genuine chain. When it reports no truncation it is exact:
every reachable node, every edge that leaves one, and every cycle.
-/

set_option autoImplicit false

namespace Adg.GraphExpansion
open Adg.Observation Adg.MembershipGraph Adg.CycleSearch Adg.StronglyConnected Adg.Reachability

structure Expansion where
  root : String
  direction : Direction
  nodes : List ReachedNode
  edges : List GraphEdge
  cycles : List GraphCycle
  depthReached : ℕ
  limits : TraversalLimits
  truncation : List TruncationReason

def rootNode (root : String) : ReachedNode :=
  { key := root, depth := 0, path := [root], edgeKeys := [], edgeKinds := [] }

/-- Sort key of a reached node: depth, then key. -/
def nodeOrder (a b : ReachedNode) : Prop := a.depth < b.depth ∨ (a.depth = b.depth ∧ a.key ≤ b.key)

instance : DecidableRel nodeOrder := fun a b => by
  unfold nodeOrder
  infer_instance

/-- `expand`. -/
def expand (root : String) (direction : Direction) (provider : AdjacencyProvider)
    (limits : TraversalLimits) : Except DomainError Expansion := do
  if root = "" then
    throw { message := "A traversal needs a root key.", field := "root" }
  let (frontier, w) ← takeLevels direction limits provider limits.maxDepth [root]
    { paths := [rootNode root] }
  let w ← if frontier ≠ [] ∧ w.truncation = [] then
      probeBoundary direction limits (provider direction frontier) frontier w
    else pure w
  return {
    root := root
    direction := direction
    nodes := w.visited.insertionSort nodeOrder
    edges := w.edgesSeen.insertionSort fun a b => a.edgeKey ≤ b.edgeKey
    cycles := findCycles w.edgesSeen direction (some (w.paths.map (·.key)))
    depthReached := (w.visited.map (·.depth)).foldl max 0
    limits := limits
    truncation := sortReasons w.truncation }

/-- A stored membership graph: the row key is a primary key. -/
structure MembershipGraph where
  edges : List GraphEdge
  keys_unique : ∀ e ∈ edges, ∀ e' ∈ edges, e.edgeKey = e'.edgeKey → e = e'

/-- A provider that answers from the graph: for a key it was asked about, the
edges that lead out of it, in any order. -/
def Provides (provider : AdjacencyProvider) (g : MembershipGraph) (direction : Direction) : Prop :=
  ∀ frontier, ∀ key ∈ frontier, ∀ e,
    e ∈ provider direction frontier key ↔ e ∈ g.edges ∧ e.origin direction = key

/-- A chain of edges from one key to another. -/
def Chained (direction : Direction) : String → List GraphEdge → String → Prop
  | x, [], y => x = y
  | x, e :: es, y => e.origin direction = x ∧ Chained direction (e.endpoint direction) es y

theorem chained_snoc {direction : Direction} {x y : String} {es : List GraphEdge} {e : GraphEdge}
    (h : Chained direction x es (e.origin direction)) (hy : e.endpoint direction = y) :
    Chained direction x (es++[e]) y := by
  induction es generalizing x with
  | nil => exact ⟨h.symm,hy⟩
  | cons f es ih => exact ⟨h.1,ih h.2⟩

/-- A reached node whose record is a real chain of the graph. -/
structure Genuine (g : MembershipGraph) (direction : Direction) (root : String)
    (n : ReachedNode) : Prop where
  chain : ∃ es, (∀ e ∈ es, e ∈ g.edges) ∧ Chained direction root es n.key ∧
    n.path = root :: es.map (·.endpoint direction) ∧ n.edgeKeys = es.map (·.edgeKey) ∧
    n.edgeKinds = es.map (·.kind) ∧ es.length = n.depth
  shortest : Shortest (Hop g.edges direction) n.depth root n.key

section Walks
variable {g : MembershipGraph} {direction : Direction} {root : String}

def knownKeys (w : Walk) : List String := w.paths.map (·.key)

theorem known_iff {w : Walk} {key : String} : w.known key = true ↔ key ∈ knownKeys w := by
  simp [Walk.known, knownKeys]

/-- What holds of a walk at every point: its paths are genuine, one a key,
and the edges it has seen are edges of the graph. -/
structure Sound (g : MembershipGraph) (direction : Direction) (root : String) (w : Walk) :
    Prop where
  genuine : ∀ n ∈ w.paths, Genuine g direction root n
  paths_eq : w.paths = rootNode root :: w.visited
  keys_nodup : (knownKeys w).Nodup
  edges_sub : ∀ e ∈ w.edgesSeen, e ∈ g.edges

theorem seen_iff {w : Walk} (h : Sound g direction root w) {e : GraphEdge} (he : e ∈ g.edges) :
    w.seen e.edgeKey = true ↔ e ∈ w.edgesSeen := by
  unfold Walk.seen
  rw [List.any_eq_true]
  constructor
  · rintro ⟨e',he',hkey⟩
    have hsame : e'.edgeKey = e.edgeKey := by simpa using hkey
    rwa [← g.keys_unique e' (h.edges_sub e' he') e he hsame]
  · intro hin
    exact ⟨e,hin,by simp⟩

theorem find_node {nodes : List ReachedNode} (h : (nodes.map (·.key)).Nodup) {n : ReachedNode}
    (hn : n ∈ nodes) : nodes.find? (·.key = n.key) = some n := by
  induction nodes with
  | nil => cases hn
  | cons m ms ih =>
    rw [List.map_cons, List.nodup_cons] at h
    rcases List.mem_cons.mp hn with rfl | hin
    · simp
    · have hne : m.key ≠ n.key := fun he => h.1 (he ▸ List.mem_map_of_mem hin)
      rw [List.find?_cons_of_neg (by simpa using hne)]
      exact ih h.2 hin

theorem node_of_mem {w : Walk} (h : (knownKeys w).Nodup) {n : ReachedNode} (hn : n ∈ w.paths) :
    w.node n.key = some n :=
  find_node h hn

/-- Known nodes and seen edges are only ever added. -/
structure Grows (w w' : Walk) : Prop where
  keys : ∀ k ∈ knownKeys w, k ∈ knownKeys w'
  edges : ∀ e ∈ w.edgesSeen, e ∈ w'.edgesSeen

theorem Grows.rfl' {w : Walk} : Grows w w := ⟨fun _ h => h,fun _ h => h⟩

theorem Grows.trans {u v w : Walk} (h : Grows u v) (h' : Grows v w) : Grows u w :=
  ⟨fun k hk => h'.keys k (h.keys k hk),fun e he => h'.edges e (h.edges e he)⟩

/-- An edge the walk has dealt with: kept, and its far end known. -/
def Processed (direction : Direction) (w : Walk) (e : GraphEdge) : Prop :=
  e ∈ w.edgesSeen ∧ e.endpoint direction ∈ knownKeys w

theorem Processed.grows {w w' : Walk} {e : GraphEdge} (h : Processed direction w e)
    (hg : Grows w w') : Processed direction w' e :=
  ⟨hg.edges e h.1,hg.keys _ h.2⟩

/-- A walk inside the level that starts at `start`, over its frontier. -/
structure Within (g : MembershipGraph) (direction : Direction) (root : String) (depth : ℕ)
    (frontier : List String) (start w : Walk) : Prop where
  sound : Sound g direction root w
  fresh : ∃ new, w.paths = start.paths ++ new ∧
    w.nextFrontier = start.nextFrontier ++ new.map (·.key) ∧ ∀ n ∈ new, n.depth = depth
  edges : ∀ e ∈ w.edgesSeen, e ∈ start.edgesSeen ∨ e.origin direction ∈ frontier
  start_edges : ∀ e ∈ start.edgesSeen, e ∈ w.edgesSeen

/-- The frontier of a level: its keys are the known nodes at one depth, and
everything up to that depth is known. -/
structure Frontier (g : MembershipGraph) (direction : Direction) (root : String) (depth : ℕ)
    (frontier : List String) (w : Walk) : Prop where
  sound : Sound g direction root w
  covered : Covered (Hop g.edges direction) root (· ∈ knownKeys w) depth
  depth_le : ∀ n ∈ w.paths, n.depth ≤ depth
  frontier_iff : ∀ k, k ∈ frontier ↔ ∃ n ∈ w.paths, n.key = k ∧ n.depth = depth
  edges_iff : ∀ e, e ∈ w.edgesSeen ↔
    e ∈ g.edges ∧ ∃ n ∈ w.paths, n.key = e.origin direction ∧ n.depth < depth

theorem within_start {depth : ℕ} {frontier : List String} {w : Walk}
    (h : Sound g direction root w) : Within g direction root depth frontier w w :=
  ⟨h,⟨[],by simp,by simp,by simp⟩,fun _ he => .inl he,fun _ he => he⟩

theorem within_truncate {depth : ℕ} {frontier : List String} {start w : Walk}
    (h : Within g direction root depth frontier start w) (reason : TruncationReason) :
    Within g direction root depth frontier start (w.truncate reason) :=
  ⟨⟨h.sound.genuine,h.sound.paths_eq,h.sound.keys_nodup,h.sound.edges_sub⟩,h.fresh,h.edges,
    h.start_edges⟩

theorem truncate_ne (w : Walk) (reason : TruncationReason) : (w.truncate reason).truncation ≠ [] :=
  List.ne_nil_of_mem (mem_addReason.mpr (.inl rfl))

theorem record_edges {w : Walk} (h : Sound g direction root w) {e : GraphEdge}
    (he : e ∈ g.edges) (e' : GraphEdge) :
    e' ∈ (w.record e).edgesSeen ↔ e' ∈ w.edgesSeen ∨ e' = e := by
  unfold Walk.record
  split
  · next hs =>
    have hin := (seen_iff h he).mp hs
    constructor
    · exact .inl
    · rintro (h' | rfl)
      · exact h'
      · exact hin
  · simp

theorem record_paths (w : Walk) (e : GraphEdge) :
    (w.record e).paths = w.paths ∧ (w.record e).visited = w.visited ∧
      (w.record e).nextFrontier = w.nextFrontier ∧ (w.record e).truncation = w.truncation := by
  unfold Walk.record
  split <;> exact ⟨rfl,rfl,rfl,rfl⟩

theorem within_record {depth : ℕ} {frontier : List String} {start w : Walk}
    (h : Within g direction root depth frontier start w) {e : GraphEdge} (he : e ∈ g.edges)
    (ho : e.origin direction ∈ frontier) :
    Within g direction root depth frontier start (w.record e) := by
  obtain ⟨hpaths,hvisited,hnext,-⟩ := record_paths w e
  have hkeys : knownKeys (w.record e) = knownKeys w := by rw [knownKeys, hpaths]; rfl
  refine ⟨⟨?_,?_,?_,?_⟩,?_,?_,?_⟩
  · rw [hpaths]; exact h.sound.genuine
  · rw [hpaths, hvisited]; exact h.sound.paths_eq
  · rw [hkeys]; exact h.sound.keys_nodup
  · intro e' he'
    rcases (record_edges h.sound he e').mp he' with h' | rfl
    · exact h.sound.edges_sub e' h'
    · exact he
  · rw [hpaths, hnext]; exact h.fresh
  · intro e' he'
    rcases (record_edges h.sound he e').mp he' with h' | rfl
    · exact h.edges e' h'
    · exact .inr ho
  · intro e' he'
    exact (record_edges h.sound he e').mpr (.inl (h.start_edges e' he'))

theorem Frontier.node {depth : ℕ} {frontier : List String} {start w : Walk}
    (hf : Frontier g direction root depth frontier start) {d : ℕ}
    (hw : Within g direction root d frontier start w) {key : String} (hk : key ∈ frontier) :
    ∃ n, w.node key = some n ∧ Genuine g direction root n ∧ n.depth = depth ∧ n.key = key := by
  obtain ⟨n,hn,rfl,hd⟩ := (hf.frontier_iff key).mp hk
  obtain ⟨new,hpaths,-⟩ := hw.fresh
  refine ⟨n,node_of_mem hw.sound.keys_nodup ?_,hf.sound.genuine n hn,hd,rfl⟩
  rw [hpaths]
  exact List.mem_append_left _ hn

/-- The edge past a node at one depth leads to a genuine node at the next. -/
theorem reached_genuine {depth : ℕ} {P : String → Prop} {n : ReachedNode} {e : GraphEdge}
    (hn : Genuine g direction root n) (hd : n.depth = depth) (he : e ∈ g.edges)
    (ho : e.origin direction = n.key) (hcovered : Covered (Hop g.edges direction) root P depth)
    (hfresh : ¬ P (e.endpoint direction)) :
    Genuine g direction root (reachedThrough e direction (depth+1) n) := by
  obtain ⟨es,hes,hchain,hpath,hkeys,hkinds,hlen⟩ := hn.chain
  refine ⟨⟨es++[e],?_,?_,?_,?_,?_,?_⟩,?_⟩
  · intro e' he'
    rcases List.mem_append.mp he' with h | h
    · exact hes e' h
    · exact List.mem_singleton.mp h ▸ he
  · exact chained_snoc (ho ▸ hchain) rfl
  · simp [reachedThrough, hpath]
  · simp [reachedThrough, hkeys]
  · simp [reachedThrough, hkinds]
  · simp [reachedThrough, hlen, hd]
  · refine shortest_of_fresh hcovered hfresh ⟨n.key,hd ▸ hn.shortest.1,e,he,ho,rfl⟩

theorem within_reach {depth : ℕ} {frontier : List String} {start w : Walk}
    (h : Within g direction root depth frontier start w) {n : ReachedNode}
    (hn : Genuine g direction root n) (hd : n.depth = depth) (hfresh : n.key ∉ knownKeys w) :
    Within g direction root depth frontier start (w.reach n) := by
  refine ⟨⟨?_,?_,?_,h.sound.edges_sub⟩,?_,h.edges,h.start_edges⟩
  · intro m hm
    rcases List.mem_append.mp hm with hold | hnew
    · exact h.sound.genuine m hold
    · exact List.mem_singleton.mp hnew ▸ hn
  · simp [Walk.reach, h.sound.paths_eq]
  · have hkeys : knownKeys (w.reach n) = knownKeys w ++ [n.key] := by simp [knownKeys, Walk.reach]
    rw [hkeys, List.nodup_append]
    refine ⟨h.sound.keys_nodup,List.nodup_singleton _,?_⟩
    intro a ha b hb
    rw [List.mem_singleton.mp hb]
    exact fun he => hfresh (he ▸ ha)
  · obtain ⟨new,hpaths,hnext,hdepth⟩ := h.fresh
    refine ⟨new++[n],by simp [Walk.reach, hpaths],by simp [Walk.reach, hnext],?_⟩
    intro m hm
    rcases List.mem_append.mp hm with hold | hnew
    · exact hdepth m hold
    · exact List.mem_singleton.mp hnew ▸ hd

theorem Within.known_of_start {depth : ℕ} {frontier : List String} {start w : Walk}
    (h : Within g direction root depth frontier start w) {key : String}
    (hk : key ∈ knownKeys start) : key ∈ knownKeys w := by
  obtain ⟨new,hpaths,-⟩ := h.fresh
  rw [knownKeys, hpaths, List.map_append]
  exact List.mem_append_left _ hk

variable (limits : TraversalLimits)

/-- One edge out of the frontier. Unless it hits a limit, it is dealt with. -/
theorem takeEdge_spec {depth : ℕ} {frontier : List String} {start w : Walk} {key : String}
    {e : GraphEdge} (hf : Frontier g direction root depth frontier start)
    (hw : Within g direction root (depth+1) frontier start w) (hk : key ∈ frontier)
    (he : e ∈ g.edges) (ho : e.origin direction = key) :
    Within g direction root (depth+1) frontier start
        (takeEdge direction limits (depth+1) key w e) ∧
      Grows w (takeEdge direction limits (depth+1) key w e) ∧
      ((takeEdge direction limits (depth+1) key w e).truncation = [] →
        Processed direction (takeEdge direction limits (depth+1) key w e) e) := by
  have hrec : Within g direction root (depth+1) frontier start (w.record e) :=
    within_record hw he (ho ▸ hk)
  have hkeys : knownKeys (w.record e) = knownKeys w := by rw [knownKeys, (record_paths w e).1]; rfl
  have hgrow : Grows w (w.record e) :=
    ⟨fun k hk => hkeys ▸ hk,fun e' he' => (record_edges hw.sound he e').mpr (.inl he')⟩
  have hseen : e ∈ (w.record e).edgesSeen := (record_edges hw.sound he e).mpr (.inr rfl)
  unfold takeEdge
  split
  · exact ⟨within_truncate hw _,⟨fun _ h => h,fun _ h => h⟩,fun h => absurd h (truncate_ne w _)⟩
  · simp only []
    split
    · next hknown => exact ⟨hrec,hgrow,fun _ => ⟨hseen,known_iff.mp hknown⟩⟩
    · next hfresh =>
      split
      · exact ⟨within_truncate hrec _,⟨hgrow.keys,hgrow.edges⟩,fun h => absurd h (truncate_ne _ _)⟩
      · obtain ⟨n,hnode,hgenuine,hdepth,hkey⟩ := hf.node hrec hk
        have hnew : e.endpoint direction ∉ knownKeys (w.record e) := fun h => hfresh (known_iff.mpr h)
        rw [hnode]
        refine ⟨within_reach hrec ?_ rfl hnew,?_,fun _ => ⟨hseen,?_⟩⟩
        · exact reached_genuine hgenuine hdepth he (ho.trans hkey.symm) hf.covered
            fun h => hnew (hrec.known_of_start h)
        · refine hgrow.trans ⟨fun k hk => ?_,fun _ h => h⟩
          simp only [knownKeys, Walk.reach, List.map_append, List.mem_append]
          exact .inl hk
        · simp [knownKeys, Walk.reach, reachedThrough]

theorem takeEdges_spec {depth : ℕ} {frontier : List String} {start : Walk} {key : String}
    (hf : Frontier g direction root depth frontier start) (hk : key ∈ frontier)
    {edges : List GraphEdge} (hedges : ∀ e ∈ edges, e ∈ g.edges ∧ e.origin direction = key)
    {w : Walk} (hw : Within g direction root (depth+1) frontier start w) :
    ∃ w', takeEdges direction limits (depth+1) key edges w = .ok w' ∧
      Within g direction root (depth+1) frontier start w' ∧ Grows w w' ∧
      (w'.truncation = [] → ∀ e ∈ edges, Processed direction w' e) := by
  induction edges generalizing w with
  | nil => exact ⟨w,rfl,hw,.rfl',fun _ e he => by cases he⟩
  | cons e es ih =>
    obtain ⟨he,ho⟩ := hedges e List.mem_cons_self
    have hcheck : checkOrigin e key direction = .ok () := by simp [checkOrigin, ho]
    obtain ⟨hw1,hg1,hp1⟩ := takeEdge_spec limits hf hw hk he ho
    simp only [takeEdges, hcheck, bind, Except.bind]
    split
    · next hcut => exact ⟨_,rfl,hw1,hg1,fun h => absurd h hcut⟩
    · next hgo =>
      obtain ⟨w',hok,hw',hg',hp'⟩ := ih (fun e' he' => hedges e' (List.mem_cons_of_mem _ he')) hw1
      refine ⟨w',hok,hw',hg1.trans hg',fun h e' he' => ?_⟩
      rcases List.mem_cons.mp he' with rfl | hin
      · exact (hp1 (not_not.mp hgo)).grows hg'
      · exact hp' h e' hin

/-- One level: unless it hits a limit, every edge out of it is dealt with. -/
theorem takeLevel_spec {depth : ℕ} {frontier : List String} {start : Walk}
    (hf : Frontier g direction root depth frontier start) {neighbors : String → List GraphEdge}
    (hn : ∀ key ∈ frontier, ∀ e, e ∈ neighbors key ↔ e ∈ g.edges ∧ e.origin direction = key)
    {keys : List String} (hkeys : ∀ k ∈ keys, k ∈ frontier) {w : Walk}
    (hw : Within g direction root (depth+1) frontier start w) :
    ∃ w', takeLevel direction limits (depth+1) neighbors keys w = .ok w' ∧
      Within g direction root (depth+1) frontier start w' ∧ Grows w w' ∧
      (w'.truncation = [] → ∀ e ∈ g.edges, e.origin direction ∈ keys → Processed direction w' e) := by
  induction keys generalizing w with
  | nil => exact ⟨w,rfl,hw,.rfl',fun _ e _ he => by cases he⟩
  | cons key rest ih =>
    have hk := hkeys key List.mem_cons_self
    obtain ⟨w1,hok1,hw1,hg1,hp1⟩ := takeEdges_spec limits hf hk
      (fun e he => (hn key hk e).mp he) hw
    simp only [takeLevel, hok1, bind, Except.bind]
    split
    · next hcut => exact ⟨_,rfl,hw1,hg1,fun h => absurd h hcut⟩
    · next hgo =>
      obtain ⟨w',hok,hw',hg',hp'⟩ := ih (fun k hk => hkeys k (List.mem_cons_of_mem _ hk)) hw1
      refine ⟨w',hok,hw',hg1.trans hg',fun h e he ho => ?_⟩
      rcases List.mem_cons.mp ho with heq | hin
      · exact (hp1 (not_not.mp hgo) e ((hn key hk e).mpr ⟨he,heq⟩)).grows hg'
      · exact hp' h e he hin

theorem Frontier.node_shorter {depth : ℕ} {frontier : List String} {w : Walk}
    (hf : Frontier g direction root depth frontier w) {k : String} (hk : k ∈ knownKeys w) :
    ∃ n ∈ w.paths, n.key = k ∧ (k ∈ frontier ∨ n.depth < depth) := by
  obtain ⟨n,hn,rfl⟩ := List.mem_map.mp hk
  refine ⟨n,hn,rfl,?_⟩
  rcases Nat.lt_or_eq_of_le (hf.depth_le n hn) with hlt | heq
  · exact .inr hlt
  · exact .inl ((hf.frontier_iff n.key).mpr ⟨n,hn,rfl,heq⟩)

/-- An edge out of a known node above the frontier leads to a known node. -/
theorem Frontier.known_next {depth : ℕ} {frontier : List String} {w : Walk}
    (hf : Frontier g direction root depth frontier w) {n : ReachedNode} (hn : n ∈ w.paths)
    (hd : n.depth < depth) {v : String} (hv : Hop g.edges direction n.key v) :
    v ∈ knownKeys w :=
  hf.covered (n.depth+1) hd v ⟨n.key,(hf.sound.genuine n hn).shortest.1,hv⟩

/-- A level that dealt with every edge out of its frontier. -/
theorem Frontier.advance {depth : ℕ} {frontier frontier' : List String} {start w : Walk}
    (hf : Frontier g direction root depth frontier start)
    (hw : Within g direction root (depth+1) frontier start w)
    (hp : ∀ e ∈ g.edges, e.origin direction ∈ frontier → Processed direction w e)
    (hnext : ∀ k, k ∈ frontier' ↔ ∃ n ∈ w.paths, n.key = k ∧ n.depth = depth+1) :
    Frontier g direction root (depth+1) frontier' w := by
  obtain ⟨new,hpaths,-,hnew⟩ := hw.fresh
  have hold : ∀ n ∈ w.paths, n.depth < depth+1 → n ∈ start.paths := by
    intro n hn hd
    rw [hpaths] at hn
    rcases List.mem_append.mp hn with h | h
    · exact h
    · have := hnew n h
      omega
  refine ⟨hw.sound,?_,?_,hnext,?_⟩
  · refine (hf.covered.mono fun y hy => hw.known_of_start hy).succ fun u hu v hv => ?_
    obtain ⟨n,hn,rfl,hfrontier | hd⟩ := hf.node_shorter (hf.covered depth le_rfl u hu)
    · obtain ⟨e,he,ho,rfl⟩ := hv
      exact (hp e he (ho ▸ hfrontier)).2
    · exact hw.known_of_start (hf.known_next hn hd hv)
  · intro n hn
    rw [hpaths] at hn
    rcases List.mem_append.mp hn with h | h
    · exact Nat.le_succ_of_le (hf.depth_le n h)
    · exact (hnew n h).le
  · intro e
    constructor
    · intro he
      refine ⟨hw.sound.edges_sub e he,?_⟩
      rcases hw.edges e he with hs | ho
      · obtain ⟨-,n,hn,hk,hd⟩ := (hf.edges_iff e).mp hs
        exact ⟨n,hpaths ▸ List.mem_append_left _ hn,hk,by omega⟩
      · obtain ⟨n,hn,hk,hd⟩ := (hf.frontier_iff _).mp ho
        exact ⟨n,hpaths ▸ List.mem_append_left _ hn,hk,by omega⟩
    · rintro ⟨he,n,hn,hk,hd⟩
      have hs := hold n hn hd
      rcases Nat.lt_or_eq_of_le (Nat.lt_succ_iff.mp hd) with hlt | heq
      · exact hw.start_edges e ((hf.edges_iff e).mpr ⟨he,n,hs,hk,hlt⟩)
      · exact (hp e he ((hf.frontier_iff _).mpr ⟨n,hs,hk,heq⟩)).1

theorem Frontier.reset {depth : ℕ} {frontier : List String} {w : Walk}
    (hf : Frontier g direction root depth frontier w) :
    Frontier g direction root depth frontier { w with nextFrontier := [] } :=
  ⟨⟨hf.sound.genuine,hf.sound.paths_eq,hf.sound.keys_nodup,hf.sound.edges_sub⟩,hf.covered,
    hf.depth_le,hf.frontier_iff,hf.edges_iff⟩

/-- All the levels: sound under any limit, a whole frontier when none was hit. -/
theorem takeLevels_spec {provider : AdjacencyProvider} (hp : Provides provider g direction)
    {left depth : ℕ} (hleft : depth+left = limits.maxDepth) {frontier : List String} {w : Walk}
    (hs : Sound g direction root w)
    (hf : w.truncation = [] → Frontier g direction root depth frontier w) :
    ∃ frontier' w', takeLevels direction limits provider left frontier w = .ok (frontier',w') ∧
      Sound g direction root w' ∧
      (w'.truncation = [] → ∃ depth', Frontier g direction root depth' frontier' w') := by
  induction left generalizing depth frontier w with
  | zero => exact ⟨frontier,w,rfl,hs,fun h => ⟨depth,hf h⟩⟩
  | succ left ih =>
    unfold takeLevels
    split
    · exact ⟨frontier,w,rfl,hs,fun h => ⟨depth,hf h⟩⟩
    · next hgo =>
      obtain ⟨-,hopen⟩ := not_or.mp hgo
      have hfrontier := (hf (not_not.mp hopen)).reset
      have hdepth : limits.maxDepth-left = depth+1 := by omega
      obtain ⟨w1,hok1,hw1,-,hp1⟩ := takeLevel_spec limits hfrontier
        (fun key hk e => hp frontier key hk e) (fun k hk => hk) (within_start hfrontier.sound)
      rw [hdepth, hok1]
      refine ih (by omega : depth+1+left = _) hw1.sound fun h => ?_
      refine hfrontier.advance hw1 (hp1 h) fun k => ?_
      obtain ⟨new,hpaths,hnext,hnew⟩ := hw1.fresh
      rw [hnext, hpaths, List.nil_append, List.mem_map]
      constructor
      · rintro ⟨n,hn,rfl⟩
        exact ⟨n,List.mem_append_right _ hn,rfl,hnew n hn⟩
      · rintro ⟨n,hn,rfl,hd⟩
        rcases List.mem_append.mp hn with h | h
        · have := hfrontier.depth_le n h
          omega
        · exact ⟨n,h,rfl⟩

/-- The walk so far in a probe: the paths stand, the edges grow. -/
structure Probed (g : MembershipGraph) (direction : Direction) (root : String) (depth : ℕ)
    (frontier : List String) (start w : Walk) : Prop where
  within : Within g direction root depth frontier start w
  paths_eq : w.paths = start.paths

theorem probeEdge_spec {depth : ℕ} {frontier : List String} {start w : Walk} {e : GraphEdge}
    (h : Probed g direction root depth frontier start w) (he : e ∈ g.edges)
    (ho : e.origin direction ∈ frontier) :
    Probed g direction root depth frontier start (probeEdge direction limits w e) ∧
      Grows w (probeEdge direction limits w e) ∧
      ((probeEdge direction limits w e).truncation = [] →
        w.truncation = [] ∧ Processed direction (probeEdge direction limits w e) e) := by
  have cut : ∀ {v : Walk} {reason}, Probed g direction root depth frontier start v →
      Probed g direction root depth frontier start (v.truncate reason) :=
    fun hv => ⟨within_truncate hv.within _,hv.paths_eq⟩
  have hrec : Probed g direction root depth frontier start (w.record e) :=
    ⟨within_record h.within he ho,(record_paths w e).1.trans h.paths_eq⟩
  have hkeys : knownKeys (w.record e) = knownKeys w := by rw [knownKeys, (record_paths w e).1]; rfl
  have hgrow : Grows w (w.record e) :=
    ⟨fun k hk => hkeys ▸ hk,fun e' he' => (record_edges h.within.sound he e').mpr (.inl he')⟩
  have hseen : e ∈ (w.record e).edgesSeen :=
    (record_edges h.within.sound he e).mpr (.inr rfl)
  by_cases hfull : w.seen e.edgeKey = false ∧ limits.maxEdges ≤ w.edgesSeen.length
  · obtain ⟨hnew,hlen⟩ := hfull
    simp only [probeEdge, hnew, hlen, Bool.false_eq_true, ↓reduceIte]
    split
    · exact ⟨cut h,⟨fun _ h => h,fun _ h => h⟩,fun ht => absurd ht (truncate_ne w _)⟩
    · exact ⟨cut (cut h),⟨fun _ h => h,fun _ h => h⟩,fun ht => absurd ht (truncate_ne _ _)⟩
  · have heq : (if w.seen e.edgeKey then w
        else if limits.maxEdges ≤ w.edgesSeen.length then w.truncate .maxEdges
        else { w with edgesSeen := w.edgesSeen ++ [e] }) = w.record e := by
      unfold Walk.record
      by_cases hs : w.seen e.edgeKey
      · simp only [hs, ↓reduceIte]
      · have hlen : ¬ limits.maxEdges ≤ w.edgesSeen.length :=
          fun hl => hfull ⟨Bool.eq_false_iff.mpr hs,hl⟩
        simp only [hs, hlen, Bool.false_eq_true, ↓reduceIte]
    simp only [probeEdge, heq]
    split
    · next hknown =>
      refine ⟨hrec,hgrow,fun ht => ⟨?_,hseen,known_iff.mp hknown⟩⟩
      exact (record_paths w e).2.2.2 ▸ ht
    · exact ⟨cut hrec,⟨hgrow.keys,hgrow.edges⟩,fun ht => absurd ht (truncate_ne _ _)⟩

theorem probeEdges_spec {depth : ℕ} {frontier : List String} {start : Walk} {key : String}
    (hk : key ∈ frontier) {edges : List GraphEdge}
    (hedges : ∀ e ∈ edges, e ∈ g.edges ∧ e.origin direction = key) {w : Walk}
    (h : Probed g direction root depth frontier start w) :
    ∃ w', edges.foldlM (fun w edge => do
        checkOrigin edge key direction
        return probeEdge direction limits w edge) w = Except.ok w' ∧
      Probed g direction root depth frontier start w' ∧ Grows w w' ∧
      (w'.truncation = [] → w.truncation = [] ∧ ∀ e ∈ edges, Processed direction w' e) := by
  induction edges generalizing w with
  | nil => exact ⟨w,rfl,h,.rfl',fun ht => ⟨ht,fun e he => by cases he⟩⟩
  | cons e es ih =>
    obtain ⟨he,ho⟩ := hedges e List.mem_cons_self
    have hcheck : checkOrigin e key direction = .ok () := by simp [checkOrigin, ho]
    obtain ⟨h1,hg1,hp1⟩ := probeEdge_spec limits h he (ho ▸ hk)
    obtain ⟨w',hok,h',hg',hp'⟩ := ih (fun e' he' => hedges e' (List.mem_cons_of_mem _ he')) h1
    refine ⟨w',?_,h',hg1.trans hg',fun ht => ?_⟩
    · rw [List.foldlM_cons, hcheck]
      exact hok
    · obtain ⟨ht1,hrest⟩ := hp' ht
      obtain ⟨ht0,hpe⟩ := hp1 ht1
      refine ⟨ht0,fun e' he' => ?_⟩
      rcases List.mem_cons.mp he' with rfl | hin
      · exact hpe.grows hg'
      · exact hrest e' hin

theorem probeBoundary_spec {depth : ℕ} {frontier keys : List String} {start : Walk}
    {neighbors : String → List GraphEdge}
    (hn : ∀ key ∈ frontier, ∀ e, e ∈ neighbors key ↔ e ∈ g.edges ∧ e.origin direction = key)
    (hkeys : ∀ k ∈ keys, k ∈ frontier) {w : Walk}
    (h : Probed g direction root depth frontier start w) :
    ∃ w', probeBoundary direction limits neighbors keys w = .ok w' ∧
      Probed g direction root depth frontier start w' ∧ Grows w w' ∧
      (w'.truncation = [] → w.truncation = [] ∧
        ∀ e ∈ g.edges, e.origin direction ∈ keys → Processed direction w' e) := by
  induction keys generalizing w with
  | nil => exact ⟨w,rfl,h,.rfl',fun ht => ⟨ht,fun e _ he => by cases he⟩⟩
  | cons key rest ih =>
    have hk := hkeys key List.mem_cons_self
    obtain ⟨w1,hok1,h1,hg1,hp1⟩ := probeEdges_spec limits hk (fun e he => (hn key hk e).mp he) h
    obtain ⟨w',hok,h',hg',hp'⟩ := ih (fun k hk => hkeys k (List.mem_cons_of_mem _ hk)) h1
    refine ⟨w',?_,h',hg1.trans hg',fun ht => ?_⟩
    · unfold probeBoundary
      rw [List.foldlM_cons, hok1]
      exact hok
    · obtain ⟨ht1,hrest⟩ := hp' ht
      obtain ⟨ht0,hpk⟩ := hp1 ht1
      refine ⟨ht0,fun e he ho => ?_⟩
      rcases List.mem_cons.mp ho with heq | hin
      · exact (hpk e ((hn key hk e).mpr ⟨he,heq⟩)).grows hg'
      · exact hrest e he hin

variable (g direction root) in
theorem frontier_root :
    Frontier g direction root 0 [root] { paths := [rootNode root] } := by
  have hroot : Genuine g direction root (rootNode root) :=
    ⟨⟨[],by simp,rfl,rfl,rfl,rfl,rfl⟩,⟨rfl,fun m _ => Nat.zero_le m⟩⟩
  refine ⟨⟨?_,rfl,by simp [knownKeys],by simp⟩,?_,?_,?_,?_⟩
  · intro n hn
    exact List.mem_singleton.mp hn ▸ hroot
  · exact covered_zero (by simp [knownKeys, rootNode])
  · intro n hn
    exact (List.mem_singleton.mp hn ▸ le_rfl : n.depth ≤ 0)
  · intro k
    simp [rootNode, eq_comm]
  · intro e
    simp [rootNode]

/-- With no frontier left, the known keys are the reachable ones. -/
theorem Frontier.known_iff_reaches {depth : ℕ} {w : Walk}
    (hf : Frontier g direction root depth [] w) (k : String) :
    k ∈ knownKeys w ↔ Relation.ReflTransGen (Hop g.edges direction) root k := by
  constructor
  · intro hk
    obtain ⟨n,hn,rfl⟩ := List.mem_map.mp hk
    exact (hf.sound.genuine n hn).shortest.1.reaches
  · intro h
    refine closed_reaches (P := (· ∈ knownKeys w)) ?_ ?_ h
    · exact hf.covered 0 (Nat.zero_le depth) root rfl
    · intro u hu v hv
      obtain ⟨n,hn,rfl,hin | hd⟩ := hf.node_shorter hu
      · cases hin
      · exact hf.known_next hn hd hv

theorem Frontier.edges_iff_reaches {depth : ℕ} {w : Walk}
    (hf : Frontier g direction root depth [] w) (e : GraphEdge) :
    e ∈ w.edgesSeen ↔
      e ∈ g.edges ∧ Relation.ReflTransGen (Hop g.edges direction) root (e.origin direction) := by
  rw [hf.edges_iff, ← hf.known_iff_reaches]
  refine and_congr_right fun _ => ⟨?_,fun hk => ?_⟩
  · rintro ⟨n,hn,hk,-⟩
    exact hk ▸ List.mem_map_of_mem hn
  · obtain ⟨n,hn,hk,hin | hd⟩ := hf.node_shorter hk
    · cases hin
    · exact ⟨n,hn,hk,hd⟩

end Walks

/-- Reachable from the root. -/
def Reachable (g : MembershipGraph) (direction : Direction) (root key : String) : Prop :=
  Relation.ReflTransGen (Hop g.edges direction) root key

/-- What a complete expansion reports. -/
structure Exact (g : MembershipGraph) (direction : Direction) (exp : Expansion) : Prop where
  nodes_iff : ∀ k, k ∈ exp.nodes.map (·.key) ↔ Reachable g direction exp.root k ∧ k ≠ exp.root
  edges_iff : ∀ e, e ∈ exp.edges ↔
    e ∈ g.edges ∧ Reachable g direction exp.root (e.origin direction)
  cycles_sound : ∀ c ∈ exp.cycles, c.members.Nodup ∧ 2 ≤ c.members.length ∧
    ∀ x ∈ c.members, Reachable g direction exp.root x ∧
      ∀ y, y ∈ c.members ↔ Reachable g direction x y ∧ Reachable g direction y x
  cycles_complete : ∀ x y, x ≠ y → Reachable g direction exp.root x →
    Reachable g direction x y → Reachable g direction y x →
      ∃ c ∈ exp.cycles, x ∈ c.members ∧ y ∈ c.members
  cycles_apart : exp.cycles.Pairwise fun c d => c.members.Disjoint d.members

section Cycles
variable {g : MembershipGraph} {direction : Direction} {root : String} {depth : ℕ} {w : Walk}

/-- The adjacency the cycle search of a walk runs over. -/
def walked (direction : Direction) (w : Walk) : String → List String :=
  searched w.edgesSeen direction (some (knownKeys w))

theorem mem_walked (hf : Frontier g direction root depth [] w) {x y : String} :
    y ∈ walked direction w x ↔ Reachable g direction root x ∧ Hop g.edges direction x y := by
  have hclosed (e : GraphEdge) : e ∈ keptEdges w.edgesSeen direction (some (knownKeys w)) ↔
      e ∈ g.edges ∧ Reachable g direction root (e.origin direction) := by
    simp only [keptEdges, List.mem_filter, Bool.and_eq_true, decide_eq_true_eq,
      hf.edges_iff_reaches, hf.known_iff_reaches, Reachable]
    refine ⟨fun h => h.1,fun h => ⟨h,h.2,h.2.tail ⟨e,h.1,rfl,rfl⟩⟩⟩
  unfold walked searched
  rw [mem_adjacency]
  constructor
  · rintro ⟨e,he,rfl,hy⟩
    obtain ⟨he,hreach⟩ := (hclosed e).mp he
    exact ⟨hreach,e,he,rfl,hy⟩
  · rintro ⟨hreach,e,he,rfl,hy⟩
    exact ⟨e,(hclosed e).mpr ⟨he,hreach⟩,rfl,hy⟩

theorem reach_walked (hf : Frontier g direction root depth [] w) {x y : String}
    (hx : Reachable g direction root x) :
    Reach (walked direction w) x y ↔ Reachable g direction x y := by
  constructor
  · intro h
    exact Relation.ReflTransGen.mono (fun a b hb => ((mem_walked hf).mp hb).2) _ _ h
  · intro h
    induction h with
    | refl => exact .refl
    | tail hb hop ih => exact ih.tail ((mem_walked hf).mpr ⟨hx.trans hb,hop⟩)

theorem reachable_of_component (hf : Frontier g direction root depth [] w) {C : List String}
    (hC : IsComponent (walked direction w) C) (hnodup : C.Nodup) (hlen : 2 ≤ C.length)
    {x : String} (hx : x ∈ C) : Reachable g direction root x := by
  obtain ⟨y,hy,hne⟩ : ∃ y ∈ C, y ≠ x := by
    by_contra hnone
    have hall : ∀ y ∈ C, y = x := fun y hy => by
      by_contra hne
      exact hnone ⟨y,hy,hne⟩
    have hone : C.toFinset ⊆ {x} := fun y hy =>
      Finset.mem_singleton.mpr (hall y (List.mem_toFinset.mp hy))
    have hcard := Finset.card_le_card hone
    rw [List.toFinset_card_of_nodup hnodup, Finset.card_singleton] at hcard
    omega
  rcases (((hC.2 x hx y).mp hy).1).cases_head with rfl | ⟨z,hz,-⟩
  · exact absurd rfl hne
  · exact ((mem_walked hf).mp hz).1

end Cycles

theorem mem_sortReasons (reasons : List TruncationReason) :
    sortReasons reasons = [] ↔ reasons = [] := by
  unfold sortReasons
  rw [← List.length_eq_zero_iff, ← List.length_eq_zero_iff, List.length_insertionSort]

/-- Every run of an expansion ends, with a sound walk behind it. -/
theorem expand_walk {g : MembershipGraph} {direction : Direction} {root : String}
    {provider : AdjacencyProvider} (hroot : root ≠ "") (hp : Provides provider g direction)
    (limits : TraversalLimits) :
    ∃ w exp, expand root direction provider limits = .ok exp ∧ Sound g direction root w ∧
      (w.truncation = [] → ∃ depth, Frontier g direction root depth [] w) ∧
      exp.root = root ∧ exp.nodes = w.visited.insertionSort nodeOrder ∧
      exp.edges = w.edgesSeen.insertionSort (fun a b => a.edgeKey ≤ b.edgeKey) ∧
      exp.cycles = findCycles w.edgesSeen direction (some (knownKeys w)) ∧
      (exp.truncation = [] ↔ w.truncation = []) := by
  obtain ⟨frontier,w,hok,hs,hf⟩ := takeLevels_spec limits hp (Nat.zero_add limits.maxDepth)
    (frontier_root g direction root).sound (fun _ => frontier_root g direction root)
  unfold expand
  rw [if_neg hroot]
  simp only [hok, bind, Except.bind, pure, Except.pure]
  split
  · next hprobe =>
    obtain ⟨depth,hfrontier⟩ := hf hprobe.2
    obtain ⟨w',hok',h',-,hp'⟩ := probeBoundary_spec limits
      (fun key hk e => hp frontier key hk e) (fun k hk => hk)
      (⟨within_start hfrontier.sound,rfl⟩ : Probed g direction root (depth+1) frontier w w)
    rw [hok']
    refine ⟨w',_,rfl,h'.within.sound,fun ht => ⟨depth+1,?_⟩,rfl,rfl,rfl,rfl,mem_sortReasons _⟩
    refine hfrontier.advance h'.within (hp' ht).2 fun k => ⟨fun hk => absurd hk List.not_mem_nil,?_⟩
    rintro ⟨n,hn,-,hd⟩
    rw [h'.paths_eq] at hn
    have := hfrontier.depth_le n hn
    omega
  · next hdone =>
    refine ⟨w,_,rfl,hs,fun ht => ?_,rfl,rfl,rfl,rfl,mem_sortReasons _⟩
    obtain ⟨depth,hfrontier⟩ := hf ht
    have hempty : frontier = [] := by
      by_contra hne
      exact hdone ⟨hne,ht⟩
    exact ⟨depth,hempty ▸ hfrontier⟩

/-- An expansion is sound under every limit, and exact when it is not truncated. -/
theorem expand_sound_and_exact (g : MembershipGraph) (direction : Direction) (root : String)
    (provider : AdjacencyProvider) (limits : TraversalLimits) (hroot : root ≠ "")
    (hp : Provides provider g direction) :
    ∃ exp, expand root direction provider limits = .ok exp ∧ exp.root = root ∧
      (exp.nodes.map (·.key)).Nodup ∧
      (∀ n ∈ exp.nodes, n.key ≠ root ∧ Reachable g direction root n.key ∧
        Genuine g direction root n) ∧
      (exp.truncation = [] → Exact g direction exp) := by
  obtain ⟨w,exp,hok,hs,hf,rfl,hnodes,hedges,hcycles,htrunc⟩ :=
    expand_walk hroot hp limits
  have hmem (n : ReachedNode) : n ∈ exp.nodes ↔ n ∈ w.visited := by
    rw [hnodes, List.mem_insertionSort]
  have hkeys : knownKeys w = exp.root :: w.visited.map (·.key) := by
    rw [knownKeys, hs.paths_eq]; rfl
  have hnodup := hs.keys_nodup
  rw [hkeys, List.nodup_cons] at hnodup
  refine ⟨exp,hok,rfl,?_,fun n hn => ?_,fun ht => ?_⟩
  · rw [hnodes]
    exact (((List.perm_insertionSort _ w.visited).map _).nodup_iff).mpr hnodup.2
  · have hv := (hmem n).mp hn
    have hgenuine := hs.genuine n (by rw [hs.paths_eq]; exact List.mem_cons_of_mem _ hv)
    refine ⟨fun he => hnodup.1 (he ▸ List.mem_map_of_mem hv),hgenuine.shortest.1.reaches,hgenuine⟩
  · obtain ⟨depth,hfrontier⟩ := hf (htrunc.mp ht)
    refine ⟨fun k => ?_,fun e => ?_,fun c hc => ?_,fun x y hne hx hxy hyx => ?_,?_⟩
    · have hk : k ∈ exp.nodes.map (·.key) ↔ k ∈ w.visited.map (·.key) := by
        simp only [List.mem_map, hmem]
      rw [hk, Reachable, ← hfrontier.known_iff_reaches, hkeys, List.mem_cons]
      constructor
      · intro h
        exact ⟨.inr h,fun he => hnodup.1 (he ▸ h)⟩
      · rintro ⟨rfl | h,hne⟩
        · exact absurd rfl hne
        · exact h
    · rw [hedges, List.mem_insertionSort]
      exact hfrontier.edges_iff_reaches e
    · rw [hcycles] at hc
      obtain ⟨hcomponent,hcn,hlen⟩ := findCycles_sound _ _ _ hc
      refine ⟨hcn,hlen,fun x hx => ?_⟩
      have hreach := reachable_of_component hfrontier hcomponent hcn hlen hx
      refine ⟨hreach,fun y => ?_⟩
      rw [hcomponent.2 x hx y]
      constructor
      · rintro ⟨hxy,hyx⟩
        have hry := (reach_walked hfrontier hreach).mp hxy
        exact ⟨hry,(reach_walked hfrontier (hreach.trans hry)).mp hyx⟩
      · rintro ⟨hxy,hyx⟩
        exact ⟨(reach_walked hfrontier hreach).mpr hxy,
          (reach_walked hfrontier (hreach.trans hxy)).mpr hyx⟩
    · rw [hcycles]
      exact findCycles_complete _ _ _ hne ⟨(reach_walked hfrontier hx).mpr hxy,
        (reach_walked hfrontier (hx.trans hxy)).mpr hyx⟩
    · rw [hcycles]
      exact findCycles_apart _ _ _

/-- Three groups in a ring, with one member outside it. -/
def ring : MembershipGraph where
  edges := [{ edgeKey := "1", groupKey := "a", memberKey := "b" },
    { edgeKey := "2", groupKey := "b", memberKey := "c" },
    { edgeKey := "3", groupKey := "c", memberKey := "a" },
    { edgeKey := "4", groupKey := "b", memberKey := "m" }]
  keys_unique := by decide

def ringProvider : AdjacencyProvider :=
  fun direction _ key => ring.edges.filter fun e => e.origin direction = key

theorem ring_expands :
    ∃ exp, expand "a" .down ringProvider {} = .ok exp ∧ exp.root = "a" ∧
      (exp.nodes.map (·.key)).Nodup ∧
      (∀ n ∈ exp.nodes, n.key ≠ "a" ∧ Reachable ring .down "a" n.key ∧
        Genuine ring .down "a" n) ∧
      (exp.truncation = [] → Exact ring .down exp) :=
  expand_sound_and_exact ring .down "a" ringProvider {} (by decide) fun _ key _ e => by
    simp [ringProvider]

example : (expand "a" .down ringProvider {}).map (fun exp =>
    (exp.nodes.map (·.key),exp.cycles.map (·.members),exp.truncation)) =
      .ok (["b","c","m"],[["a","b","c"]],[]) := by
  decide

end Adg.GraphExpansion
