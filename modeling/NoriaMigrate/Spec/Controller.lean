import NoriaMigrate.Spec.BuilderInvariant
import NoriaMigrate.Spec.CommitSteps

/-!
# Reachable controller states

The controller starts with the source node alone and changes only by migrations: builder calls
on a fresh `Migration`, then `commit`. The passes commit calls (`sharding::shard`,
`assignment::assign`, `routing::add`) live outside this source, so a migration is taken with
passes that keep their contracts, `Passes.Lawful`.

What commit reads of a node to place it is its `placement`: its domain, its address, whether it
was dropped, and whether it is a base, whose column changes commit sends out.

* `BuilderFrame`: builder calls append nodes, keep the placement of the nodes already there, add
  edges only into the nodes they append, and leave the controller's other fields.
* `runCalls_panics_only_on_misuse`: along the way, builder calls panic only where the caller
  misuses them, never at their internal unwraps and assertions.
* `routeMigration_spec`: after the passes, the new-node set is exactly the nodes created since
  the migration began, every one of them that is not dropped has a domain, the older nodes keep
  their placement, and no edge enters the source.
-/

namespace Noria

/-- What commit reads of a node to place it: its domain, its address, whether it is dropped,
    and whether it is a base. -/
def Node.placement (n : Node) : Option Nat × Option IndexPair × Bool × Bool :=
  (n.domain, n.index, n.isDropped, n.isBase)

theorem Node.isDropped_eq_false_of_isBase {n : Node} (h : n.isBase = true) :
    n.isDropped = false := by
  unfold Node.isBase at h; unfold Node.isDropped
  split at h <;> simp_all

theorem Node.isDropped_eq_false_of_isReader {n : Node} (h : n.isReader = true) :
    n.isDropped = false := by
  unfold Node.isReader at h; unfold Node.isDropped
  split at h <;> simp_all

theorem Node.isBase_eq_false_of_isReader {n : Node} (h : n.isReader = true) :
    n.isBase = false := by
  unfold Node.isReader at h; unfold Node.isBase
  split at h <;> simp_all

/-- Replacing a node by one with its placement keeps every node's placement. -/
theorem Graph.placement_modifyNode {g : Graph} {ni : Nat} {old nd : Node}
    (hold : g.node? ni = some old) (hp : nd.placement = old.placement) (x : Nat) :
    ((g.modifyNode ni fun _ => nd).node? x).map Node.placement =
      (g.node? x).map Node.placement := by
  rw [Graph.node?_modifyNode]
  split
  · subst x; simp [hold, hp]
  · rfl

/-! ## The passes' contracts -/

/-- The contracts of the passes that live outside this source: sharding and routing
    put into the new-node set exactly the nodes they create, and assignment gives every new
    node that is not dropped a domain. With them the frame each pass keeps: sharding and
    routing leave the placement of the nodes they were not handed as new, routing gives the
    nodes it creates (ingress and egress nodes) a domain, no pass adds an edge into the source,
    and assignment changes nothing but the domains of the new nodes. -/
structure Passes.Lawful (p : Passes) : Prop where
  shard_grows : ∀ g source new shards,
    g.nodeCount ≤ (p.shard g source new shards).1.nodeCount
  shard_new : ∀ g source new shards ni, ni ∈ (p.shard g source new shards).2.1.elems ↔
    ni ∈ new.elems ∨ g.nodeCount ≤ ni ∧ ni < (p.shard g source new shards).1.nodeCount
  shard_keeps : ∀ g source new shards ni, ni < g.nodeCount → ni ∉ new.elems →
    ((p.shard g source new shards).1.node? ni).map Node.placement =
      (g.node? ni).map Node.placement
  shard_edges : ∀ g source new shards e, e ∈ (p.shard g source new shards).1.edges →
    e.2 = source → e ∈ g.edges
  assign : ∀ m new, ∃ g, p.assign m new = { m with ingredients := g } ∧
    g.nodeCount = m.ingredients.nodeCount ∧ g.edges = m.ingredients.edges ∧
    (∀ ni, ni ∉ new.elems →
      (g.node? ni).map Node.placement = (m.ingredients.node? ni).map Node.placement) ∧
    ∀ ni ∈ new.elems, ∀ n, g.node? ni = some n → n.isDropped = false → n.domain.isSome
  route_grows : ∀ g source new, g.nodeCount ≤ (p.route g source new).1.nodeCount
  route_new : ∀ g source new ni, ni ∈ (p.route g source new).2.1.elems ↔
    ni ∈ new.elems ∨ g.nodeCount ≤ ni ∧ ni < (p.route g source new).1.nodeCount
  route_keeps : ∀ g source new ni, ni < g.nodeCount →
    ((p.route g source new).1.node? ni).map Node.placement = (g.node? ni).map Node.placement
  route_places : ∀ g source new ni n, g.nodeCount ≤ ni → (p.route g source new).1.node? ni = some n →
    n.isDropped = false → n.domain.isSome
  route_edges : ∀ g source new e, e ∈ (p.route g source new).1.edges → e.2 = source →
    e ∈ g.edges

/-- Lines 472-490 over the nodes of `l`, with `f` for the address: each node of `l` changed
    once by an `f` that changes nothing the second time. -/
theorem Graph.node?_foldl_modifyNode {f : Node → Node} (hf : ∀ n, f (f n) = f n) :
    ∀ (l : List Nat) (g : Graph) (x : Nat),
      (l.foldl (fun g ni => g.modifyNode ni f) g).node? x =
        if x ∈ l then (g.node? x).map f else g.node? x
  | [], _, _ => by simp
  | a :: l, g, x => by
    rw [List.foldl_cons, Graph.node?_foldl_modifyNode hf l, Graph.node?_modifyNode]
    by_cases hx : x = a
    · subst hx
      simp [Option.map_map, Function.comp_def, hf]
    · simp [hx]

theorem Graph.foldl_modifyNode_frame (f : Node → Node) :
    ∀ (l : List Nat) (g : Graph),
      (l.foldl (fun g ni => g.modifyNode ni f) g).nodeCount = g.nodeCount ∧
      (l.foldl (fun g ni => g.modifyNode ni f) g).edges = g.edges
  | [], _ => ⟨rfl, rfl⟩
  | a :: l, g => by
    obtain ⟨hc, he⟩ := Graph.foldl_modifyNode_frame f l (g.modifyNode a f)
    exact ⟨hc.trans (Graph.nodeCount_modifyNode _ _ _), he⟩

/-- Passes that keep the contracts: no sharding or routing, and every new node put in domain
    `d`. -/
def Passes.single (d : Nat) : Passes where
  shard g _ new _ := (g, new, HashMap.empty)
  assign m new := { m with ingredients :=
    (new.elems.foldl (fun g ni => g.modifyNode ni fun n => { n with domain := some d }) m.ingredients) }
  route g _ new := (g, new, HashMap.empty)
  validate _ _ _ _ := true

/-- The contracts can be kept. -/
theorem Passes.single_lawful (d : Nat) : (Passes.single d).Lawful where
  shard_grows _ _ _ _ := le_refl _
  shard_new _ _ _ _ _ := ⟨Or.inl, fun h => h.resolve_right fun h => absurd h.2 (Nat.not_lt.2 h.1)⟩
  shard_keeps _ _ _ _ _ _ _ := rfl
  shard_edges _ _ _ _ _ he _ := he
  assign m new := ⟨_, rfl, (Graph.foldl_modifyNode_frame _ _ _).1,
    (Graph.foldl_modifyNode_frame _ _ _).2,
    fun ni hni => by rw [@Graph.node?_foldl_modifyNode (fun n => { n with domain := some d })
      (fun _ => rfl), if_neg hni],
    fun ni hni n hn _ => by
      rw [@Graph.node?_foldl_modifyNode (fun n => { n with domain := some d }) (fun _ => rfl),
        if_pos hni] at hn
      obtain ⟨_, -, rfl⟩ := Option.map_eq_some'.1 hn
      rfl⟩
  route_grows _ _ _ := le_refl _
  route_new _ _ _ _ := ⟨Or.inl, fun h => h.resolve_right fun h => absurd h.2 (Nat.not_lt.2 h.1)⟩
  route_keeps _ _ _ _ _ := rfl
  route_places g _ _ ni _ hle hn _ :=
    absurd (Graph.node?_isSome_iff.1 (by rw [show (g.node? ni) = _ from hn]; rfl)) (Nat.not_lt.2 hle)
  route_edges _ _ _ _ he _ := he

/-! ## Passes that route between domains -/

/-- The edge `u → v` replaced by `u → i → v`, through a new ingress `i` placed in domain `d`. -/
def Graph.spliceIngress (g : Graph) (u v d : Nat) (h : u < g.nodeCount ∧ v < g.nodeCount) :
    Graph :=
  ⟨g.nodes ++ [{ Node.new "ingress" [] .ingress with domain := some d }],
    (u, g.nodeCount) :: (g.nodeCount, v) :: g.edges.erase (u, v), fun e he => by
    unfold Graph.nodeCount at h
    simp only [List.length_append, List.length_singleton]
    rcases List.mem_cons.1 he with rfl | he
    · exact ⟨by omega, by unfold Graph.nodeCount; omega⟩
    rcases List.mem_cons.1 he with rfl | he
    · exact ⟨by unfold Graph.nodeCount; omega, by omega⟩
    · have := g.edges_lt e (List.mem_of_mem_erase he)
      omega⟩

/-- Routing at one edge `u → v` of the graph it was handed: when `v` is a new node other than
    the source and `u` and `v` are placed in different domains, the edge is spliced through a new
    ingress in `v`'s domain, which joins the new-node set and is recorded as `(v, u) ↦ i`. -/
def routeEdge (source : Nat) (st : Graph × HashSet Nat × SwapTable) (e : Nat × Nat) :
    Graph × HashSet Nat × SwapTable :=
  match (st.1.node? e.1).bind Node.domain, (st.1.node? e.2).bind Node.domain with
  | some du, some dv =>
    if h : e.1 < st.1.nodeCount ∧ e.2 < st.1.nodeCount then
      if du ≠ dv ∧ e.2 ∈ st.2.1.elems ∧ e.2 ≠ source ∧ st.1.nodeCount ≠ source then
        (st.1.spliceIngress e.1 e.2 dv h, st.2.1.insert st.1.nodeCount,
          st.2.2.insert (e.2, e.1) st.1.nodeCount)
      else st
    else st
  | _, _ => st

/-- Routing that splices every edge into a new node from another domain through an ingress in
    the new node's domain. -/
def routeAcross (g : Graph) (source : Nat) (new : HashSet Nat) : Graph × HashSet Nat × SwapTable :=
  g.edges.foldl (routeEdge source) (g, new, HashMap.empty)

/-- What `routeAcross` keeps of the graph `g` and the new-node set `new` it was handed: nodes
    are only appended, each with a domain; the new-node set gains exactly the appended nodes;
    every edge into the source was there before. -/
structure RouteFrame (g : Graph) (source : Nat) (new : HashSet Nat)
    (st : Graph × HashSet Nat × SwapTable) : Prop where
  nodes : ∃ extra, st.1.nodes = g.nodes ++ extra ∧ ∀ n ∈ extra, n.domain.isSome
  new_iff : ∀ ni, ni ∈ st.2.1.elems ↔ ni ∈ new.elems ∨ g.nodeCount ≤ ni ∧ ni < st.1.nodeCount
  source_edges : ∀ e ∈ st.1.edges, e.2 = source → e ∈ g.edges

namespace RouteFrame

variable {g : Graph} {source : Nat} {new : HashSet Nat}

theorem refl (g : Graph) (source : Nat) (new : HashSet Nat) :
    RouteFrame g source new (g, new, HashMap.empty) where
  nodes := ⟨[], (List.append_nil _).symm, by simp⟩
  new_iff _ := ⟨Or.inl, fun h => h.resolve_right fun h => absurd h.2 (Nat.not_lt.2 h.1)⟩
  source_edges _ he _ := he

theorem le_nodeCount {st : Graph × HashSet Nat × SwapTable} (hf : RouteFrame g source new st) :
    g.nodeCount ≤ st.1.nodeCount := by
  obtain ⟨extra, he, -⟩ := hf.nodes
  simp [Graph.nodeCount, he]

/-- One splice keeps the frame. -/
theorem routeEdge {st : Graph × HashSet Nat × SwapTable} (hf : RouteFrame g source new st)
    (e : Nat × Nat) : RouteFrame g source new (Noria.routeEdge source st e) := by
  unfold Noria.routeEdge
  split
  · rename_i du dv _ _
    split_ifs with h hc
    · obtain ⟨extra, hn, hd⟩ := hf.nodes
      have hle := hf.le_nodeCount
      refine ⟨⟨extra ++ [{ Node.new "ingress" [] .ingress with domain := some dv }],
        by simp [Graph.spliceIngress, hn], fun n hn' => ?_⟩, fun ni => ?_, fun e' he' hsrc => ?_⟩
      · rcases List.mem_append.1 hn' with hn' | hn'
        · exact hd n hn'
        · rw [List.mem_singleton.1 hn']; rfl
      · simp only [HashSet.mem_insert, hf.new_iff, Graph.spliceIngress, Graph.nodeCount,
          List.length_append, List.length_singleton]
        unfold Graph.nodeCount at hle
        by_cases hni : ni = st.1.nodes.length
        · simp only [hni, true_or, true_iff]
          exact Or.inr ⟨hle, Nat.lt_succ_self _⟩
        · have hlt : ni < st.1.nodes.length + 1 ↔ ni < st.1.nodes.length := by omega
          simp only [hni, false_or, hlt]
      · rcases List.mem_cons.1 he' with rfl | he'
        · exact absurd hsrc hc.2.2.2
        rcases List.mem_cons.1 he' with rfl | he'
        · exact absurd hsrc hc.2.2.1
        · exact hf.source_edges e' (List.mem_of_mem_erase he') hsrc
    all_goals exact hf
  · exact hf

theorem foldl : ∀ (l : List (Nat × Nat)) {st : Graph × HashSet Nat × SwapTable},
    RouteFrame g source new st → RouteFrame g source new (l.foldl (Noria.routeEdge source) st)
  | [], _, hf => hf
  | e :: l, _, hf => foldl l (hf.routeEdge e)

end RouteFrame

/-- Routing by `routeAcross` keeps the frame. -/
theorem routeAcross_frame (g : Graph) (source : Nat) (new : HashSet Nat) :
    RouteFrame g source new (routeAcross g source new) :=
  RouteFrame.foldl g.edges (RouteFrame.refl g source new)

/-- Every new node put in domain `d`, no sharding, and routing by `routeAcross`. -/
def Passes.routed (d : Nat) : Passes := { Passes.single d with route := routeAcross }

/-- These passes keep the contracts too. -/
theorem Passes.routed_lawful (d : Nat) : (Passes.routed d).Lawful where
  shard_grows := (Passes.single_lawful d).shard_grows
  shard_new := (Passes.single_lawful d).shard_new
  shard_keeps := (Passes.single_lawful d).shard_keeps
  shard_edges := (Passes.single_lawful d).shard_edges
  assign := (Passes.single_lawful d).assign
  route_grows g source new := (routeAcross_frame g source new).le_nodeCount
  route_new g source new := (routeAcross_frame g source new).new_iff
  route_keeps g source new ni hni := by
    obtain ⟨extra, he, -⟩ := (routeAcross_frame g source new).nodes
    exact congrArg _ (Graph.node?_of_nodes_eq_append he hni)
  route_places g source new ni n hle hn _ := by
    obtain ⟨extra, he, hd⟩ := (routeAcross_frame g source new).nodes
    change (routeAcross g source new).1.node? ni = some n at hn
    rw [Graph.node?, he, List.getElem?_append_right hle] at hn
    exact hd n (List.getElem?_mem hn)
  route_edges g source new := (routeAcross_frame g source new).source_edges

/-! ## Reachable states -/

/-- Modelled from the spec, since `ControllerInner::new` is not in this source: the controller
    before any migration, the source node alone, no domain running and no addresses. -/
def ControllerInner.initial (sharding : Option Nat) : ControllerInner :=
  ⟨⟨[Node.new "source" [] .source], [], fun _ he => nomatch he⟩, 0, sharding, HashMap.empty,
    HashMap.empty, ⟨HashMap.empty, HashMap.empty⟩⟩

/-- One migration from `s` to `s'`: builder calls on a fresh migration, then a commit with
    passes that keep their contracts. -/
def Migrates (s s' : ControllerInner) : Prop :=
  ∃ (passes : Passes) (toString : DataType → String) (context : HashMap String DataType)
    (calls : List BuilderCall) (m : Migration) (evs : List Event),
    passes.Lawful ∧ runCalls toString (Migration.start s context) calls = .ok m ∧
    m.commit passes = .ok (s', evs)

/-- The states a controller can reach by migrations. -/
inductive Reachable : ControllerInner → Prop
  | initial (sharding : Option Nat) : Reachable (ControllerInner.initial sharding)
  | migrate {s s' : ControllerInner} : Reachable s → Migrates s s' → Reachable s'

/-! ## Builder calls -/

/-- What builder calls keep of the controller `s` a migration began from, in the controller
    `c` they leave. -/
structure BuilderFrame (s c : ControllerInner) : Prop where
  le_nodeCount : s.ingredients.nodeCount ≤ c.ingredients.nodeCount
  placement : ∀ ni < s.ingredients.nodeCount,
    (c.ingredients.node? ni).map Node.placement = (s.ingredients.node? ni).map Node.placement
  edges : ∀ e ∈ c.ingredients.edges, e ∉ s.ingredients.edges → s.ingredients.nodeCount ≤ e.2
  source : c.source = s.source
  sharding : c.sharding = s.sharding
  domains : c.domains = s.domains
  remap : c.remap = s.remap

namespace BuilderFrame

variable {s c : ControllerInner}

theorem refl (s : ControllerInner) : BuilderFrame s s where
  le_nodeCount := le_refl _
  placement := fun _ _ => rfl
  edges := fun _ he hn => absurd he hn
  source := rfl
  sharding := rfl
  domains := rfl
  remap := rfl

/-- A call that appends one node, with edges into it only. -/
theorem appendNode (hf : BuilderFrame s c) {g : Graph} {nd : Node}
    (hn : g.nodes = c.ingredients.nodes ++ [nd])
    (he : ∃ l, g.edges = l ++ c.ingredients.edges ∧ ∀ e ∈ l, e.2 = c.ingredients.nodeCount)
    (meta : MapMeta) : BuilderFrame s { c with ingredients := g, mapMeta := meta } := by
  obtain ⟨l, he, hl⟩ := he
  have hcount := Graph.nodeCount_of_nodes_eq_append_singleton hn
  have hle := hf.le_nodeCount
  refine ⟨by simp only [hcount]; omega, fun ni hni => ?_, fun e he' hns => ?_, hf.source,
    hf.sharding, hf.domains, hf.remap⟩
  · rw [Graph.node?_of_nodes_eq_append hn (by omega)]
    exact hf.placement ni hni
  · rw [he] at he'
    rcases List.mem_append.1 he' with he' | he'
    · rw [hl e he']; exact hle
    · exact hf.edges e he' hns

/-- A call that replaces one node by a node with its placement. -/
theorem replaceNode (hf : BuilderFrame s c) {ni : Nat} {old nd : Node}
    (hold : c.ingredients.node? ni = some old) (hp : nd.placement = old.placement)
    (meta : MapMeta) : BuilderFrame s { c with
      ingredients := c.ingredients.modifyNode ni fun _ => nd, mapMeta := meta } := by
  refine ⟨by simpa using hf.le_nodeCount, fun x hx => ?_, fun e he hns => ?_, hf.source,
    hf.sharding, hf.domains, hf.remap⟩
  · rw [Graph.placement_modifyNode hold hp]
    exact hf.placement x hx
  · simp only [Graph.edges_modifyNode] at he
    exact hf.edges e he hns

/-- One builder call keeps the frame. -/
theorem apply {m m' : Migration} (hf : BuilderFrame s m.mainline) {toString : DataType → String}
    {c : BuilderCall} (h : c.apply toString m = .ok m') : BuilderFrame s m'.mainline := by
  cases c with
  | addIngredient name fields i =>
    obtain ⟨⟨ni, m₁⟩, hc, rfl⟩ := map_eq_ok.1 h
    obtain ⟨rfl, g, hn, he, rfl⟩ := Migration.addIngredient_spec hc
    exact hf.appendNode hn he _
  | addBase name fields b =>
    obtain ⟨⟨ni, m₁⟩, hc, rfl⟩ := map_eq_ok.1 h
    obtain ⟨rfl, g, hn, he, rfl⟩ := Migration.addBase_spec hc
    exact hf.appendNode hn ⟨[_], he, by simp⟩ _
  | addColumn node field default =>
    obtain ⟨⟨col, m₁⟩, hc, rfl⟩ := map_eq_ok.1 h
    obtain ⟨-, base, nd, hb, hbb, hnd, hd, hx, rfl⟩ := Migration.addColumn_spec hc
    exact hf.replaceNode hb (by simp [Node.placement, hd, hx, hbb, hnd,
      Node.isDropped_eq_false_of_isBase hbb, Node.isDropped_eq_false_of_isBase hnd]) _
  | dropColumn node column =>
    obtain ⟨-, base, nd, hb, hbb, hnd, hd, hx, rfl⟩ := Migration.dropColumn_spec h
    exact hf.replaceNode hb (by simp [Node.placement, hd, hx, hbb, hnd,
      Node.isDropped_eq_false_of_isBase hbb, Node.isDropped_eq_false_of_isBase hnd]) _
  | ensureReaderFor n name =>
    rcases Migration.ensureReaderFor_spec h with ⟨-, rfl⟩ | ⟨-, -, g, rNode, -, hgn, hge, rfl⟩
    · exact hf
    · exact hf.appendNode hgn ⟨[_], hge, by simp⟩ _
  | maintain name n key =>
    obtain ⟨m₁, h₁, ri, node, nd, uid, -, hri, hnd, rfl⟩ := Migration.maintain_spec h
    have hf₁ : BuilderFrame s m₁.mainline := by
      rcases Migration.ensureReaderFor_spec h₁ with ⟨-, rfl⟩ | ⟨-, -, g, rNode, -, hgn, hge, rfl⟩
      · exact hf
      · exact hf.appendNode hgn ⟨[_], hge, by simp⟩ _
    obtain ⟨hr, hr', hd, hx⟩ := Migration.setReaderKey_isReader hnd
    exact hf₁.replaceNode hri (by simp [Node.placement, hd, hx,
      Node.isDropped_eq_false_of_isReader hr, Node.isDropped_eq_false_of_isReader hr',
      Node.isBase_eq_false_of_isReader hr, Node.isBase_eq_false_of_isReader hr']) _

end BuilderFrame

theorem runCalls_builderFrame {toString : DataType → String} {s : ControllerInner} :
    ∀ {m m' : Migration} {calls : List BuilderCall}, BuilderFrame s m.mainline →
      runCalls toString m calls = .ok m' → BuilderFrame s m'.mainline
  | _, _, [], hf, h => by cases h; exact hf
  | _, _, _ :: _, hf, h => by
    obtain ⟨m₁, h₁, h⟩ := bind_eq_ok.1 h
    exact runCalls_builderFrame (hf.apply h₁) h

/-- What holds of the graph `g` and the new-node set `new` all through the passes of a
    migration begun from `s`: the new nodes are exactly those created since, the nodes before
    keep their placement, and every edge into the source was there before. -/
structure PassFrame (s : ControllerInner) (g : Graph) (new : HashSet Nat) : Prop where
  le_nodeCount : s.ingredients.nodeCount ≤ g.nodeCount
  new_iff : ∀ ni, ni ∈ new.elems ↔ s.ingredients.nodeCount ≤ ni ∧ ni < g.nodeCount
  placement : ∀ ni < s.ingredients.nodeCount,
    (g.node? ni).map Node.placement = (s.ingredients.node? ni).map Node.placement
  source_edges : ∀ e ∈ g.edges, e.2 = s.source → e ∈ s.ingredients.edges

namespace PassFrame

variable {passes : Passes} {s : ControllerInner} {g : Graph} {new : HashSet Nat}

/-- The builder calls start the passes off: their new-node set (lines 368-373) holds exactly
    the nodes they created. -/
theorem ofBuilder {m : Migration} (hf : BuilderFrame s m.mainline)
    (hb : BuilderInv s.ingredients.nodeCount m) (hsrc : s.source < s.ingredients.nodeCount) :
    PassFrame s m.mainline.ingredients m.newSet where
  le_nodeCount := hf.le_nodeCount
  new_iff := fun ni => by
    rw [Migration.mem_newSet, ← List.mem_append, ← hb.created_perm.mem_iff, List.mem_range'_1]
    have := hf.le_nodeCount
    omega
  placement := hf.placement
  source_edges := fun e he hes => by
    by_contra hn
    have := hf.edges e he hn
    omega

theorem shardStep (hp : passes.Lawful) {c : ControllerInner} (h : PassFrame s c.ingredients new)
    (hsrc : c.source = s.source) :
    PassFrame s (shardStep passes c new).1 (shardStep passes c new).2.1 := by
  unfold Noria.shardStep
  split
  · rename_i shards _
    have hg := hp.shard_grows c.ingredients c.source new shards
    refine ⟨h.le_nodeCount.trans hg, fun ni => ?_, fun ni hni => ?_, fun e he hes => ?_⟩
    · rw [hp.shard_new, h.new_iff]
      have := h.le_nodeCount
      omega
    · rw [hp.shard_keeps _ _ _ _ _ (by have := h.le_nodeCount; omega)
        (by rw [h.new_iff]; omega)]
      exact h.placement ni hni
    · exact h.source_edges e (hp.shard_edges _ _ _ _ e he (hes.trans hsrc.symm)) hes
  · exact h

/-- Assignment leaves the frame, and gives every new node that is not dropped a domain. -/
theorem assign (hp : passes.Lawful) {c : ControllerInner} (h : PassFrame s c.ingredients new) :
    PassFrame s (passes.assign c new).ingredients new ∧ (passes.assign c new).source = c.source ∧
      (passes.assign c new).sharding = c.sharding ∧ (passes.assign c new).domains = c.domains ∧
      (passes.assign c new).remap = c.remap ∧
      ∀ ni ∈ new.elems, ∀ n, (passes.assign c new).ingredients.node? ni = some n →
        n.isDropped = false → n.domain.isSome := by
  obtain ⟨g', hc, hcount, hedges, hkeep, hplace⟩ := hp.assign c new
  rw [hc]
  refine ⟨⟨hcount ▸ h.le_nodeCount, fun ni => hcount ▸ h.new_iff ni, fun ni hni => ?_,
    fun e he => h.source_edges e (hedges ▸ he)⟩, rfl, rfl, rfl, rfl, hplace⟩
  rw [hkeep ni (by rw [h.new_iff]; omega)]
  exact h.placement ni hni

/-- Routing leaves the frame. -/
theorem route (hp : passes.Lawful) (h : PassFrame s g new) (source : Nat)
    (hsrc : source = s.source) :
    PassFrame s (passes.route g source new).1 (passes.route g source new).2.1 := by
  have hg := hp.route_grows g source new
  refine ⟨h.le_nodeCount.trans hg, fun ni => ?_, fun ni hni => ?_, fun e he hes => ?_⟩
  · rw [hp.route_new, h.new_iff]
    have := h.le_nodeCount
    omega
  · rw [hp.route_keeps _ _ _ _ (by have := h.le_nodeCount; omega)]
    exact h.placement ni hni
  · exact h.source_edges e (hp.route_edges _ _ _ e he (hes.trans hsrc.symm)) hes

end PassFrame

/-- What commit continues with after the passes (lines 361-396) of a migration begun from `s`:
    the controller keeps its source, sharding, domains and remap tables; the passes' frame holds;
    and every new node that is not dropped has a domain. -/
theorem routeMigration_spec {passes : Passes} (hp : passes.Lawful) {s : ControllerInner}
    {m : Migration} (hf : BuilderFrame s m.mainline) (hb : BuilderInv s.ingredients.nodeCount m)
    (hsrc : s.source < s.ingredients.nodeCount) :
    (routeMigration passes m).1.source = s.source ∧
      (routeMigration passes m).1.sharding = s.sharding ∧
      (routeMigration passes m).1.domains = s.domains ∧
      (routeMigration passes m).1.remap = s.remap ∧
      PassFrame s (routeMigration passes m).1.ingredients (routeMigration passes m).2.1 ∧
      ∀ ni n, s.ingredients.nodeCount ≤ ni →
        (routeMigration passes m).1.ingredients.node? ni = some n →
        n.isDropped = false → n.domain.isSome := by
  have h₁ : PassFrame s ({ m.mainline with
      ingredients := (shardStep passes m.mainline m.newSet).1 } : ControllerInner).ingredients
      (shardStep passes m.mainline m.newSet).2.1 :=
    (PassFrame.ofBuilder hf hb hsrc).shardStep hp hf.source
  obtain ⟨h₂, hs₂, hsh₂, hd₂, hr₂, hplace₂⟩ := h₁.assign hp
  have h₃ := h₂.route hp _ (hs₂.trans hf.source)
  refine ⟨hs₂.trans hf.source, hsh₂.trans hf.sharding, hd₂.trans hf.domains, hr₂.trans hf.remap,
    h₃, fun ni n hni hn hdrop => ?_⟩
  set c₂ := passes.assign { m.mainline with
    ingredients := (shardStep passes m.mainline m.newSet).1 } (shardStep passes m.mainline m.newSet).2.1
  change (passes.route c₂.ingredients c₂.source
    (shardStep passes m.mainline m.newSet).2.1).1.node? ni = some n at hn
  by_cases hlt : ni < c₂.ingredients.nodeCount
  · have hkeep := hp.route_keeps c₂.ingredients c₂.source
      (shardStep passes m.mainline m.newSet).2.1 ni hlt
    rw [hn] at hkeep
    obtain ⟨n₂, hn₂, hp₂⟩ := Option.map_eq_some'.1 hkeep.symm
    simp only [Node.placement, Prod.mk.injEq] at hp₂
    rw [← hp₂.1]
    exact hplace₂ ni ((h₂.new_iff ni).2 ⟨hni, hlt⟩) n₂ hn₂ (hp₂.2.2.1.trans hdrop)
  · exact hp.route_places _ _ _ ni n (by omega) hn hdrop

end Noria
