import NoriaMigrate.Native.HashMap

/-!
# The dataflow graph

A migration edits `ControllerInner::ingredients`, a `petgraph::Graph<Node, Edge>`. Nodes are
addressed by `Nat`, their position in the node vector: `add_node` appends, and
`add_edge` records one parent→child edge and panics on an endpoint that does not exist.
petgraph walks a node's outgoing neighbours newest edge first, so `edges` is kept newest
first.

The node record comes from the `dataflow` crate, which is not part of this source. Only what
`controller/migrate/mod.rs` reads or writes is modelled: the node's type, its domain, its
finalized `IndexPair`, its sharding, and for base and reader nodes the state that
`add_column`, `drop_column` and `set_key` change.

A `petgraph::graph::NodeIndex` is the node's position, and a `DomainIndex` names one execution
domain; both are natural numbers here.

A panic of the code is a `Panic` naming the line of `mod.rs` whose `assert!`, `unwrap` or
index fired, and the node it was working on.
-/

namespace Noria

/-- Why a run aborts: the line of `controller/migrate/mod.rs` whose `assert!`, `unwrap` or
    index panicked, and the node it was working on when there is one. -/
structure Panic where
  line : Nat
  node : Option Nat
deriving DecidableEq, Repr

/-- `opt.unwrap()` at `line`. -/
def unwrapAt {α : Type} (o : Option α) (line : Nat) (node : Option Nat) :
    Except Panic α :=
  match o with
  | some a => .ok a
  | none => .error ⟨line, node⟩

/-- `assert!(b)` at `line`. -/
def assertAt (b : Bool) (line : Nat) (node : Option Nat) : Except Panic Unit :=
  if b then .ok () else .error ⟨line, node⟩

@[simp] theorem unwrapAt_some {α : Type} (a : α) (line : Nat) (node : Option Nat) :
    unwrapAt (some a) line node = .ok a := rfl

@[simp] theorem unwrapAt_none {α : Type} (line : Nat) (node : Option Nat) :
    unwrapAt (none : Option α) line node = .error ⟨line, node⟩ := rfl

@[simp] theorem ok_bind {α β : Type} (a : α) (f : α → Except Panic β) :
    (Except.ok a >>= f) = f a := rfl

@[simp] theorem error_bind {α β : Type} (p : Panic) (f : α → Except Panic β) :
    (Except.error p >>= f) = .error p := rfl

theorem bind_eq_ok {α β : Type} {e : Except Panic α} {f : α → Except Panic β} {b : β} :
    e >>= f = .ok b ↔ ∃ a, e = .ok a ∧ f a = .ok b := by
  cases e <;> simp [bind, Except.bind]

theorem map_eq_ok {α β : Type} {e : Except Panic α} {f : α → β} {b : β} :
    f <$> e = .ok b ↔ ∃ a, e = .ok a ∧ f a = b := by
  cases e <;> simp [Functor.map, Except.map]

/-- A run that does not panic returns a value: the form in which a concrete run is checked by
    `decide`. -/
theorem exists_eq_ok_of_toBool {α : Type} {e : Except Panic α} (h : e.toBool = true) :
    ∃ a, e = .ok a := by
  cases e with
  | error p => cases h
  | ok a => exact ⟨a, rfl⟩

theorem assertAt_eq_ok {b : Bool} {line : Nat} {node : Option Nat} {u : Unit} :
    assertAt b line node = .ok u ↔ b = true := by
  cases b <;> simp [assertAt]

theorem unwrapAt_eq_ok {α : Type} {o : Option α} {line : Nat} {node : Option Nat}
    {a : α} : unwrapAt o line node = .ok a ↔ o = some a := by
  cases o <;> simp [unwrapAt]

theorem bind_eq_error {α β : Type} {e : Except Panic α} {f : α → Except Panic β} {p : Panic} :
    e >>= f = .error p ↔ e = .error p ∨ ∃ a, e = .ok a ∧ f a = .error p := by
  cases e <;> simp [bind, Except.bind]

theorem unwrapAt_eq_error {α : Type} {o : Option α} {line : Nat} {node : Option Nat}
    {p : Panic} : unwrapAt o line node = .error p ↔ o = none ∧ p = ⟨line, node⟩ := by
  cases o <;> simp [unwrapAt, eq_comm]

theorem assertAt_eq_error {b : Bool} {line : Nat} {node : Option Nat} {p : Panic} :
    assertAt b line node = .error p ↔ b = false ∧ p = ⟨line, node⟩ := by
  cases b <;> simp [assertAt, eq_comm]

/-! ## Addresses -/

/-- `LocalNodeIndex`: a node's slot inside its domain, stored as a `u32`. -/
structure LocalNodeIndex where
  id : UInt32
deriving DecidableEq, Repr

/-- `LocalNodeIndex::make(n)`. -/
def LocalNodeIndex.make (n : UInt32) : LocalNodeIndex := ⟨n⟩

/-- `IndexPair`: a node's global index and, once it has one, its local slot. -/
structure IndexPair where
  global : Nat
  localIdx : Option LocalNodeIndex
deriving DecidableEq, Repr

/-- `IndexPair::from(ni)`: no local slot yet. -/
def IndexPair.ofNodeIndex (ni : Nat) : IndexPair := ⟨ni, none⟩

/-- `ip.set_local(l)`. -/
def IndexPair.setLocal (ip : IndexPair) (l : LocalNodeIndex) : IndexPair :=
  { ip with localIdx := some l }

/-! ## Nodes -/

/-- The `dataflow` crate's `DataType`, reduced to the variants this module builds. -/
inductive DataType
  | none
  | int (i : Int)
  | text (s : String)
deriving DecidableEq, Repr

/-- `Sharding`: how a node's domain is split into shards. -/
inductive Sharding
  | byColumn (column shards : Nat)
  | random (shards : Nat)
  | none
  | forcedNone
deriving DecidableEq, Repr

/-- `sharding.shards()`. -/
def Sharding.shards : Sharding → Option Nat
  | .byColumn _ s => some s
  | .random s => some s
  | .none => Option.none
  | .forcedNone => Option.none

/-- `node::special::Base`: the default of every column, and the columns dropped so far. -/
structure Base where
  defaults : List DataType
  dropped : List Nat
deriving DecidableEq, Repr

/-- `Base::add_column(default)`, a method of the dataflow crate, which is not in this source:
    a stand-in giving the base with the new default and the new column's index. The method's
    own assertions are not modelled. -/
def Base.addColumn (b : Base) (default : DataType) : Base × Nat :=
  ({ b with defaults := b.defaults ++ [default] }, b.defaults.length)

/-- `Base::drop_column(column)`, a method of the dataflow crate, which is not in this source: a
    stand-in recording the column as dropped. The method's own assertions are not modelled. -/
def Base.dropColumn (b : Base) (column : Nat) : Base :=
  { b with dropped := b.dropped ++ [column] }

/-- `node::special::Reader`: the node it reads, and its lookup key once set. -/
structure Reader where
  forNode : Nat
  key : Option (List Nat)
deriving DecidableEq, Repr

/-- `Reader::new(n)`. -/
def Reader.new (n : Nat) : Reader := ⟨n, none⟩

/-- `reader.set_key(key)`. -/
def Reader.setKey (r : Reader) (key : List Nat) : Reader := { r with key := some key }

/-- `NodeType`: what a node is. Operators are kept abstract; their `on_commit` hook is an
    event of the commit. -/
inductive NodeType
  | ingress
  | base (b : Base)
  | internal
  | egress
  | sharder
  | reader (r : Reader)
  | source
  | dropped
deriving DecidableEq, Repr

/-- `node::Node`. -/
structure Node where
  name : String
  fields : List String
  domain : Option Nat
  index : Option IndexPair
  inner : NodeType
  shardedBy : Sharding
deriving DecidableEq, Repr

namespace Node

/-- `Node::new(name, fields, inner)`: no domain, no address, not sharded. -/
def new (name : String) (fields : List String) (inner : NodeType) : Node :=
  ⟨name, fields, none, none, inner, .none⟩

/-- `node.is_base()`. -/
def isBase (n : Node) : Bool := match n.inner with | .base _ => true | _ => false

/-- `node.is_internal()`. -/
def isInternal (n : Node) : Bool := match n.inner with | .internal => true | _ => false

/-- `node.is_dropped()`. -/
def isDropped (n : Node) : Bool := match n.inner with | .dropped => true | _ => false

/-- `node.is_egress()`. -/
def isEgress (n : Node) : Bool := match n.inner with | .egress => true | _ => false

/-- `node.is_ingress()`. -/
def isIngress (n : Node) : Bool := match n.inner with | .ingress => true | _ => false

/-- `node.is_reader()`. -/
def isReader (n : Node) : Bool := match n.inner with | .reader _ => true | _ => false

/-- `node.mirror(r)`: a node with this node's name and fields. -/
def mirror (n : Node) (inner : NodeType) : Node := Node.new n.name n.fields inner

/-- `node.named_mirror(r, name)`: a node with this node's fields under a new name. -/
def namedMirror (n : Node) (inner : NodeType) (name : String) : Node :=
  Node.new name n.fields inner

/-- `node.add_column(field)`, a method of the dataflow crate, which is not in this source: a
    stand-in giving the node with the new field and the new column's index. -/
def addColumn (n : Node) (field : String) : Node × Nat :=
  ({ n with fields := n.fields ++ [field] }, n.fields.length)

/-- `node.set_finalized_addr(ip)`. -/
def setFinalizedAddr (n : Node) (ip : IndexPair) : Node := { n with index := some ip }

/-- `node.local_addr()`: the local slot of a node that has one. -/
def localAddr (n : Node) : Option LocalNodeIndex := n.index.bind IndexPair.localIdx

end Node

/-! ## The graph -/

/-- `petgraph::Graph<Node, Edge>`: the node vector, indexed by `NodeIndex`, and the
    parent→child edges, newest first. Every edge joins two nodes of the vector. -/
structure Graph where
  nodes : List Node
  edges : List (Nat × Nat)
  edges_lt : ∀ e ∈ edges, e.1 < nodes.length ∧ e.2 < nodes.length

namespace Graph

/-- `graph.node_count()`. -/
def nodeCount (g : Graph) : Nat := g.nodes.length

/-- `graph[ni]`: `none` where petgraph's index panics. -/
def node? (g : Graph) (ni : Nat) : Option Node := g.nodes[ni]?

/-- `graph.add_node(n)`: the new node's index, and the graph. -/
def addNode (g : Graph) (n : Node) : Nat × Graph :=
  (g.nodes.length, ⟨g.nodes ++ [n], g.edges, fun e he => by
    have := g.edges_lt e he; simp only [List.length_append, List.length_singleton]; omega⟩)

/-- `graph.add_edge(a, b, ())`: `none` where petgraph panics on an endpoint that does not
    exist. -/
def addEdge (g : Graph) (a b : Nat) : Option Graph :=
  if h : a < g.nodeCount ∧ b < g.nodeCount then
    some ⟨g.nodes, (a, b) :: g.edges, by
      intro e he
      rcases List.mem_cons.1 he with rfl | he
      · exact h
      · exact g.edges_lt e he⟩
  else none

/-- `graph.find_edge(a, b).is_some()`. -/
def findEdge (g : Graph) (a b : Nat) : Bool := decide ((a, b) ∈ g.edges)

/-- `graph.neighbors_directed(a, Outgoing)`, one entry per edge, newest first. -/
def neighborsOut (g : Graph) (a : Nat) : List Nat :=
  g.edges.filterMap fun e => if e.1 = a then some e.2 else none

/-- `graph.node_indices()`. -/
def nodeIndices (g : Graph) : List Nat := List.range g.nodeCount

/-- `graph[ni] = f(graph[ni])`, for a node that exists. -/
def modifyNode (g : Graph) (ni : Nat) (f : Node → Node) : Graph :=
  ⟨g.nodes.modify f ni, g.edges, fun e he => by
    simpa only [List.length_modify] using g.edges_lt e he⟩

@[simp] theorem addNode_fst (g : Graph) (n : Node) : (g.addNode n).1 = g.nodeCount := rfl

@[simp] theorem edges_addNode (g : Graph) (n : Node) : (g.addNode n).2.edges = g.edges := rfl

@[simp] theorem nodes_addNode (g : Graph) (n : Node) :
    (g.addNode n).2.nodes = g.nodes ++ [n] := rfl

theorem node?_addNode (g : Graph) (n : Node) (ni : Nat) :
    (g.addNode n).2.node? ni = if ni = g.nodeCount then some n else g.node? ni := by
  simp only [addNode, node?, nodeCount]
  split
  · subst ‹ni = _›; simp
  · rename_i h
    rcases Nat.lt_or_ge ni g.nodes.length with hlt | hge
    · rw [List.getElem?_append_left hlt]
    · have hlen : (g.nodes ++ [n]).length ≤ ni := by
        rw [List.length_append, List.length_singleton]; omega
      rw [List.getElem?_eq_none hlen, List.getElem?_eq_none hge]

theorem node?_eq_none_iff {g : Graph} {ni : Nat} : g.node? ni = none ↔ g.nodeCount ≤ ni :=
  List.getElem?_eq_none_iff

theorem node?_isSome_iff {g : Graph} {ni : Nat} : (g.node? ni).isSome ↔ ni < g.nodeCount := by
  rw [← Nat.not_le, ← node?_eq_none_iff, Option.isSome_iff_ne_none]

/-- A graph whose node vector extends another's agrees with it on the old nodes. -/
theorem node?_of_nodes_eq_append {g g' : Graph} {l : List Node} (h : g'.nodes = g.nodes ++ l)
    {ni : Nat} (hi : ni < g.nodeCount) : g'.node? ni = g.node? ni := by
  simp only [node?, h]; exact List.getElem?_append_left hi

theorem node?_of_nodes_eq_append_singleton {g g' : Graph} {nd : Node}
    (h : g'.nodes = g.nodes ++ [nd]) : g'.node? g.nodeCount = some nd := by
  simp [node?, h, nodeCount]

theorem nodeCount_of_nodes_eq_append_singleton {g g' : Graph} {nd : Node}
    (h : g'.nodes = g.nodes ++ [nd]) : g'.nodeCount = g.nodeCount + 1 := by
  simp [nodeCount, h]

/-- Every edge of the graph ends at an existing node. -/
theorem snd_lt_of_mem_edges {g : Graph} {e : Nat × Nat} (he : e ∈ g.edges) :
    e.2 < g.nodeCount := (g.edges_lt e he).2

theorem fst_lt_of_mem_edges {g : Graph} {e : Nat × Nat} (he : e ∈ g.edges) :
    e.1 < g.nodeCount := (g.edges_lt e he).1

theorem addEdge_eq_some {g g' : Graph} {a b : Nat} (h : g.addEdge a b = some g') :
    a < g.nodeCount ∧ b < g.nodeCount ∧ g'.nodes = g.nodes ∧ g'.edges = (a, b) :: g.edges := by
  unfold addEdge at h
  split at h
  · cases h; exact ⟨‹_ ∧ _›.1, ‹_ ∧ _›.2, rfl, rfl⟩
  · cases h

@[simp] theorem nodeCount_modifyNode (g : Graph) (ni : Nat) (f : Node → Node) :
    (g.modifyNode ni f).nodeCount = g.nodeCount := by
  simp [modifyNode, nodeCount]

@[simp] theorem edges_modifyNode (g : Graph) (ni : Nat) (f : Node → Node) :
    (g.modifyNode ni f).edges = g.edges := rfl

theorem node?_modifyNode (g : Graph) (ni ni' : Nat) (f : Node → Node) :
    (g.modifyNode ni f).node? ni' = if ni' = ni then (g.node? ni).map f else g.node? ni' := by
  simp only [modifyNode, node?]
  split
  · subst ‹ni' = ni›; simp
  · rw [List.getElem?_modify_ne _ _ (Ne.symm ‹_›)]

@[simp] theorem mem_nodeIndices {g : Graph} {ni : Nat} :
    ni ∈ g.nodeIndices ↔ ni < g.nodeCount := List.mem_range

theorem mem_neighborsOut {g : Graph} {a b : Nat} :
    b ∈ g.neighborsOut a ↔ (a, b) ∈ g.edges := by
  simp only [neighborsOut, List.mem_filterMap, Option.ite_none_right_eq_some,
    Option.some.injEq]
  constructor
  · rintro ⟨⟨a', b'⟩, he, rfl, rfl⟩; exact he
  · intro h; exact ⟨(a, b), h, rfl, rfl⟩

end Graph

end Noria
