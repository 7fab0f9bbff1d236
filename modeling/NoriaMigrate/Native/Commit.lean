import Mathlib.Data.List.Sort
import NoriaMigrate.Native.Migration

/-!
# Committing a migration

`Migration::commit` (lines 356-653) splices the pending nodes into the running graph. The
passes it calls but that live outside this source (`sharding::shard`, `assignment::assign`,
`routing::add`, `sharding::validate`) are parameters, bundled in `Passes`. What commit does to
the running system outside the controller's own state (`on_commit` hooks, booting and
informing domains, sending packets, wiring, materializations) is returned as a list of
`Event`s, in the order commit performs them.

Maps and sets that commit builds itself are iterated in insertion order here; the state a
commit produces does not depend on that order.

The commit is split where routing returns: `commit` runs the passes, and `commitRouted` is
everything from the merge of the swap lists on.
-/

namespace Noria

/-- A control packet for a domain. -/
inductive Packet
  | addBaseColumn (node : LocalNodeIndex) (field : String) (default : DataType)
  | dropBaseColumn (node : LocalNodeIndex) (column : Nat)
deriving DecidableEq, Repr

/-- What a commit asks of the world outside the controller's state, in order. -/
inductive Event
  | onCommit (ni : Nat) (remap : HashMap Nat IndexPair)
  | placeDomain (domain : Nat) (shards : Option Nat) (nodes : List (Nat × Bool))
  | inform (nodes : HashMap Nat (List (Nat × Bool)))
  | sendToHealthy (domain : Nat) (packet : Packet)
  | connect
  | commitMaterializations

/-- A swap table: `(child, original parent) ↦ substitute parent`. -/
abbrev SwapTable := HashMap (Nat × Nat) Nat

/-- The passes `commit` calls that live outside this source. Each returns the graph, the
    new-node set and (for `shard` and `route`) the swaps it made. -/
structure Passes where
  shard : Graph → Nat → HashSet Nat → Nat → Graph × HashSet Nat × SwapTable
  assign : ControllerInner → HashSet Nat → ControllerInner
  route : Graph → Nat → HashSet Nat → Graph × HashSet Nat × SwapTable
  validate : Graph → Nat → HashSet Nat → Nat → Bool

namespace Migration

/-- Lines 368-373: the added nodes and the readers. -/
def newSet (self : Migration) : HashSet Nat :=
  self.readers.entries.foldl (fun new e => new.insert e.2) (HashSet.ofList self.added)

private theorem mem_foldl_insert_snd (l : List (Nat × Nat)) (s : HashSet Nat) (k : Nat) :
    k ∈ (l.foldl (fun new e => new.insert e.2) s).elems ↔ k ∈ l.map Prod.snd ∨ k ∈ s.elems := by
  induction l generalizing s with
  | nil => simp
  | cons e l ih => simp only [List.foldl_cons, ih, HashSet.mem_insert, List.map_cons,
      List.mem_cons]; tauto

theorem mem_newSet (self : Migration) (k : Nat) :
    k ∈ self.newSet.elems ↔ k ∈ self.added ∨ k ∈ self.readers.values := by
  simp [newSet, mem_foldl_insert_snd, HashMap.values, or_comm]

end Migration

/-! ## Merging the swap lists (lines 398-438) -/

/-- One turn of the merge loop: resolve the entry against `swapped0`, then redirect every
    substitute equal to `src` to `instead`, since lookups in the table are one hop. -/
def mergeSwap (g : Graph) (swapped0 : SwapTable) : (Nat × Nat) × Nat → SwapTable
  | ((dst, src), instead) =>
    let swapped0 := match swapped0.get (dst, src) with
      | some instead0 =>
        if instead ≠ instead0 then
          if g.findEdge src instead then swapped0 else swapped0.insert (dst, src) instead
        else swapped0
      | none => swapped0.insert (dst, src) instead
    swapped0.mapValues fun instead0 => if instead0 = src then instead else instead0

/-- Lines 399-438: `swapped1` merged into `swapped0`, visiting `swapped1` in its iteration
    order. -/
def mergeSwaps (g : Graph) (swapped0 swapped1 : SwapTable) : SwapTable :=
  swapped1.entries.foldl (mergeSwap g) swapped0

/-! ## Grouping the nodes by domain -/

/-- Line 441: `sorted_new.sort()`. -/
def sortedNew (new : HashSet Nat) : List Nat := new.elems.insertionSort (· ≤ ·)

/-- `nis.filter(|ni| !graph[ni].is_dropped()).map(|ni| (graph[ni].domain(), ni))`: the graph
    is indexed at `line` and `Node::domain` panics at `line'` on a node without a domain.
    Lines 444-448, 450-454 and 547-552 are all this iterator. -/
def domainsOf (g : Graph) (line line' : Nat) : List Nat → Except Panic (List (Nat × Nat))
  | [] => .ok []
  | ni :: rest => do
    let n ← unwrapAt (g.node? ni) line (some ni)
    if n.isDropped then domainsOf g line line' rest
    else do
      let d ← unwrapAt n.domain line' (some ni)
      let ds ← domainsOf g line line' rest
      return (d, ni) :: ds

/-- `fold(HashMap::new(), |mut dns, (d, x)| { dns.entry(d).or_insert_with(Vec::new).push(x);
    dns })`. -/
def groupByDomain {α : Type} (l : List (Nat × α)) : HashMap Nat (List α) :=
  l.foldl (fun dns p => dns.insert p.1 ((dns.get p.1).getD [] ++ [p.2])) HashMap.empty

/-- Lines 444-448: the domains of the non-dropped new nodes. -/
def changedDomains (g : Graph) (sortedNew : List Nat) : Except Panic (HashSet Nat) := do
  let ds ← domainsOf g 446 447 sortedNew
  return HashSet.ofList (ds.map Prod.fst)

/-- Lines 450-458: the non-source, non-dropped new nodes of each domain, in index order. -/
def domainNewNodes (g : Graph) (source : Nat) (sortedNew : List Nat) :
    Except Panic (HashMap Nat (List Nat)) := do
  let ds ← domainsOf g 453 454 (sortedNew.filter (· ≠ source))
  return groupByDomain ds

/-! ## Local addresses and node initialization (lines 460-521) -/

/-- Lines 472-490: give the nodes of `domain` the local slots `nnodes`, `nnodes + 1`, ...,
    recording each in the node and in the domain's remap table. The slot is stored as
    `nnodes as u32`. -/
def assignLocal (domain : Nat) : Nat → List Nat → ControllerInner → Except Panic ControllerInner
  | _, [], m => .ok m
  | nnodes, ni :: rest, m => do
    let _ ← unwrapAt (m.ingredients.node? ni) 476 (some ni)
    let ip := (IndexPair.ofNodeIndex ni).setLocal (LocalNodeIndex.make nnodes.toUInt32)
    let inner := (m.remap.get domain).getD HashMap.empty
    let m := { m with
      ingredients := m.ingredients.modifyNode ni (·.setFinalizedAddr ip)
      remap := m.remap.insert domain (inner.insert ni ip) }
    assignLocal domain (nnodes + 1) rest m

/-- Lines 503-511: overlay the domain's remap with the local address of every substitute of
    a swap into `ni`. Overriding a key already present fails the `assert_eq!`. -/
def overlaySwaps (inner : HashMap Nat IndexPair) (ni : Nat) :
    List ((Nat × Nat) × Nat) → HashMap Nat IndexPair → Except Panic (HashMap Nat IndexPair)
  | [], remap => .ok remap
  | ((dst, src), instead) :: rest, remap =>
    if dst ≠ ni then overlaySwaps inner ni rest remap
    else do
      let ip ← unwrapAt (inner.get instead) 509 (some ni)
      let old := remap.get src
      let remap := remap.insert src ip
      assertAt old.isNone 510 (some ni)
      overlaySwaps inner ni rest remap

/-- Lines 494-518 for the node `n` at `ni`: when it is internal, its `on_commit` call with the
    domain's remap overlaid by the swaps into it. -/
def initNode (m : ControllerInner) (swapped : SwapTable) (domain : Nat) (ni : Nat) (n : Node) :
    Except Panic (List Event) :=
  if n.isInternal then do
    let inner ← unwrapAt (m.remap.get domain) 499 (some ni)
    let remap ← overlaySwaps inner ni swapped.entries inner
    pure [Event.onCommit ni remap]
  else pure []

/-- Lines 493-520: the `on_commit` call of every new internal node of `domain`. -/
def initNodes (m : ControllerInner) (swapped : SwapTable) (domain : Nat) :
    List Nat → Except Panic (List Event)
  | [] => .ok []
  | ni :: rest => do
    let n ← unwrapAt (m.ingredients.node? ni) 494 (some ni)
    let ev ← initNode m swapped domain ni n
    let evs ← initNodes m swapped domain rest
    return ev ++ evs

/-- Lines 463-520 for one domain: local addresses for its new nodes, counted on from the size
    of its remap table, then their initialization. -/
def assignDomain (swapped : SwapTable) (domain : Nat) (nodes : List Nat) (m : ControllerInner) :
    Except Panic (ControllerInner × List Event) :=
  if nodes.isEmpty then .ok (m, [])
  else do
    let nnodes := ((m.remap.get domain).map HashMap.len).getD 0
    let m ← assignLocal domain nnodes nodes m
    let evs ← initNodes m swapped domain nodes
    return (m, evs)

/-- Lines 461-521: addresses for all new nodes, then their initialization, domain by
    domain. -/
def assignAddresses (swapped : SwapTable) :
    List (Nat × List Nat) → ControllerInner → Except Panic (ControllerInner × List Event)
  | [], m => .ok (m, [])
  | (domain, nodes) :: rest, m => do
    let (m, evs) ← assignDomain swapped domain nodes m
    let (m, evs') ← assignAddresses swapped rest m
    return (m, evs ++ evs')

/-! ## Booting and informing domains (lines 547-583) -/

/-- Lines 547-556: every non-source, non-dropped node of each domain, flagged when new. -/
def uninformedDomainNodes (m : ControllerInner) (new : HashSet Nat) :
    Except Panic (HashMap Nat (List (Nat × Bool))) := do
  let ds ← domainsOf m.ingredients 551 552 (m.ingredients.nodeIndices.filter (· ≠ m.source))
  return groupByDomain (ds.map fun p => (p.1, (p.2, decide (p.2 ∈ new.elems))))

/-- Lines 560-579: boot every changed domain that is not running yet, handing it all of its
    nodes and the shard count of its first node. `place_domain` lives outside this source; the
    handle it returns is modelled by the domain and its shard count. -/
def bootDomains (m : ControllerInner) (uninformed : HashMap Nat (List (Nat × Bool))) :
    List Nat →
      Except Panic (ControllerInner × HashMap Nat (List (Nat × Bool)) × List Event)
  | [] => .ok (m, uninformed, [])
  | domain :: rest =>
    if m.domains.containsKey domain then bootDomains m uninformed rest
    else do
      let (nodes, uninformed) := uninformed.remove domain
      let nodes ← unwrapAt nodes 566 none
      let first ← unwrapAt nodes.head? 574 none
      let n ← unwrapAt (m.ingredients.node? first.1) 574 (some first.1)
      let shards := n.shardedBy.shards
      let m := { m with domains := m.domains.insert domain ⟨domain, shards⟩ }
      let (m, uninformed, evs) ← bootDomains m uninformed rest
      return (m, uninformed, Event.placeDomain domain shards nodes :: evs)

/-! ## Column changes (lines 585-627) -/

/-- Lines 587-606: the nodes told about a column change of base `ni`: for an added column, the
    children of `ni`'s egress children, then `ni` itself; for a dropped one, `ni` alone. -/
def columnTargets (g : Graph) (ni : Nat) : ColumnChange → List Nat
  | .add _ _ =>
    ((g.neighborsOut ni).filter fun eni => (g.node? eni).any Node.isEgress).flatMap
      g.neighborsOut ++ [ni]
  | .drop _ => [ni]

/-- Lines 610-620: the packet for the target `ni`, addressed to its local slot. -/
def columnPacket (n : Node) (ni : Nat) : ColumnChange → Except Panic Packet
  | .add field default => do
    let addr ← unwrapAt n.localAddr 612 (some ni)
    pure (Packet.addBaseColumn addr field default)
  | .drop column => do
    let addr ← unwrapAt n.localAddr 617 (some ni)
    pure (Packet.dropBaseColumn addr column)

/-- Lines 608-626: one packet to the domain of every target, each acknowledged before the
    next is sent. -/
def informTargets (m : ControllerInner) (change : ColumnChange) :
    List Nat → Except Panic (List Event)
  | [] => .ok []
  | ni :: rest => do
    let n ← unwrapAt (m.ingredients.node? ni) 609 (some ni)
    let packet ← columnPacket n ni change
    let d ← unwrapAt n.domain 622 (some ni)
    let _ ← unwrapAt (m.domains.get d) 622 (some ni)
    let evs ← informTargets m change rest
    return Event.sendToHealthy d packet :: evs

/-- Lines 586-627: every queued column change, in queue order. -/
def propagateColumns (m : ControllerInner) :
    List (Nat × ColumnChange) → Except Panic (List Event)
  | [] => .ok []
  | (ni, change) :: rest => do
    let evs ← informTargets m change (columnTargets m.ingredients ni change)
    let evs' ← propagateColumns m rest
    return evs ++ evs'

/-! ## The commit -/

/-- Lines 523-525: `sharding::validate` when the controller shards; it panics on a graph it
    rejects. -/
def validateSharding (passes : Passes) (mainline : ControllerInner) (new : HashSet Nat) :
    Except Panic Unit :=
  match mainline.sharding with
  | some shards => assertAt (passes.validate mainline.ingredients mainline.source new shards) 524 none
  | none => pure ()

/-- Lines 398-583: the new nodes get their local addresses and their `on_commit` calls, the
    sharding is checked, and the changed domains that are not running are booted. Returns the
    controller, the `on_commit` and `place_domain` events, and the nodes left for
    `augmentation::inform`. -/
def commitNodes (passes : Passes) (mainline : ControllerInner) (new : HashSet Nat)
    (swapped0 swapped1 : SwapTable) :
    Except Panic (ControllerInner × List Event × List Event × HashMap Nat (List (Nat × Bool))) := do
  let swapped := mergeSwaps mainline.ingredients swapped0 swapped1
  let sortedNew := sortedNew new
  let changedDomains ← changedDomains mainline.ingredients sortedNew
  let domainNewNodes ← domainNewNodes mainline.ingredients mainline.source sortedNew
  let (mainline, evs) ← assignAddresses swapped domainNewNodes.entries mainline
  validateSharding passes mainline new
  let uninformed ← uninformedDomainNodes mainline new
  let (mainline, uninformed, evs') ← bootDomains mainline uninformed changedDomains.elems
  return (mainline, evs, evs', uninformed)

/-- Lines 398-653: the commit from the merge of the swap lists on, given the controller, the
    new-node set and the swap lists as routing left them. -/
def commitRouted (passes : Passes) (mainline : ControllerInner) (new : HashSet Nat)
    (swapped0 swapped1 : SwapTable) (columns : List (Nat × ColumnChange)) :
    Except Panic (ControllerInner × List Event) := do
  let (mainline, evs, evs', uninformed) ← commitNodes passes mainline new swapped0 swapped1
  let evs'' ← propagateColumns mainline columns
  return (mainline, evs ++ evs' ++ [Event.inform uninformed] ++ evs'' ++
    [Event.connect, Event.commitMaterializations])

/-- Lines 375-386: the sharding pass when the controller shards, and no swaps otherwise. -/
def shardStep (passes : Passes) (mainline : ControllerInner) (new : HashSet Nat) :
    Graph × HashSet Nat × SwapTable :=
  match mainline.sharding with
  | some shards => passes.shard mainline.ingredients mainline.source new shards
  | none => (mainline.ingredients, new, HashMap.empty)

/-- Lines 361-396: the new-node set and the passes, up to where routing returns: the
    controller, the new-node set, and the swaps of sharding and of routing. -/
def routeMigration (passes : Passes) (self : Migration) :
    ControllerInner × HashSet Nat × SwapTable × SwapTable :=
  let sharded := shardStep passes self.mainline self.newSet
  let mainline := passes.assign { self.mainline with ingredients := sharded.1 } sharded.2.1
  let routed := passes.route mainline.ingredients mainline.source sharded.2.1
  ({ mainline with ingredients := routed.1 }, routed.2.1, sharded.2.2, routed.2.2)

/-- `Migration::commit` (lines 361-653). -/
def Migration.commit (passes : Passes) (self : Migration) :
    Except Panic (ControllerInner × List Event) :=
  let r := routeMigration passes self
  commitRouted passes r.1 r.2.1 r.2.2.1 r.2.2.2 self.columns

end Noria
