import NoriaMigrate.Native.Commit

/-!
# What the steps of `commit` do

One spec lemma per helper of `commitRouted`, so that the invariants over whole runs cite these
and never unfold the commit.

* `domainsOf_eq_ok`: the domain iterator of lines 444-454 and 547-552 cannot panic on nodes that
  exist and, unless dropped, have a domain; it then lists the non-dropped nodes in order with
  their domains (`placedIn`).
* `get_groupByDomain`: the fold that groups them keeps each domain's nodes in order.
* `assignLocal_spec`: the address loop of lines 472-490 gives the nodes the slots of `slotted`,
  in the domain's remap table and in the nodes themselves.
* `initNode_eq_ok`: the `on_commit` call of lines 494-518 hands an internal node its domain's
  table overlaid by the swaps into it (`overlaySwaps_entries_get`).
-/

namespace Noria

/-! ## The domain iterator -/

/-- The domain the commit's iterators read for node `ni`: none for a dropped node, which they
    skip, and `node.domain()` otherwise. -/
def placedIn (g : Graph) (ni : Nat) : Option Nat :=
  (g.node? ni).bind fun n => if n.isDropped then none else n.domain

/-- Every node of `xs` exists and, unless dropped, has a domain: the iterator over `xs`
    cannot panic. -/
def Placed (g : Graph) (xs : List Nat) : Prop :=
  ∀ ni ∈ xs, ∃ n, g.node? ni = some n ∧ (n.isDropped = false → n.domain.isSome)

theorem domainsOf_eq_ok (g : Graph) (line line' : Nat) :
    ∀ {xs : List Nat}, Placed g xs →
      domainsOf g line line' xs = .ok (xs.filterMap fun ni => (placedIn g ni).map (·, ni))
  | [], _ => rfl
  | ni :: rest, h => by
    obtain ⟨n, hn, hd⟩ := h ni (List.mem_cons_self _ _)
    have ih := domainsOf_eq_ok g line line' fun x hx => h x (List.mem_cons_of_mem _ hx)
    cases hdrop : n.isDropped
    · obtain ⟨d, hd'⟩ := Option.isSome_iff_exists.1 (hd hdrop)
      simp [domainsOf, hn, hdrop, hd', ih, placedIn]
    · simp [domainsOf, hn, hdrop, ih, placedIn]

/-! ## Grouping by domain -/

private theorem get_foldl_group {α : Type} (l : List (Nat × α)) (acc : HashMap Nat (List α))
    (d : Nat) :
    (l.foldl (fun dns p => dns.insert p.1 ((dns.get p.1).getD [] ++ [p.2])) acc).get d =
      if (l.filter (·.1 = d)).isEmpty then acc.get d
      else some ((acc.get d).getD [] ++ (l.filter (·.1 = d)).map (·.2)) := by
  induction l generalizing acc with
  | nil => simp
  | cons p l ih =>
    rw [List.foldl_cons, ih]
    by_cases hp : p.1 = d
    · subst hp
      simp
    · rw [List.filter_cons_of_neg (by simpa using hp)]
      simp [Ne.symm hp]

/-- The nodes grouped under `d`, in their order in `l`. -/
theorem get_groupByDomain {α : Type} (l : List (Nat × α)) (d : Nat) :
    (groupByDomain l).get d =
      if (l.filter (·.1 = d)).isEmpty then none else some ((l.filter (·.1 = d)).map (·.2)) := by
  rw [groupByDomain, get_foldl_group]
  rfl

/-- The iterator's entries for domain `d`, each carrying `h ni`, are the nodes placed in `d`, in
    order. -/
theorem filter_placedIn_entries {β : Type} (g : Graph) (xs : List Nat) (d : Nat)
    (h : Nat → β) :
    (xs.filterMap fun ni => (placedIn g ni).map fun d' => (d', h ni)).filter (·.1 = d) =
      (xs.filter (placedIn g · = some d)).map fun ni => (d, h ni) := by
  induction xs with
  | nil => rfl
  | cons ni xs ih =>
    cases hp : placedIn g ni with
    | none => simp [hp, ih]
    | some d' => by_cases hd : d' = d <;> simp [hp, hd, ih]

/-- The nodes placed in `d` among `xs`, with `h` of each, grouped under `d`. -/
theorem get_groupByDomain_placedIn {β : Type} (g : Graph) (xs : List Nat) (d : Nat)
    (h : Nat → β) :
    (groupByDomain (xs.filterMap fun ni => (placedIn g ni).map fun d' => (d', h ni))).get d =
      if xs.filter (placedIn g · = some d) = [] then none
      else some ((xs.filter (placedIn g · = some d)).map h) := by
  rw [get_groupByDomain, filter_placedIn_entries]
  simp [Function.comp_def]

/-- The non-source nodes of `g` that are not dropped and are placed in `d`, in index order:
    what lines 547-556 list for `d`. -/
def domainNodes (g : Graph) (source d : Nat) : List Nat :=
  (g.nodeIndices.filter (· ≠ source)).filter (placedIn g · = some d)

/-- The non-source new nodes that are not dropped and are placed in `d`, in index order: what
    lines 440-458 hand the address loop for `d`. -/
def newNodesOf (g : Graph) (source : Nat) (new : HashSet Nat) (d : Nat) : List Nat :=
  ((sortedNew new).filter (· ≠ source)).filter (placedIn g · = some d)

theorem mem_sortedNew {new : HashSet Nat} {x : Nat} : x ∈ sortedNew new ↔ x ∈ new.elems :=
  (List.perm_insertionSort _ _).mem_iff

theorem mem_newNodesOf {g : Graph} {source : Nat} {new : HashSet Nat} {d x : Nat} :
    x ∈ newNodesOf g source new d ↔ x ∈ new.elems ∧ x ≠ source ∧ placedIn g x = some d := by
  simp only [newNodesOf, List.mem_filter, mem_sortedNew, decide_eq_true_eq]
  tauto

/-- Line 441 sorts the new nodes, whatever the set's iteration order. -/
theorem sorted_newNodesOf (g : Graph) (source : Nat) (new : HashSet Nat) (d : Nat) :
    (newNodesOf g source new d).Sorted (· < ·) :=
  (((List.sorted_insertionSort _ _).lt_of_le
    ((List.perm_insertionSort _ _).nodup_iff.2 new.nodup)).filter _).filter _

/-- An iterator that returns has met nodes that exist and, unless dropped, have a domain. -/
theorem placed_of_domainsOf_eq_ok {g : Graph} {line line' : Nat} :
    ∀ {xs : List Nat} {ds : List (Nat × Nat)}, domainsOf g line line' xs = .ok ds → Placed g xs
  | [], _, _ => fun _ h => nomatch h
  | ni :: rest, _, h => by
    obtain ⟨n, hn, h⟩ := bind_eq_ok.1 h
    have hrest : Placed g rest := by
      split at h
      · exact placed_of_domainsOf_eq_ok h
      · obtain ⟨_, -, h⟩ := bind_eq_ok.1 h
        obtain ⟨_, h, -⟩ := bind_eq_ok.1 h
        exact placed_of_domainsOf_eq_ok h
    refine List.forall_mem_cons.2 ⟨⟨n, unwrapAt_eq_ok.1 hn, fun hd => ?_⟩, hrest⟩
    rw [if_neg (by simp [hd])] at h
    obtain ⟨d, hd, -⟩ := bind_eq_ok.1 h
    rw [unwrapAt_eq_ok.1 hd]
    rfl

/-- The value of an iterator that returns. -/
theorem domainsOf_eq_ok_iff {g : Graph} {line line' : Nat} {xs : List Nat}
    {ds : List (Nat × Nat)} : domainsOf g line line' xs = .ok ds ↔
      Placed g xs ∧ ds = xs.filterMap fun ni => (placedIn g ni).map (·, ni) := by
  constructor
  · intro h
    have hp := placed_of_domainsOf_eq_ok h
    rw [domainsOf_eq_ok g line line' hp] at h
    exact ⟨hp, (Except.ok.inj h).symm⟩
  · rintro ⟨hp, rfl⟩
    exact domainsOf_eq_ok g line line' hp

/-- Lines 547-556: each domain's nodes, each flagged when new. -/
theorem uninformedDomainNodes_get {m : ControllerInner} {new : HashSet Nat}
    {u : HashMap Nat (List (Nat × Bool))} (h : uninformedDomainNodes m new = .ok u) (d : Nat) :
    u.get d = if domainNodes m.ingredients m.source d = [] then none
      else some ((domainNodes m.ingredients m.source d).map fun ni => (ni, decide (ni ∈ new.elems))) := by
  obtain ⟨ds, hds, h⟩ := bind_eq_ok.1 h
  obtain ⟨-, rfl⟩ := domainsOf_eq_ok_iff.1 hds
  cases h
  simp only [List.map_filterMap, Option.map_map, Function.comp_def]
  exact get_groupByDomain_placedIn _ _ d fun ni => (ni, decide (ni ∈ new.elems))

/-- Lines 444-448: the domains of the non-dropped new nodes. -/
theorem mem_changedDomains {g : Graph} {sorted : List Nat} {c : HashSet Nat}
    (h : changedDomains g sorted = .ok c) (d : Nat) :
    d ∈ c.elems ↔ ∃ ni ∈ sorted, placedIn g ni = some d := by
  obtain ⟨ds, hds, h⟩ := bind_eq_ok.1 h
  obtain ⟨-, rfl⟩ := domainsOf_eq_ok_iff.1 hds
  cases h
  simp only [HashSet.mem_ofList, List.mem_map, List.mem_filterMap, Option.map_eq_some']
  constructor
  · rintro ⟨_, ⟨ni, hni, d', hd', rfl⟩, rfl⟩
    exact ⟨ni, hni, hd'⟩
  · rintro ⟨ni, hni, hd⟩
    exact ⟨_, ⟨ni, hni, d, hd, rfl⟩, rfl⟩

/-- Lines 450-458: each domain's non-source new nodes that are not dropped, in index order. -/
theorem domainNewNodes_get {g : Graph} {source : Nat} {new : HashSet Nat}
    {dn : HashMap Nat (List Nat)} (h : domainNewNodes g source (sortedNew new) = .ok dn)
    (d : Nat) :
    dn.get d = if newNodesOf g source new d = [] then none else some (newNodesOf g source new d) := by
  obtain ⟨ds, hds, h⟩ := bind_eq_ok.1 h
  obtain ⟨-, rfl⟩ := domainsOf_eq_ok_iff.1 hds
  cases h
  have h := get_groupByDomain_placedIn g ((sortedNew new).filter (· ≠ source)) d id
  rwa [List.map_id] at h

/-! ## Local addresses -/

/-- Line 473: the address of node `ni` at local slot `nnodes`, stored as `nnodes as u32`. -/
def slotAddr (ni nnodes : Nat) : IndexPair :=
  (IndexPair.ofNodeIndex ni).setLocal (LocalNodeIndex.make nnodes.toUInt32)

/-- The local slot an address names. -/
def IndexPair.slot (ip : IndexPair) : Option Nat := ip.localIdx.map fun l => l.id.toNat

/-- Lines 472-490 from the slot `nnodes` on: each node with the address it is given. -/
def slotted : Nat → List Nat → List (Nat × IndexPair)
  | _, [] => []
  | nnodes, ni :: rest => (ni, slotAddr ni nnodes) :: slotted (nnodes + 1) rest

/-- The graph with the addresses of `l` recorded in their nodes. -/
def setAddrs (g : Graph) (l : List (Nat × IndexPair)) : Graph :=
  l.foldl (fun g e => g.modifyNode e.1 (·.setFinalizedAddr e.2)) g

/-- A remap table with the entries of `l` inserted in order. -/
def insertAddrs (t : HashMap Nat IndexPair) (l : List (Nat × IndexPair)) :
    HashMap Nat IndexPair :=
  l.foldl (fun t e => t.insert e.1 e.2) t

@[simp] theorem map_fst_slotted (nnodes : Nat) (nodes : List Nat) :
    (slotted nnodes nodes).map Prod.fst = nodes := by
  induction nodes generalizing nnodes with
  | nil => rfl
  | cons ni rest ih => simp [slotted, ih]

@[simp] theorem length_slotted (nnodes : Nat) (nodes : List Nat) :
    (slotted nnodes nodes).length = nodes.length := by
  rw [← List.length_map (slotted nnodes nodes) Prod.fst, map_fst_slotted]

/-- Every address `slotted` hands out names a local slot. -/
theorem localIdx_isSome_of_mem_slotted {x : Nat} {ip : IndexPair} :
    ∀ {nnodes : Nat} {nodes : List Nat}, (x, ip) ∈ slotted nnodes nodes → ip.localIdx.isSome
  | _, [], h => by cases h
  | _, _ :: _, h => by
    rcases List.mem_cons.1 h with h | h
    · cases h; rfl
    · exact localIdx_isSome_of_mem_slotted h

theorem slotted_append (nnodes : Nat) (xs ys : List Nat) :
    slotted nnodes (xs ++ ys) = slotted nnodes xs ++ slotted (nnodes + xs.length) ys := by
  induction xs generalizing nnodes with
  | nil => rfl
  | cons x xs ih =>
    rw [List.cons_append, slotted, slotted, ih, List.length_cons, Nat.add_assoc, Nat.add_comm 1]
    rfl

/-- The slots `slotted` hands out, in order: `nnodes`, `nnodes + 1`, ..., each as a `u32`. -/
theorem map_slot_slotted (nnodes : Nat) (nodes : List Nat) :
    (slotted nnodes nodes).map (·.2.slot) =
      (List.range' nnodes nodes.length).map fun k => some (k % 2 ^ 32) := by
  induction nodes generalizing nnodes with
  | nil => rfl
  | cons ni rest ih =>
    rw [slotted, List.map_cons, ih, List.length_cons, List.range'_succ, List.map_cons]
    rfl

/-- Lines 472-490: the nodes get the addresses of `slotted` in the graph and, once there is a
    node, in the domain's remap table; nothing else changes. -/
theorem assignLocal_spec {d : Nat} :
    ∀ {nnodes : Nat} {nodes : List Nat} {m m' : ControllerInner},
      assignLocal d nnodes nodes m = .ok m' →
      m'.ingredients = setAddrs m.ingredients (slotted nnodes nodes) ∧
      (∀ d', m'.remap.get d' = if d' = d ∧ nodes ≠ [] then
        some (insertAddrs ((m.remap.get d).getD HashMap.empty) (slotted nnodes nodes))
        else m.remap.get d') ∧
      m'.source = m.source ∧ m'.sharding = m.sharding ∧ m'.domains = m.domains
  | _, [], _, _, h => by cases h; exact ⟨rfl, fun d' => by simp, rfl, rfl, rfl⟩
  | nnodes, ni :: rest, m, m', h => by
    obtain ⟨_, -, h⟩ := bind_eq_ok.1 h
    obtain ⟨hg, hr, hs, hsh, hd⟩ := assignLocal_spec h
    refine ⟨hg, fun d' => ?_, hs, hsh, hd⟩
    rw [hr d']
    by_cases hd' : d' = d
    · subst hd'
      cases rest <;> simp [slotted, slotAddr, insertAddrs]
    · simp [hd']

@[simp] theorem nodeCount_setAddrs (g : Graph) (l : List (Nat × IndexPair)) :
    (setAddrs g l).nodeCount = g.nodeCount := by
  induction l generalizing g with
  | nil => rfl
  | cons e l ih => exact (ih _).trans (Graph.nodeCount_modifyNode _ _ _)

/-- Recording addresses changes nothing else of the nodes. -/
theorem map_node?_setAddrs {β : Type} (f : Node → β)
    (hf : ∀ n ip, f (n.setFinalizedAddr ip) = f n) :
    ∀ (g : Graph) (l : List (Nat × IndexPair)) (x : Nat),
      ((setAddrs g l).node? x).map f = (g.node? x).map f
  | _, [], _ => rfl
  | g, e :: l, x => by
    refine (map_node?_setAddrs f hf _ l x).trans ?_
    rw [Graph.node?_modifyNode]
    split
    · subst x
      rw [Option.map_map]
      exact congrArg (fun k => Option.map k _) (funext fun n => hf n e.2)
    · rfl

@[simp] theorem edges_setAddrs (g : Graph) (l : List (Nat × IndexPair)) :
    (setAddrs g l).edges = g.edges := by
  induction l generalizing g with
  | nil => rfl
  | cons e l ih => exact (ih _).trans (Graph.edges_modifyNode _ _ _)

theorem node?_setAddrs_of_not_mem {g : Graph} {l : List (Nat × IndexPair)} {x : Nat}
    (h : x ∉ l.map Prod.fst) : (setAddrs g l).node? x = g.node? x := by
  induction l generalizing g with
  | nil => rfl
  | cons e l ih =>
    simp only [List.map_cons, List.mem_cons, not_or] at h
    exact (ih h.2).trans (by rw [Graph.node?_modifyNode, if_neg h.1])

theorem node?_setAddrs_of_mem {g : Graph} {l : List (Nat × IndexPair)} {x : Nat}
    {ip : IndexPair} (hnd : (l.map Prod.fst).Nodup) (h : (x, ip) ∈ l) :
    (setAddrs g l).node? x = (g.node? x).map (·.setFinalizedAddr ip) := by
  induction l generalizing g with
  | nil => cases h
  | cons e l ih =>
    rw [List.map_cons, List.nodup_cons] at hnd
    rcases List.mem_cons.1 h with rfl | h
    · exact (node?_setAddrs_of_not_mem hnd.1).trans (by rw [Graph.node?_modifyNode, if_pos rfl])
    · have hx : x ≠ e.1 := fun hx => hnd.1 (hx ▸ List.mem_map_of_mem Prod.fst h)
      exact (ih hnd.2 h).trans (by rw [Graph.node?_modifyNode, if_neg hx])

theorem get_insertAddrs_of_not_mem {t : HashMap Nat IndexPair} {l : List (Nat × IndexPair)}
    {x : Nat} (h : x ∉ l.map Prod.fst) : (insertAddrs t l).get x = t.get x := by
  induction l generalizing t with
  | nil => rfl
  | cons e l ih =>
    simp only [List.map_cons, List.mem_cons, not_or] at h
    exact (ih h.2).trans (by rw [HashMap.get_insert, if_neg h.1])

theorem get_insertAddrs_of_mem {t : HashMap Nat IndexPair} {l : List (Nat × IndexPair)}
    {x : Nat} {ip : IndexPair} (hnd : (l.map Prod.fst).Nodup) (h : (x, ip) ∈ l) :
    (insertAddrs t l).get x = some ip := by
  induction l generalizing t with
  | nil => cases h
  | cons e l ih =>
    rw [List.map_cons, List.nodup_cons] at hnd
    rcases List.mem_cons.1 h with rfl | h
    · exact (get_insertAddrs_of_not_mem hnd.1).trans (by rw [HashMap.get_insert, if_pos rfl])
    · exact ih hnd.2 h

/-- Fresh keys are appended in order. -/
theorem entries_insertAddrs {t : HashMap Nat IndexPair} {l : List (Nat × IndexPair)}
    (hnd : (l.map Prod.fst).Nodup) (hfresh : ∀ x ∈ l.map Prod.fst, t.get x = none) :
    (insertAddrs t l).entries = t.entries ++ l := by
  induction l generalizing t with
  | nil => simp [insertAddrs]
  | cons e l ih =>
    rw [List.map_cons, List.nodup_cons] at hnd
    have he : t.get e.1 = none := hfresh e.1 (List.mem_cons_self _ _)
    have ih' : (insertAddrs (t.insert e.1 e.2) l).entries = (t.insert e.1 e.2).entries ++ l :=
      ih hnd.2 fun x hx => by
        rw [HashMap.get_insert, if_neg (fun (h : x = e.1) => hnd.1 (h ▸ hx))]
        exact hfresh x (List.mem_cons_of_mem _ hx)
    rw [insertAddrs, List.foldl_cons, ← insertAddrs, ih', HashMap.entries_insert_of_get_eq_none _ he]
    simp

/-! ## Addresses for every domain -/

/-- The remap table of domain `d`, empty when it has none yet. -/
def remapTable (m : ControllerInner) (d : Nat) : HashMap Nat IndexPair :=
  (m.remap.get d).getD HashMap.empty

/-- The addresses lines 461-490 give the groups, each domain's slots counted on from the size
    of its table. -/
def groupAddrs (m : ControllerInner) (groups : List (Nat × List Nat)) :
    List (Nat × IndexPair) :=
  groups.flatMap fun p => slotted (remapTable m p.1).len p.2

theorem map_fst_groupAddrs (m : ControllerInner) (groups : List (Nat × List Nat)) :
    (groupAddrs m groups).map Prod.fst = groups.flatMap Prod.snd := by
  simp [groupAddrs, List.map_flatMap]

theorem groupAddrs_congr {m m' : ControllerInner} {groups : List (Nat × List Nat)}
    (h : ∀ p ∈ groups, m'.remap.get p.1 = m.remap.get p.1) :
    groupAddrs m' groups = groupAddrs m groups := by
  unfold groupAddrs remapTable
  exact List.flatMap_congr fun p hp => by rw [h p hp]

/-- An overlay (lines 505-511) that returns, over entries with distinct keys, gives each
    original parent of an entry into `ni` its substitute's address and leaves every other
    lookup alone. -/
theorem overlaySwaps_get_of_eq_ok {inner : HashMap Nat IndexPair} {ni : Nat} :
    ∀ {l : List ((Nat × Nat) × Nat)} {remap r : HashMap Nat IndexPair}, (l.map Prod.fst).Nodup →
      overlaySwaps inner ni l remap = .ok r →
      (∀ e ∈ l, e.1.1 = ni → r.get e.1.2 = inner.get e.2) ∧
        ∀ x, (∀ e ∈ l, e.1 ≠ (ni, x)) → r.get x = remap.get x
  | [], _, _, _, h => by cases h; exact ⟨by simp, fun _ _ => rfl⟩
  | ((dst, src), instead) :: l, remap, r, hnd, h => by
    rw [List.map_cons, List.nodup_cons] at hnd
    dsimp only at hnd
    rw [overlaySwaps] at h
    split at h <;> rename_i hd
    · obtain ⟨hl, hx⟩ := overlaySwaps_get_of_eq_ok hnd.2 h
      refine ⟨fun e he hd' => ?_, fun x hne => hx x fun e he => hne e (List.mem_cons_of_mem _ he)⟩
      rcases List.mem_cons.1 he with rfl | he
      · exact absurd hd' hd
      · exact hl e he hd'
    · obtain ⟨ip, hip, h⟩ := bind_eq_ok.1 h
      obtain ⟨_, -, h⟩ := bind_eq_ok.1 h
      obtain ⟨hl, hx⟩ := overlaySwaps_get_of_eq_ok hnd.2 h
      rw [not_not] at hd
      subst hd
      -- no later entry into `dst` has original parent `src`
      have hsrc : ∀ e ∈ l, e.1 ≠ (dst, src) := fun e he hk =>
        hnd.1 (by rw [← hk]; exact List.mem_map_of_mem _ he)
      refine ⟨fun e he hd => ?_, fun x hne => ?_⟩
      · rcases List.mem_cons.1 he with rfl | he
        · rw [hx src hsrc, HashMap.get_insert, if_pos rfl, unwrapAt_eq_ok.1 hip]
        · exact hl e he hd
      · have hxs : x ≠ src := fun hxs => hne _ (List.mem_cons_self _ _) (by rw [hxs])
        rw [hx x fun e he => hne e (List.mem_cons_of_mem _ he), HashMap.get_insert, if_neg hxs]

/-- The overlay of a table by a swap table's entries into `ni`: each node `x` gets the address of
    its substitute for `ni`, or keeps its own. -/
theorem overlaySwaps_entries_get {inner r : HashMap Nat IndexPair} {ni : Nat} {T : SwapTable}
    (h : overlaySwaps inner ni T.entries inner = .ok r) (x : Nat) :
    r.get x = inner.get ((T.get (ni, x)).getD x) := by
  obtain ⟨hl, hx⟩ := overlaySwaps_get_of_eq_ok T.nodup h
  cases hs : T.get (ni, x) with
  | some y => exact hl ((ni, x), y) (HashMap.mem_entries.2 hs) rfl
  | none =>
    refine hx x fun e he hk => ?_
    rw [← hk, HashMap.mem_entries.1 he] at hs
    cases hs

/-- Lines 494-518 make one `on_commit` call for an internal node and none for another, with the
    domain's table overlaid by the swaps into the node. -/
theorem initNode_eq_ok {m : ControllerInner} {swapped : SwapTable} {domain ni : Nat} {n : Node}
    {evs : List Event} (h : initNode m swapped domain ni n = .ok evs) :
    ∀ ev ∈ evs, ∃ r, ev = .onCommit ni r ∧ n.isInternal = true ∧
      ∀ x, r.get x = (remapTable m domain).get ((swapped.get (ni, x)).getD x) := by
  unfold initNode at h
  split at h <;> rename_i hint
  · obtain ⟨inner, hinner, h⟩ := bind_eq_ok.1 h
    obtain ⟨r, hr, h⟩ := bind_eq_ok.1 h
    cases h
    have ht : remapTable m domain = inner := by
      rw [remapTable, unwrapAt_eq_ok.1 hinner, Option.getD_some]
    exact fun ev hev => ⟨r, List.mem_singleton.1 hev, hint, ht ▸ overlaySwaps_entries_get hr⟩
  · cases h; simp

/-- The events of lines 493-520 are the `on_commit` calls of the internal nodes among `nodes`,
    each with the domain's table overlaid by the swaps into the node. -/
theorem initNodes_onCommit {m : ControllerInner} {swapped : SwapTable} {domain : Nat} :
    ∀ {nodes : List Nat} {evs : List Event}, initNodes m swapped domain nodes = .ok evs →
      ∀ ev ∈ evs, ∃ ni r, ev = .onCommit ni r ∧ ni ∈ nodes ∧
        (m.ingredients.node? ni).map Node.isInternal = some true ∧
        ∀ x, r.get x = (remapTable m domain).get ((swapped.get (ni, x)).getD x)
  | [], _, h => by cases h; simp
  | ni :: rest, evs, h => by
    obtain ⟨n, hn, h⟩ := bind_eq_ok.1 h
    obtain ⟨ev, hev, h⟩ := bind_eq_ok.1 h
    obtain ⟨evs', hevs', h⟩ := bind_eq_ok.1 h
    cases h
    intro e he
    rcases List.mem_append.1 he with he | he
    · obtain ⟨r, rfl, hint, hr⟩ := initNode_eq_ok hev e he
      exact ⟨ni, r, rfl, List.mem_cons_self _ _,
        by rw [unwrapAt_eq_ok.1 hn, Option.map_some', hint], hr⟩
    · obtain ⟨ni', r, he, hmem, hint, hr⟩ := initNodes_onCommit hevs' e he
      exact ⟨ni', r, he, List.mem_cons_of_mem _ hmem, hint, hr⟩

/-- Lines 463-520 for one domain: its nodes get the slots after its table's last one, in the
    graph and, once there is a node, in its table, and are initialized; nothing else changes. -/
theorem assignDomain_spec {swapped : SwapTable} {d : Nat} {nodes : List Nat}
    {m m' : ControllerInner} {evs : List Event} (h : assignDomain swapped d nodes m = .ok (m', evs)) :
    m'.ingredients = setAddrs m.ingredients (slotted (remapTable m d).len nodes) ∧
    (∀ d', m'.remap.get d' = if d' = d ∧ nodes ≠ [] then
      some (insertAddrs (remapTable m d) (slotted (remapTable m d).len nodes))
      else m.remap.get d') ∧
    m'.source = m.source ∧ m'.sharding = m.sharding ∧ m'.domains = m.domains ∧
    ∀ ev ∈ evs, ∃ ni r, ev = .onCommit ni r ∧ ni ∈ nodes ∧
      (m.ingredients.node? ni).map Node.isInternal = some true ∧
      ∀ x, r.get x = (remapTable m' d).get ((swapped.get (ni, x)).getD x) := by
  unfold assignDomain at h
  split at h <;> rename_i hn
  · cases h
    rw [List.isEmpty_iff.1 hn]
    exact ⟨rfl, fun d' => by simp, rfl, rfl, rfl, by simp⟩
  · obtain ⟨m₁, h₁, h⟩ := bind_eq_ok.1 h
    obtain ⟨evs₁, hevs, h⟩ := bind_eq_ok.1 h
    cases h
    have hlen : ((m.remap.get d).map HashMap.len).getD 0 = (remapTable m d).len := by
      unfold remapTable; cases m.remap.get d <;> rfl
    rw [hlen] at h₁
    obtain ⟨hg, hr, hs, hsh, hd⟩ := assignLocal_spec h₁
    refine ⟨hg, hr, hs, hsh, hd, fun ev hev => ?_⟩
    obtain ⟨ni, r, he, hmem, hint, hr'⟩ := initNodes_onCommit hevs ev hev
    refine ⟨ni, r, he, hmem, ?_, hr'⟩
    rwa [← map_node?_setAddrs Node.isInternal (fun _ _ => rfl) _ (slotted (remapTable m d).len nodes),
      ← hg]

/-- Lines 461-521 over the groups of distinct domains: every domain with nodes gets them at the
    slots after its table's last one, in the graph and in its table; the other tables, the
    domains and the source stay; and the events are the `on_commit` calls of the internal nodes
    of the groups, each with its domain's final table overlaid by the swaps into it. -/
theorem assignAddresses_spec {swapped : SwapTable} :
    ∀ {groups : List (Nat × List Nat)} {m m' : ControllerInner} {evs : List Event},
      (groups.map Prod.fst).Nodup → assignAddresses swapped groups m = .ok (m', evs) →
      m'.ingredients = setAddrs m.ingredients (groupAddrs m groups) ∧
      (∀ d nodes, (d, nodes) ∈ groups → nodes ≠ [] →
        m'.remap.get d = some (insertAddrs (remapTable m d) (slotted (remapTable m d).len nodes))) ∧
      (∀ d, (∀ nodes, (d, nodes) ∈ groups → nodes = []) → m'.remap.get d = m.remap.get d) ∧
      m'.source = m.source ∧ m'.sharding = m.sharding ∧ m'.domains = m.domains ∧
      ∀ ev ∈ evs, ∃ d nodes ni r, (d, nodes) ∈ groups ∧ ni ∈ nodes ∧ ev = .onCommit ni r ∧
        (m.ingredients.node? ni).map Node.isInternal = some true ∧
        ∀ x, r.get x = (remapTable m' d).get ((swapped.get (ni, x)).getD x)
  | [], _, _, _, _, h => by
    cases h
    exact ⟨rfl, by simp, fun _ _ => rfl, rfl, rfl, rfl, by simp⟩
  | (d, nodes) :: rest, m, m', evs, hnd, h => by
    rw [List.map_cons, List.nodup_cons] at hnd
    rw [assignAddresses] at h
    obtain ⟨⟨m₁, evs₁⟩, h₁, h⟩ := bind_eq_ok.1 h
    obtain ⟨⟨m₂, evs₂⟩, h₂, h⟩ := bind_eq_ok.1 h
    cases h
    have hrest : ∀ p ∈ rest, p.1 ≠ d := fun p hp hpd => hnd.1 (List.mem_map.2 ⟨p, hp, hpd⟩)
    obtain ⟨hg₂, hr₂, hk₂, hs₂, hsh₂, hd₂, hev₂⟩ := assignAddresses_spec hnd.2 h₂
    obtain ⟨hg₁, hr₁, hs₁, hsh₁, hd₁, hev₁⟩ := assignDomain_spec h₁
    have hsame : ∀ p ∈ rest, m₁.remap.get p.1 = m.remap.get p.1 := fun p hp => by
      rw [hr₁, if_neg fun h => hrest p hp h.1]
    have hkeep : m'.remap.get d = m₁.remap.get d := hk₂ d fun nodes' h => absurd rfl (hrest _ h)
    refine ⟨?_, fun d' nodes' hmem hne => ?_, fun d' hnone => ?_, hs₂.trans hs₁, hsh₂.trans hsh₁,
      hd₂.trans hd₁, fun ev hev => ?_⟩
    · rw [hg₂, hg₁, groupAddrs_congr hsame]
      simp only [groupAddrs, List.flatMap_cons, setAddrs, List.foldl_append]
    · rcases List.mem_cons.1 hmem with hmem | hmem
      · cases hmem
        rw [hkeep, hr₁, if_pos ⟨rfl, hne⟩]
      · have hd' := hrest _ hmem
        rw [hr₂ d' nodes' hmem hne]
        unfold remapTable
        rw [hr₁, if_neg fun h => hd' h.1]
    · rw [hk₂ d' fun nodes' h => hnone nodes' (List.mem_cons_of_mem _ h), hr₁]
      split_ifs with hd'
      · exact absurd (hnone nodes (hd'.1 ▸ List.mem_cons_self _ _)) hd'.2
      · rfl
    · rcases List.mem_append.1 hev with hev | hev
      · obtain ⟨ni, r, he, hmem, hint, hr⟩ := hev₁ ev hev
        refine ⟨d, nodes, ni, r, List.mem_cons_self _ _, hmem, he, hint, fun x => ?_⟩
        rw [hr, remapTable, remapTable, hkeep]
      · obtain ⟨d', nodes', ni, r, hmem, hni, he, hint, hr⟩ := hev₂ ev hev
        refine ⟨d', nodes', ni, r, List.mem_cons_of_mem _ hmem, hni, he, ?_, hr⟩
        rwa [hg₁, map_node?_setAddrs Node.isInternal (fun _ _ => rfl)] at hint

/-! ## Where the address loop can panic -/

/-- The overlay of lines 503-511 panics only when a substitute has no address in the domain
    (line 509) or overrides a parent already remapped (line 510). -/
theorem overlaySwaps_error {inner : HashMap Nat IndexPair} {ni : Nat} :
    ∀ {l : List ((Nat × Nat) × Nat)} {remap : HashMap Nat IndexPair} {p : Panic},
      overlaySwaps inner ni l remap = .error p → p.line = 509 ∨ p.line = 510
  | [], _, _, h => by cases h
  | ((dst, src), instead) :: rest, remap, p, h => by
    rw [overlaySwaps] at h
    split at h
    · exact overlaySwaps_error h
    · rcases bind_eq_error.1 h with h | ⟨ip, -, h⟩
      · exact .inl (congrArg Panic.line (unwrapAt_eq_error.1 h).2)
      · rcases bind_eq_error.1 h with h | ⟨_, -, h⟩
        · exact .inr (congrArg Panic.line (assertAt_eq_error.1 h).2)
        · exact overlaySwaps_error h

/-- Lines 493-520 on existing nodes of a domain with a remap table panic only in the overlay. -/
theorem initNodes_error {m : ControllerInner} {swapped : SwapTable} {domain : Nat}
    (hr : (m.remap.get domain).isSome) :
    ∀ {nodes : List Nat} {p : Panic}, (∀ x ∈ nodes, x < m.ingredients.nodeCount) →
      initNodes m swapped domain nodes = .error p → p.line = 509 ∨ p.line = 510
  | [], _, _, h => by cases h
  | ni :: rest, p, hn, h => by
    obtain ⟨n, hn'⟩ := Option.isSome_iff_exists.1
      (Graph.node?_isSome_iff.2 (hn ni (List.mem_cons_self _ _)))
    obtain ⟨inner, hinner⟩ := Option.isSome_iff_exists.1 hr
    rw [initNodes, hn', unwrapAt_some, ok_bind] at h
    rcases bind_eq_error.1 h with h | ⟨ev, -, h⟩
    · unfold initNode at h
      split at h
      · rw [hinner, unwrapAt_some, ok_bind] at h
        rcases bind_eq_error.1 h with h | ⟨_, -, h⟩
        · exact overlaySwaps_error h
        · cases h
      · cases h
    · rcases bind_eq_error.1 h with h | ⟨_, -, h⟩
      · exact initNodes_error hr (fun x hx => hn x (List.mem_cons_of_mem _ hx)) h
      · cases h

/-- Lines 472-490 on existing nodes never panic. -/
theorem assignLocal_ne_error {d : Nat} :
    ∀ {nnodes : Nat} {nodes : List Nat} {m : ControllerInner} {p : Panic},
      (∀ x ∈ nodes, x < m.ingredients.nodeCount) → assignLocal d nnodes nodes m ≠ .error p
  | _, [], _, _, _, h => by cases h
  | nnodes, ni :: rest, m, p, hn, h => by
    obtain ⟨n, hn'⟩ := Option.isSome_iff_exists.1
      (Graph.node?_isSome_iff.2 (hn ni (List.mem_cons_self _ _)))
    rw [assignLocal, hn', unwrapAt_some, ok_bind] at h
    exact assignLocal_ne_error (fun x hx => by simpa using hn x (List.mem_cons_of_mem _ hx)) h

/-- Lines 461-521 on existing nodes panic only in the overlay of a node's swaps. -/
theorem assignAddresses_error {swapped : SwapTable} :
    ∀ {groups : List (Nat × List Nat)} {m : ControllerInner} {p : Panic},
      (∀ g ∈ groups, ∀ x ∈ g.2, x < m.ingredients.nodeCount) →
      assignAddresses swapped groups m = .error p → p.line = 509 ∨ p.line = 510
  | [], _, _, _, h => by cases h
  | (d, nodes) :: rest, m, p, hn, h => by
    have hn₀ := hn _ (List.mem_cons_self _ _)
    rw [assignAddresses] at h
    rcases bind_eq_error.1 h with h | ⟨⟨m₁, evs₁⟩, h₁, h⟩
    · unfold assignDomain at h
      split at h <;> rename_i hne
      · cases h
      · rcases bind_eq_error.1 h with h | ⟨m₂, h₂, h⟩
        · exact absurd h (assignLocal_ne_error hn₀)
        · rcases bind_eq_error.1 h with h | ⟨_, -, h⟩
          · obtain ⟨hg₂, hr₂, -⟩ := assignLocal_spec h₂
            have hnn : nodes ≠ [] := fun h => hne (by rw [h]; rfl)
            exact initNodes_error (by rw [hr₂, if_pos ⟨rfl, hnn⟩]; rfl)
              (fun x hx => by rw [hg₂, nodeCount_setAddrs]; exact hn₀ x hx) h
          · cases h
    · obtain ⟨hg₁, -⟩ := assignDomain_spec h₁
      rcases bind_eq_error.1 h with h | ⟨_, -, h⟩
      · exact assignAddresses_error (fun g hg x hx => by
          rw [hg₁, nodeCount_setAddrs]; exact hn g (List.mem_cons_of_mem _ hg) x hx) h
      · cases h

/-- Lines 523-525 panic only at line 524. -/
theorem validateSharding_error {passes : Passes} {m : ControllerInner} {new : HashSet Nat}
    {p : Panic} (h : validateSharding passes m new = .error p) : p.line = 524 := by
  unfold validateSharding at h
  split at h
  · exact congrArg Panic.line (assertAt_eq_error.1 h).2
  · cases h

/-! ## Booting domains -/

/-- Lines 560-579 over distinct domains that, when not running, have a nonempty node list
    whose first node exists return; each domain that was not running is placed once with its
    node list and leaves the uninformed map (what else changes: `bootDomains_frame`). -/
theorem bootDomains_spec :
    ∀ {changed : List Nat} {m : ControllerInner} {u : HashMap Nat (List (Nat × Bool))},
      changed.Nodup →
      (∀ d ∈ changed, m.domains.containsKey d = false →
        ∃ x xs, u.get d = some (x :: xs) ∧ (m.ingredients.node? x.1).isSome) →
      ∃ m' u' evs, bootDomains m u changed = .ok (m', u', evs) ∧
        (∀ d, u'.get d = if d ∈ changed ∧ m.domains.containsKey d = false then none
          else u.get d) ∧
        List.Forall₂ (fun d ev => ∃ shards, ev = .placeDomain d shards ((u.get d).getD []))
          (changed.filter fun d => !m.domains.containsKey d) evs
  | [], m, u, _, _ => ⟨m, u, [], rfl, by simp, .nil⟩
  | d :: rest, m, u, hnd, h => by
    rw [List.nodup_cons] at hnd
    have hfilter : ∀ dom : HashMap Nat DomainHandle, (∀ d' ∈ rest, dom.containsKey d' =
        m.domains.containsKey d') →
        rest.filter (fun d' => !dom.containsKey d') = rest.filter fun d' => !m.domains.containsKey d' :=
      fun dom hdom => List.filter_congr fun d' hd' => by rw [hdom d' hd']
    cases hreg : m.domains.containsKey d
    · -- `d` is booted with the nodes grouped under it
      obtain ⟨x, xs, hu, hx⟩ := h d (List.mem_cons_self _ _) hreg
      obtain ⟨n, hn⟩ := Option.isSome_iff_exists.1 hx
      have hreg' : ∀ d' ∈ rest, (m.domains.insert d ⟨d, n.shardedBy.shards⟩).containsKey d' =
          m.domains.containsKey d' := fun d' hd' => by
        have hne : d' ≠ d := fun h => hnd.1 (h ▸ hd')
        simp [HashMap.containsKey, hne]
      obtain ⟨m', u', evs, hb, hu', hev⟩ :=
        @bootDomains_spec rest { m with domains := m.domains.insert d ⟨d, n.shardedBy.shards⟩ }
          (u.remove d).2 hnd.2 fun d' hd' hr => by
            have hne : d' ≠ d := fun h => hnd.1 (h ▸ hd')
            rw [HashMap.get_remove, if_neg hne]
            exact h d' (List.mem_cons_of_mem _ hd') (by rwa [← hreg' d' hd'])
      refine ⟨m', u', .placeDomain d n.shardedBy.shards (x :: xs) :: evs, ?_, fun d' => ?_, ?_⟩
      · simp [bootDomains, hreg, hu, hn, hb]
      · rw [hu']
        by_cases hd' : d' = d
        · subst hd'; simp [hnd.1, hreg]
        · simp [hd', HashMap.containsKey]
      · rw [List.filter_cons_of_pos (by simp [hreg]), ← hfilter _ hreg']
        refine .cons ⟨n.shardedBy.shards, by rw [hu]; rfl⟩ (((List.forall₂_and_left _ _).2
          ⟨fun d' hd' (h : d' = d) => hnd.1 (h ▸ (List.mem_filter.1 hd').1), hev⟩).imp ?_)
        rintro d' ev ⟨hne, shards, rfl⟩
        exact ⟨shards, by rw [HashMap.get_remove, if_neg hne]⟩
    · -- `d` is already running
      obtain ⟨m', u', evs, hb, hu', hev⟩ := @bootDomains_spec rest m u hnd.2
        fun d' hd' => h d' (List.mem_cons_of_mem _ hd')
      refine ⟨m', u', evs, by simp [bootDomains, hreg, hb], fun d' => ?_, ?_⟩
      · rw [hu']
        by_cases hd' : d' = d
        · subst hd'; simp [hnd.1, hreg]
        · simp [hd']
      · rwa [List.filter_cons_of_neg (by simp [hreg])]

/-- A boot loop that returns only registers domains, among them every one it was handed, and
    emits only `place_domain` calls. -/
theorem bootDomains_frame :
    ∀ {changed : List Nat} {m m' : ControllerInner} {u u' : HashMap Nat (List (Nat × Bool))}
      {evs : List Event}, bootDomains m u changed = .ok (m', u', evs) →
      m' = { m with domains := m'.domains } ∧
      (∀ d, (m'.domains.get d).isSome ↔ (m.domains.get d).isSome ∨ d ∈ changed) ∧
      ∀ ev ∈ evs, ∃ d shards nodes, ev = .placeDomain d shards nodes
  | [], _, _, _, _, _, h => by
    cases h
    exact ⟨rfl, fun _ => (or_iff_left (List.not_mem_nil _)).symm, fun _ h => nomatch h⟩
  | d :: rest, m, m', u, u', evs, h => by
    rw [bootDomains] at h
    split at h <;> rename_i hreg
    · obtain ⟨hm, hdom, hev⟩ := bootDomains_frame h
      refine ⟨hm, fun d' => ?_, hev⟩
      rw [hdom, List.mem_cons]
      by_cases hd : d' = d
      · subst hd
        simp [HashMap.containsKey] at hreg
        simp [hreg]
      · simp [hd]
    · obtain ⟨nodes, -, h⟩ := bind_eq_ok.1 h
      obtain ⟨first, -, h⟩ := bind_eq_ok.1 h
      obtain ⟨n, -, h⟩ := bind_eq_ok.1 h
      obtain ⟨⟨m₂, u₂, evs₂⟩, h₂, h⟩ := bind_eq_ok.1 h
      cases h
      obtain ⟨hm, hdom, hev⟩ := bootDomains_frame h₂
      refine ⟨hm, fun d' => ?_, ?_⟩
      · rw [hdom, List.mem_cons]
        by_cases hd : d' = d
        · subst hd; simp
        · simp [hd]
      · rintro ev (_ | ⟨_, hev'⟩)
        · exact ⟨_, _, _, rfl⟩
        · exact hev ev hev'

/-! ## The whole commit -/

/-- What a node placement that returns did, step by step. -/
theorem commitNodes_eq_ok {passes : Passes} {c : ControllerInner} {new : HashSet Nat}
    {swapped0 swapped1 : SwapTable} {s' : ControllerInner} {evs evs' : List Event}
    {u' : HashMap Nat (List (Nat × Bool))}
    (h : commitNodes passes c new swapped0 swapped1 = .ok (s', evs, evs', u')) :
    ∃ cd dn m₁ u,
      changedDomains c.ingredients (sortedNew new) = .ok cd ∧
      domainNewNodes c.ingredients c.source (sortedNew new) = .ok dn ∧
      assignAddresses (mergeSwaps c.ingredients swapped0 swapped1) dn.entries c = .ok (m₁, evs) ∧
      validateSharding passes m₁ new = .ok () ∧
      uninformedDomainNodes m₁ new = .ok u ∧
      bootDomains m₁ u cd.elems = .ok (s', u', evs') := by
  obtain ⟨cd, hcd, h⟩ := bind_eq_ok.1 h
  obtain ⟨dn, hdn, h⟩ := bind_eq_ok.1 h
  obtain ⟨⟨m₁, evs₁⟩, h₁, h⟩ := bind_eq_ok.1 h
  obtain ⟨⟨⟩, hv, h⟩ := bind_eq_ok.1 h
  obtain ⟨u, hu, h⟩ := bind_eq_ok.1 h
  obtain ⟨⟨m₂, u₂, evs₂⟩, h₂, h⟩ := bind_eq_ok.1 h
  cases h
  exact ⟨cd, dn, m₁, u, hcd, hdn, h₁, hv, hu, h₂⟩

/-- A commit that returns placed its nodes, then sent the column changes. -/
theorem commitRouted_eq_ok {passes : Passes} {c : ControllerInner} {new : HashSet Nat}
    {swapped0 swapped1 : SwapTable} {columns : List (Nat × ColumnChange)} {s' : ControllerInner}
    {evs : List Event} (h : commitRouted passes c new swapped0 swapped1 columns = .ok (s', evs)) :
    ∃ evs₁ evs₂ u evs₃, commitNodes passes c new swapped0 swapped1 = .ok (s', evs₁, evs₂, u) ∧
      propagateColumns s' columns = .ok evs₃ ∧
      evs = evs₁ ++ evs₂ ++ [.inform u] ++ evs₃ ++ [.connect, .commitMaterializations] := by
  obtain ⟨⟨m, evs₁, evs₂, u⟩, h₁, h⟩ := bind_eq_ok.1 h
  obtain ⟨evs₃, h₃, h⟩ := bind_eq_ok.1 h
  cases h
  exact ⟨evs₁, evs₂, u, evs₃, h₁, h₃, rfl⟩

/-- The groups lines 450-458 hand the address loop: one per domain with new nodes. -/
theorem mem_entries_domainNewNodes {g : Graph} {source : Nat} {new : HashSet Nat}
    {dn : HashMap Nat (List Nat)} (h : domainNewNodes g source (sortedNew new) = .ok dn)
    {d : Nat} {nodes : List Nat} :
    (d, nodes) ∈ dn.entries ↔ newNodesOf g source new d ≠ [] ∧ nodes = newNodesOf g source new d := by
  rw [HashMap.mem_entries, domainNewNodes_get h]
  split_ifs with hd
  · simp [hd]
  · simp [hd, eq_comm]

/-- No node is in two groups, nor twice in one. -/
theorem nodup_groupAddrs {m : ControllerInner} {g : Graph} {source : Nat} {new : HashSet Nat}
    {dn : HashMap Nat (List Nat)} (h : domainNewNodes g source (sortedNew new) = .ok dn) :
    ((groupAddrs m dn.entries).map Prod.fst).Nodup := by
  rw [map_fst_groupAddrs, List.nodup_flatMap]
  have hg : ∀ p ∈ dn.entries, p.2 = newNodesOf g source new p.1 :=
    fun p hp => ((mem_entries_domainNewNodes h).1 hp).2
  refine ⟨fun p hp => hg p hp ▸ (sorted_newNodesOf g source new p.1).nodup,
    (List.pairwise_map.1 dn.nodup).imp_of_mem fun hp hq hne x hx hy => hne ?_⟩
  rw [hg _ hp, mem_newNodesOf] at hx
  rw [hg _ hq, mem_newNodesOf] at hy
  exact Option.some_injective _ (hx.2.2.symm.trans hy.2.2)

/-- A node placement that returns, from the controller `c` routing left: each domain's new
    nodes get the slots after its table's last one, in the graph and in the table; the other
    nodes and tables, the source and the sharding stay; and every domain with a new node is
    registered. -/
theorem commitNodes_state {passes : Passes} {c : ControllerInner} {new : HashSet Nat}
    {swapped0 swapped1 : SwapTable} {s' : ControllerInner} {evs evs' : List Event}
    {u' : HashMap Nat (List (Nat × Bool))}
    (h : commitNodes passes c new swapped0 swapped1 = .ok (s', evs, evs', u')) :
    s'.ingredients.nodeCount = c.ingredients.nodeCount ∧
    s'.ingredients.edges = c.ingredients.edges ∧
    (∀ d x ip, (x, ip) ∈ slotted (remapTable c d).len (newNodesOf c.ingredients c.source new d) →
      s'.ingredients.node? x = (c.ingredients.node? x).map (·.setFinalizedAddr ip)) ∧
    (∀ x, (∀ d, x ∉ newNodesOf c.ingredients c.source new d) →
      s'.ingredients.node? x = c.ingredients.node? x) ∧
    (∀ d, s'.remap.get d = if newNodesOf c.ingredients c.source new d = [] then c.remap.get d
      else some (insertAddrs (remapTable c d)
        (slotted (remapTable c d).len (newNodesOf c.ingredients c.source new d)))) ∧
    s'.source = c.source ∧ s'.sharding = c.sharding ∧
    ∀ d, (s'.domains.get d).isSome ↔
      (c.domains.get d).isSome ∨ ∃ ni ∈ new.elems, placedIn c.ingredients ni = some d := by
  obtain ⟨cd, dn, m₁, u, hcd, hdn, h₁, -, -, h₂⟩ := commitNodes_eq_ok h
  obtain ⟨hg₁, hr₁, hk₁, hs₁, hsh₁, hd₁, -⟩ := assignAddresses_spec dn.nodup h₁
  obtain ⟨hm₂, hd₂, -⟩ := bootDomains_frame h₂
  have hg : s'.ingredients = setAddrs c.ingredients (groupAddrs c dn.entries) := by
    rw [hm₂]; exact hg₁
  refine ⟨by rw [hg, nodeCount_setAddrs], by rw [hg, edges_setAddrs],
    fun d x ip hx => ?_, fun x hx => ?_, fun d => ?_, by rw [hm₂]; exact hs₁,
    by rw [hm₂]; exact hsh₁, fun d => ?_⟩
  · have hne : newNodesOf c.ingredients c.source new d ≠ [] := by
      rintro hnil; rw [hnil] at hx; cases hx
    rw [hg]
    exact node?_setAddrs_of_mem (nodup_groupAddrs hdn) (List.mem_flatMap.2
      ⟨_, (mem_entries_domainNewNodes hdn).2 ⟨hne, rfl⟩, hx⟩)
  · rw [hg]
    refine node?_setAddrs_of_not_mem fun hmem => ?_
    rw [map_fst_groupAddrs, List.mem_flatMap] at hmem
    obtain ⟨⟨d, nodes⟩, hp, hxn⟩ := hmem
    rw [((mem_entries_domainNewNodes hdn).1 hp).2] at hxn
    exact hx d hxn
  · have hr : s'.remap = m₁.remap := by rw [hm₂]
    rw [hr]
    split_ifs with hd
    · exact hk₁ d fun nodes hp => absurd ((mem_entries_domainNewNodes hdn).1 hp).1 (by simp [hd])
    · exact hr₁ d _ ((mem_entries_domainNewNodes hdn).2 ⟨hd, rfl⟩) hd
  · rw [hd₂, hd₁, mem_changedDomains hcd]
    simp only [mem_sortedNew]

/-- The new nodes' addresses are all a commit that returns changes of the nodes. -/
theorem map_node?_commitNodes {β : Type} (f : Node → β)
    (hf : ∀ n ip, f (n.setFinalizedAddr ip) = f n) {passes : Passes} {c : ControllerInner}
    {new : HashSet Nat} {swapped0 swapped1 : SwapTable} {s' : ControllerInner}
    {evs evs' : List Event} {u' : HashMap Nat (List (Nat × Bool))}
    (h : commitNodes passes c new swapped0 swapped1 = .ok (s', evs, evs', u')) (x : Nat) :
    (s'.ingredients.node? x).map f = (c.ingredients.node? x).map f := by
  obtain ⟨cd, dn, m₁, u, -, -, h₁, -, -, h₂⟩ := commitNodes_eq_ok h
  obtain ⟨hg₁, -⟩ := assignAddresses_spec dn.nodup h₁
  obtain ⟨hm₂, -⟩ := bootDomains_frame h₂
  rw [hm₂]
  exact (congrArg (fun g : Graph => (g.node? x).map f) hg₁).trans (map_node?_setAddrs f hf _ _ x)

end Noria
