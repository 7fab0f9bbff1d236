import NoriaMigrate.Spec.Controller

/-!
# The controller invariant

What holds of every state a controller reaches by migrations.

* `PlacesNodes.spec`: what one migration does to the controller, read off the spec lemmas of the
  passes (`routeMigration_spec`) and of the commit (`commitNodes_state`).
* `ControllerInv`: the source is node `source`, not a base and in no domain, and no edge enters
  it; every other node that is not dropped sits in a registered domain; each domain's remap table
  holds exactly that domain's nodes, at the slots `0`, `1`, ... in the order they were given,
  each with the address recorded in the node.
* `ControllerInv.migrate`, `Reachable.inv`: migrations keep it, so every reachable state has it.
* `remap_dense_of_reachable`: the remap tables of a reachable state map their nodes one to one
  onto the slots below their size, and each commit appends the new nodes of a domain, in index
  order, at the slots after the table's last one.
-/

namespace Noria

/-! ## Where a node is placed -/

theorem placedIn_eq_some {g : Graph} {x d : Nat} :
    placedIn g x = some d ↔ ∃ n, g.node? x = some n ∧ n.isDropped = false ∧ n.domain = some d := by
  unfold placedIn
  cases g.node? x with
  | none => simp
  | some n => cases hn : n.isDropped <;> simp [hn]

theorem lt_of_placedIn_eq_some {g : Graph} {x d : Nat} (h : placedIn g x = some d) :
    x < g.nodeCount := by
  obtain ⟨n, hn, -⟩ := placedIn_eq_some.1 h
  exact Graph.node?_isSome_iff.1 (by rw [hn]; rfl)

/-- `placedIn` reads a node only through `f`. -/
theorem placedIn_congr {β : Type} (f : Node → β) (φ : β → Option Nat)
    (hφ : ∀ n, φ (f n) = if n.isDropped then none else n.domain) {g g' : Graph} {x : Nat}
    (h : (g'.node? x).map f = (g.node? x).map f) : placedIn g' x = placedIn g x := by
  have key : ∀ G : Graph, placedIn G x = ((G.node? x).map f).bind φ := fun G => by
    unfold placedIn
    cases G.node? x <;> simp [hφ]
  rw [key, key, h]

/-- A node placement moves no node to another domain: it only records addresses. -/
theorem placedIn_commitNodes {passes : Passes} {c : ControllerInner} {new : HashSet Nat}
    {swapped0 swapped1 : SwapTable} {s' : ControllerInner} {evs evs' : List Event}
    {u' : HashMap Nat (List (Nat × Bool))}
    (h : commitNodes passes c new swapped0 swapped1 = .ok (s', evs, evs', u')) (x : Nat) :
    placedIn s'.ingredients x = placedIn c.ingredients x :=
  placedIn_congr _ (fun p => if p.2 then none else p.1) (fun _ => rfl)
    (map_node?_commitNodes (fun n => (n.domain, n.isDropped)) (fun _ _ => rfl) h x)

/-! ## One migration -/

/-- The controller invariant. -/
structure ControllerInv (s : ControllerInner) : Prop where
  source_lt : s.source < s.ingredients.nodeCount
  source_not_base : ∀ n, s.ingredients.node? s.source = some n → n.isBase = false
  no_edge_into_source : ∀ e ∈ s.ingredients.edges, e.2 ≠ s.source
  source_unplaced : placedIn s.ingredients s.source = none
  placed : ∀ ni n, s.ingredients.node? ni = some n → ni ≠ s.source → n.isDropped = false →
    ∃ d, n.domain = some d ∧ (s.domains.get d).isSome
  remap_slots : ∀ d, (remapTable s d).entries = slotted 0 (remapTable s d).keys
  mem_remap : ∀ d x, x ∈ (remapTable s d).keys ↔ x ≠ s.source ∧ placedIn s.ingredients x = some d
  remap_index : ∀ d x ip, (remapTable s d).get x = some ip →
    ∃ n, s.ingredients.node? x = some n ∧ n.index = some ip

/-- A migration from `s` run up to where commit sends the column changes (lines 361-583): its
    nodes are placed and its domains booted, leaving the controller `s'`. -/
def PlacesNodes (s s' : ControllerInner) : Prop :=
  ∃ (passes : Passes) (toString : DataType → String) (context : HashMap String DataType)
    (calls : List BuilderCall) (m : Migration) (evs evs' : List Event)
    (u : HashMap Nat (List (Nat × Bool))),
    passes.Lawful ∧ runCalls toString (Migration.start s context) calls = .ok m ∧
    commitNodes passes (routeMigration passes m).1 (routeMigration passes m).2.1
      (routeMigration passes m).2.2.1 (routeMigration passes m).2.2.2 = .ok (s', evs, evs', u)

/-- A migration's state is the one its node placement left. -/
theorem Migrates.placesNodes {s s' : ControllerInner} (h : Migrates s s') : PlacesNodes s s' := by
  obtain ⟨passes, toString, context, calls, m, evs, hp, hm, hc⟩ := h
  obtain ⟨evs₁, evs₂, u, -, h₁, -⟩ := commitRouted_eq_ok hc
  exact ⟨passes, toString, context, calls, m, evs₁, evs₂, u, hp, hm, h₁⟩

/-- What one migration from `s` does, up to the column changes: it creates the nodes from
    `s`'s node count on, gives the ones that are not dropped a domain and registers it, appends
    each domain's new nodes, in index order, to its remap table at the slots after the table's
    last one, with the same addresses in the nodes, and keeps the placement of the older nodes
    and the edges into the source. -/
theorem PlacesNodes.spec {s s' : ControllerInner} (hi : ControllerInv s) (h : PlacesNodes s s') :
    s'.source = s.source ∧ s.ingredients.nodeCount ≤ s'.ingredients.nodeCount ∧
    (∀ x < s.ingredients.nodeCount,
      (s'.ingredients.node? x).map Node.placement = (s.ingredients.node? x).map Node.placement) ∧
    (∀ x n, s.ingredients.nodeCount ≤ x → s'.ingredients.node? x = some n →
      n.isDropped = false → n.domain.isSome) ∧
    (∀ e ∈ s'.ingredients.edges, e.2 = s.source → e ∈ s.ingredients.edges) ∧
    (∀ d, (s'.domains.get d).isSome ↔ (s.domains.get d).isSome ∨
      ∃ x, s.ingredients.nodeCount ≤ x ∧ placedIn s'.ingredients x = some d) ∧
    ∃ fresh : Nat → List Nat, (∀ d, (fresh d).Sorted (· < ·)) ∧
      (∀ d x, x ∈ fresh d ↔ s.ingredients.nodeCount ≤ x ∧ x < s'.ingredients.nodeCount ∧
        placedIn s'.ingredients x = some d) ∧
      (∀ d x ip, (x, ip) ∈ slotted (remapTable s d).len (fresh d) →
        ∃ n, s'.ingredients.node? x = some n ∧ n.index = some ip) ∧
      ∀ d, (remapTable s' d).entries =
        (remapTable s d).entries ++ slotted (remapTable s d).len (fresh d) := by
  obtain ⟨passes, toString, context, calls, m, evs, evs', u, hp, hm, hc⟩ := h
  obtain ⟨hsrc, -, hdom, hremap, hpf, hnewdom⟩ := routeMigration_spec hp
    (runCalls_builderFrame (BuilderFrame.refl s) hm)
    (runCalls_builderInv (BuilderInv.start s context) hm) hi.source_lt
  obtain ⟨hcount, hedges, hnew, hold, hremap', hsrc', -, hdom'⟩ := commitNodes_state hc
  set c := (routeMigration passes m).1
  set new := (routeMigration passes m).2.1
  have hsite := map_node?_commitNodes (fun n => (n.domain, n.isDropped)) (fun _ _ => rfl) hc
  have hplaced := placedIn_commitNodes hc
  have hmem : ∀ d x, x ∈ newNodesOf c.ingredients c.source new d ↔
      s.ingredients.nodeCount ≤ x ∧ x < s'.ingredients.nodeCount ∧
        placedIn s'.ingredients x = some d := fun d x => by
    rw [mem_newNodesOf, hpf.new_iff, hplaced, hcount, hsrc]
    have := hi.source_lt
    constructor
    · rintro ⟨hx, -, hp⟩; exact ⟨hx.1, hx.2, hp⟩
    · rintro ⟨h₁, h₂, hp⟩; exact ⟨⟨h₁, h₂⟩, by omega, hp⟩
  have htable : ∀ d, remapTable c d = remapTable s d := fun d => by
    unfold remapTable; rw [hremap]
  refine ⟨hsrc'.trans hsrc, hcount ▸ hpf.le_nodeCount, fun x hx => ?_, fun x n hx hn hdrop => ?_,
    fun e he hes => hpf.source_edges e (hedges ▸ he) hes, fun d => ?_,
    fun d => newNodesOf c.ingredients c.source new d,
    fun d => sorted_newNodesOf _ _ _ d, hmem, fun d x ip hx => ?_, fun d => ?_⟩
  · rw [hold x fun d hxd => by have := ((hmem d x).1 hxd).1; omega]
    exact hpf.placement x hx
  · have h₁ := hsite x
    rw [hn] at h₁
    obtain ⟨n₀, hn₀, hd₀⟩ := Option.map_eq_some'.1 h₁.symm
    simp only [Prod.mk.injEq] at hd₀
    rw [← hd₀.1]
    exact hnewdom x n₀ hx hn₀ (hd₀.2.trans hdrop)
  · rw [hdom', hdom]
    refine or_congr_right ⟨fun ⟨x, hx, hp⟩ => ?_, fun ⟨x, hx, hp⟩ => ?_⟩
    · have := (hpf.new_iff x).1 hx
      exact ⟨x, this.1, (hplaced x).trans hp⟩
    · exact ⟨x, (hpf.new_iff x).2 ⟨hx, hcount ▸ lt_of_placedIn_eq_some hp⟩, (hplaced x).symm.trans hp⟩
  · rw [← htable] at hx
    obtain ⟨-, hlt, -⟩ := (hmem d x).1 (by simpa using List.mem_map_of_mem Prod.fst hx)
    obtain ⟨n₀, hn₀⟩ := Option.isSome_iff_exists.1 (Graph.node?_isSome_iff.2 (hcount ▸ hlt))
    exact ⟨_, by rw [hnew d x ip hx, hn₀]; rfl, rfl⟩
  · have hfresh : ∀ x ∈ (slotted (remapTable s d).len (newNodesOf c.ingredients c.source new d)).map
        Prod.fst, (remapTable s d).get x = none := fun x hx => by
      rw [map_fst_slotted] at hx
      refine HashMap.get_eq_none_iff.2 fun hk => ?_
      have h₁ := lt_of_placedIn_eq_some ((hi.mem_remap d x).1 hk).2
      have h₂ := ((hmem d x).1 hx).1
      omega
    have hnd : ((slotted (remapTable s d).len (newNodesOf c.ingredients c.source new d)).map
        Prod.fst).Nodup := by
      rw [map_fst_slotted]; exact (sorted_newNodesOf c.ingredients c.source new d).nodup
    have ht : remapTable s' d = if newNodesOf c.ingredients c.source new d = [] then
        remapTable s d else insertAddrs (remapTable s d)
          (slotted (remapTable s d).len (newNodesOf c.ingredients c.source new d)) := by
      rw [← htable]
      unfold remapTable
      rw [hremap' d]
      split_ifs <;> rfl
    dsimp only
    rw [ht]
    split_ifs with hnil
    · rw [hnil, slotted, List.append_nil]
    · exact entries_insertAddrs hnd hfresh

/-! ## The invariant -/

namespace ControllerInv

/-- The controller before any migration. -/
theorem initial (sharding : Option Nat) : ControllerInv (ControllerInner.initial sharding) where
  source_lt := Nat.zero_lt_one
  source_not_base _ hn := by cases hn; rfl
  no_edge_into_source _ he := nomatch he
  source_unplaced := rfl
  placed ni _ hn hni _ := by
    have h₁ : (ControllerInner.initial sharding).ingredients.nodeCount ≤ ni :=
      Nat.one_le_iff_ne_zero.2 hni
    rw [Graph.node?_eq_none_iff.2 h₁] at hn
    cases hn
  remap_slots _ := rfl
  mem_remap _ x := ⟨fun h => (nomatch h), fun ⟨hx, hp⟩ => by
    have h₁ : x < 1 := lt_of_placedIn_eq_some hp
    exact absurd (Nat.lt_one_iff.1 h₁) hx⟩
  remap_index _ _ _ h := nomatch h

/-- Placing a migration's nodes keeps the invariant. -/
theorem placesNodes {s s' : ControllerInner} (hi : ControllerInv s) (h : PlacesNodes s s') :
    ControllerInv s' := by
  obtain ⟨hsrc, hle, hkeep, hnewdom, hedges, hdom, fresh, -, hfresh, haddr, hentries⟩ :=
    h.spec hi
  have hplaced : ∀ x < s.ingredients.nodeCount,
      placedIn s'.ingredients x = placedIn s.ingredients x := fun x hx =>
    placedIn_congr Node.placement (fun p => if p.2.2.1 then none else p.1) (fun _ => rfl)
      (hkeep x hx)
  have hold : ∀ x n₀, s.ingredients.node? x = some n₀ →
      ∃ n, s'.ingredients.node? x = some n ∧ n.placement = n₀.placement := fun x n₀ hn₀ => by
    have := hkeep x (Graph.node?_isSome_iff.1 (by rw [hn₀]; rfl))
    rw [hn₀] at this
    exact Option.map_eq_some'.1 this
  refine ⟨?_, fun n hn => ?_, fun e he hes => ?_, ?_, fun ni n hn hni hdrop => ?_, fun d => ?_,
    fun d x => ?_, fun d x ip hget => ?_⟩
  · rw [hsrc]; exact lt_of_lt_of_le hi.source_lt hle
  · rw [hsrc] at hn
    have := hkeep _ hi.source_lt
    rw [hn] at this
    obtain ⟨n₀, hn₀, hp⟩ := Option.map_eq_some'.1 this.symm
    simp only [Node.placement, Prod.mk.injEq] at hp
    rw [← hp.2.2.2]
    exact hi.source_not_base n₀ hn₀
  · rw [hsrc] at hes
    exact hi.no_edge_into_source e (hedges e he hes) hes
  · rw [hsrc, hplaced _ hi.source_lt]
    exact hi.source_unplaced
  · rw [hsrc] at hni
    by_cases hlt : ni < s.ingredients.nodeCount
    · have := hkeep ni hlt
      rw [hn] at this
      obtain ⟨n₀, hn₀, hp⟩ := Option.map_eq_some'.1 this.symm
      simp only [Node.placement, Prod.mk.injEq] at hp
      obtain ⟨d, hd, hreg⟩ := hi.placed ni n₀ hn₀ hni (hp.2.2.1.trans hdrop)
      exact ⟨d, hp.1 ▸ hd, (hdom d).2 (Or.inl hreg)⟩
    · obtain ⟨d, hd⟩ := Option.isSome_iff_exists.1 (hnewdom ni n (by omega) hn hdrop)
      exact ⟨d, hd, (hdom d).2 (Or.inr ⟨ni, by omega, placedIn_eq_some.2 ⟨n, hn, hdrop, hd⟩⟩)⟩
  · rw [HashMap.keys, hentries, List.map_append, map_fst_slotted, slotted_append,
      ← HashMap.keys, ← hi.remap_slots d, Nat.zero_add, HashMap.keys, List.length_map]
    rfl
  · rw [HashMap.keys, hentries, List.map_append, List.mem_append, ← HashMap.keys, hi.mem_remap,
      map_fst_slotted, hfresh, hsrc]
    have := hi.source_lt
    constructor
    · rintro (⟨hx, hp⟩ | ⟨hx, -, hp⟩)
      · exact ⟨hx, (hplaced x (lt_of_placedIn_eq_some hp)).trans hp⟩
      · exact ⟨by omega, hp⟩
    · rintro ⟨hx, hp⟩
      by_cases hlt : x < s.ingredients.nodeCount
      · exact Or.inl ⟨hx, (hplaced x hlt).symm.trans hp⟩
      · exact Or.inr ⟨by omega, lt_of_placedIn_eq_some hp, hp⟩
  · rw [← HashMap.mem_entries, hentries, List.mem_append] at hget
    rcases hget with hget | hget
    · obtain ⟨n₀, hn₀, hidx⟩ := hi.remap_index d x ip (HashMap.mem_entries.1 hget)
      obtain ⟨n, hn, hp⟩ := hold x n₀ hn₀
      simp only [Node.placement, Prod.mk.injEq] at hp
      exact ⟨n, hn, hp.2.1.trans hidx⟩
    · exact haddr d x ip hget

/-- Every node but the source that is not dropped has a local address and a running domain. -/
theorem addressed {s : ControllerInner} (hi : ControllerInv s) {x : Nat} {n : Node}
    (hn : s.ingredients.node? x = some n) (hx : x ≠ s.source) (hdrop : n.isDropped = false) :
    n.localAddr.isSome ∧ ∃ d, n.domain = some d ∧ (s.domains.get d).isSome := by
  obtain ⟨d, hd, hreg⟩ := hi.placed x n hn hx hdrop
  obtain ⟨ip, hip⟩ := HashMap.mem_keys.1
    ((hi.mem_remap d x).2 ⟨hx, placedIn_eq_some.2 ⟨n, hn, hdrop, hd⟩⟩)
  obtain ⟨n', hn', hidx⟩ := hi.remap_index d x ip hip
  rw [hn] at hn'
  cases hn'
  have he := HashMap.mem_entries.2 hip
  rw [hi.remap_slots d] at he
  refine ⟨?_, d, hd, hreg⟩
  rw [Node.localAddr, hidx]
  exact localIdx_isSome_of_mem_slotted he

/-- A migration keeps the invariant. -/
theorem migrate {s s' : ControllerInner} (hi : ControllerInv s) (h : Migrates s s') :
    ControllerInv s' :=
  hi.placesNodes h.placesNodes

end ControllerInv

theorem Reachable.inv {s : ControllerInner} (h : Reachable s) : ControllerInv s := by
  induction h with
  | initial sharding => exact ControllerInv.initial sharding
  | migrate _ hm ih => exact ih.migrate hm

/-! ## Local addresses -/

/-- A table that lists its keys at the slots `0`, `1`, ... maps them one to one onto the slots
    below its size, while the size fits a `u32`. -/
theorem slots_of_entries_eq_slotted {t : HashMap Nat IndexPair}
    (ht : t.entries = slotted 0 t.keys) (hlen : t.len ≤ 2 ^ 32) :
    (∀ k, k < t.len ↔ ∃ x ip, t.get x = some ip ∧ ip.slot = some k) ∧
    ∀ x y ip ip', t.get x = some ip → t.get y = some ip' → ip.slot = ip'.slot → x = y := by
  have hk : t.keys.length = t.len := List.length_map _ _
  have hmap : t.entries.map (·.2.slot) = (List.range' 0 t.len).map some := by
    rw [ht, map_slot_slotted, hk]
    refine List.map_congr_left fun k hk => ?_
    rw [List.mem_range'_1] at hk
    rw [Nat.mod_eq_of_lt (by omega)]
  refine ⟨fun k => ?_, fun x y ip ip' hx hy hxy => ?_⟩
  · have hmem : some k ∈ t.entries.map (·.2.slot) ↔ k < t.len := by
      rw [hmap]
      simp [List.mem_range'_1]
    rw [← hmem, List.mem_map]
    constructor
    · rintro ⟨⟨x, ip⟩, he, hk⟩
      exact ⟨x, ip, HashMap.mem_entries.1 he, hk⟩
    · rintro ⟨x, ip, hx, hk⟩
      exact ⟨(x, ip), HashMap.mem_entries.2 hx, hk⟩
  · have hnd : (t.entries.map (·.2.slot)).Nodup := by
      rw [hmap]
      exact (List.nodup_range' _ _).map (Option.some_injective _)
    exact congrArg Prod.fst
      (List.inj_on_of_nodup_map hnd (HashMap.mem_entries.2 hx) (HashMap.mem_entries.2 hy) hxy)

/-- Local addresses in every reachable state: each domain's remap table maps its nodes one to
    one onto the slots below its size (while that fits a `u32`), and every node in it is a node
    of the domain whose address is the table's. A migration keeps every entry and appends the
    domain's new nodes that are not dropped, each once and in index order, at the slots from the
    table's size on. -/
theorem remap_dense_of_reachable {s : ControllerInner} (hs : Reachable s) :
    (∀ d, (remapTable s d).len ≤ 2 ^ 32 →
      (∀ k, k < (remapTable s d).len ↔
        ∃ x ip, (remapTable s d).get x = some ip ∧ ip.slot = some k) ∧
      ∀ x y ip ip', (remapTable s d).get x = some ip → (remapTable s d).get y = some ip' →
        ip.slot = ip'.slot → x = y) ∧
    (∀ d x ip, (remapTable s d).get x = some ip →
      ∃ n, s.ingredients.node? x = some n ∧ n.domain = some d ∧ n.index = some ip) ∧
    ∀ s', Migrates s s' → ∀ d, ∃ fresh : List Nat, fresh.Sorted (· < ·) ∧
      (∀ x, x ∈ fresh ↔ s.ingredients.nodeCount ≤ x ∧ x < s'.ingredients.nodeCount ∧
        placedIn s'.ingredients x = some d) ∧
      (remapTable s' d).entries = (remapTable s d).entries ++ slotted (remapTable s d).len fresh := by
  have hi := hs.inv
  refine ⟨fun d => slots_of_entries_eq_slotted (hi.remap_slots d), fun d x ip hx => ?_,
    fun s' hm d => ?_⟩
  · obtain ⟨n, hn, hidx⟩ := hi.remap_index d x ip hx
    obtain ⟨n', hn', -, hd⟩ :=
      placedIn_eq_some.1 ((hi.mem_remap d x).1 (HashMap.mem_keys.2 ⟨ip, hx⟩)).2
    rw [hn] at hn'
    cases hn'
    exact ⟨n, hn, hd, hidx⟩
  · obtain ⟨-, -, -, -, -, -, fresh, hsorted, hfresh, -, hentries⟩ := hm.placesNodes.spec hi
    exact ⟨fresh d, hsorted d, hfresh d, hentries d⟩

/-- The migration that adds one base to the bare controller, with the passes of
    `Passes.single 0`. -/
def oneBaseMigration : Except Panic (ControllerInner × List Event) :=
  (runCalls (fun _ => "global") (Migration.start (ControllerInner.initial none) HashMap.empty)
    [.addBase "b" ["x"] ⟨[.int 0], []⟩]).bind fun m => m.commit (Passes.single 0)

/-- After that migration, domain `0`'s table holds the base. -/
theorem remap_dense_after_one_base :
    ∃ s, Reachable s ∧ (remapTable s 0).len = 1 ∧
    (∀ d, (remapTable s d).len ≤ 2 ^ 32 →
      (∀ k, k < (remapTable s d).len ↔
        ∃ x ip, (remapTable s d).get x = some ip ∧ ip.slot = some k) ∧
      ∀ x y ip ip', (remapTable s d).get x = some ip → (remapTable s d).get y = some ip' →
        ip.slot = ip'.slot → x = y) ∧
    (∀ d x ip, (remapTable s d).get x = some ip →
      ∃ n, s.ingredients.node? x = some n ∧ n.domain = some d ∧ n.index = some ip) ∧
    ∀ s', Migrates s s' → ∀ d, ∃ fresh : List Nat, fresh.Sorted (· < ·) ∧
      (∀ x, x ∈ fresh ↔ s.ingredients.nodeCount ≤ x ∧ x < s'.ingredients.nodeCount ∧
        placedIn s'.ingredients x = some d) ∧
      (remapTable s' d).entries = (remapTable s d).entries ++ slotted (remapTable s d).len fresh := by
  have hb : oneBaseMigration.toBool = true := by decide
  have hlen : oneBaseMigration.toOption.map (fun r => (remapTable r.1 0).len) = some 1 := by
    decide
  obtain ⟨⟨s, evs⟩, h⟩ := exists_eq_ok_of_toBool hb
  rw [h] at hlen
  obtain ⟨m, hm, hc⟩ := bind_eq_ok.1 h
  have hs : Reachable s := .migrate (.initial none)
    ⟨Passes.single 0, _, _, _, m, evs, Passes.single_lawful 0, hm, hc⟩
  exact ⟨s, hs, Option.some.inj hlen, remap_dense_of_reachable hs⟩

end Noria
