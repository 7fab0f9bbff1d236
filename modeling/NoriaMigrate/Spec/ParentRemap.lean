import NoriaMigrate.Spec.SwapMerge
import NoriaMigrate.Spec.ControllerInvariant
import NoriaMigrate.Spec.ColumnPropagation

/-!
# The remap a new node is initialized with

Lines 493-519 hand each new internal node `ni` of domain `d` the domain's remap table,
overlaid by the merged swap table's entries into `ni`: each original parent that sharding or
routing replaced is mapped to the address of the node now standing in its place. The overlay
reads that address with an unwrap (line 509) and asserts that the original parent had no
address of its own in the domain (line 510).

## Key results

- `mergeSwaps_get_of_disjoint` (in `SwapMerge`): the merged table gives each edge routing
  spliced its ingress, and each edge sharding spliced its sharder, followed through the ingress
  routing put under that sharder.
- `overlaySwaps_isOk`: the overlay succeeds when every substitute into `ni` has an address and
  no original parent it replaces has one; `overlaySwaps_entries_get` (in `CommitSteps`) says
  what it then maps each node to.
- `initNode_remaps_original_parents`: when sharding and routing splice edges as they are meant
  to, `ni`'s remap maps every original parent to the address of the parent that replaced it in
  the final graph (`finalParent`), and that address exists.
- `commit_onCommit_remap`: every `on_commit` call of a commit that returns is of this form: for a
  new internal node, with its domain's table as the commit leaves it, overlaid by the merged
  swap table.
- `commit_onCommit_final_parents`: from a reachable state, where the tables hold exactly their
  domain's nodes, that call maps every original parent to the address recorded in its
  replacement in the final graph.
-/

namespace Noria

theorem Node.isDropped_eq_false_of_isInternal {n : Node} (h : n.isInternal = true) :
    n.isDropped = false := by
  obtain ⟨_, _, _, _, inner, _⟩ := n
  cases inner <;> simp_all [Node.isInternal, Node.isDropped]

/-! ## The overlay -/

/-- The overlay of lines 505-511 returns when every entry into `ni` has a substitute with an
    address in `inner` and an original parent with none yet in `remap`. -/
theorem overlaySwaps_isOk {inner : HashMap Nat IndexPair} {ni : Nat} :
    ∀ {l : List ((Nat × Nat) × Nat)} {remap : HashMap Nat IndexPair}, (l.map Prod.fst).Nodup →
      (∀ e ∈ l, e.1.1 = ni → (inner.get e.2).isSome ∧ remap.get e.1.2 = none) →
      ∃ r, overlaySwaps inner ni l remap = .ok r
  | [], remap, _, _ => ⟨remap, rfl⟩
  | ((dst, src), instead) :: l, remap, hnd, h => by
    rw [List.map_cons, List.nodup_cons] at hnd
    dsimp only at hnd
    have htail := fun e he => h e (List.mem_cons_of_mem _ he)
    by_cases hd : dst = ni
    · subst hd
      obtain ⟨ip, hip⟩ := Option.isSome_iff_exists.1 (h _ (List.mem_cons_self _ _) rfl).1
      have hold : remap.get src = none := (h _ (List.mem_cons_self _ _) rfl).2
      -- no later entry into `dst` has original parent `src`
      have hsrc : ∀ e ∈ l, e.1.1 = dst → e.1.2 ≠ src := fun e he hd hs =>
        hnd.1 (by rw [← show e.1 = (dst, src) from Prod.ext hd hs]; exact List.mem_map_of_mem _ he)
      obtain ⟨r, hr⟩ := @overlaySwaps_isOk inner dst l (remap.insert src ip) hnd.2
        fun e he hd => ⟨(htail e he hd).1, by
          rw [HashMap.get_insert, if_neg (hsrc e he hd)]
          exact (htail e he hd).2⟩
      exact ⟨r, by simp [overlaySwaps, unwrapAt, assertAt, hip, hold, hr]⟩
    · obtain ⟨r, hr⟩ := @overlaySwaps_isOk inner ni l remap hnd.2 htail
      exact ⟨r, by simp [overlaySwaps, hd, hr]⟩

/-! ## The parent in the final graph -/

/-- `ni`'s parent in place of its original parent `p` once sharding has run: the sharder
    spliced into the edge `p → ni`, else `p`. -/
def shardedParent (swapped0 : SwapTable) (ni p : Nat) : Nat := (swapped0.get (ni, p)).getD p

/-- `ni`'s parent in place of its original parent `p` in the final graph: the ingress routing
    spliced into the edge from `shardedParent swapped0 ni p` to `ni`, else that node. -/
def finalParent (swapped0 swapped1 : SwapTable) (ni p : Nat) : Nat :=
  (swapped1.get (ni, shardedParent swapped0 ni p)).getD (shardedParent swapped0 ni p)

section Splices

/-! The splices sharding and routing report, stated on the final graph `g`: sharding replaced
edges `u → v` with `u` and `v` in different domains by `u → S → v` and recorded
`((v, u), S)` in `swapped0`; routing then replaced edges `u → v` of the sharded graph with `u`
and `v` in different domains by a path ending in an ingress `I → v` of `v`'s domain, recorded
`((v, u), I)` in `swapped1`, spliced an edge out of a sharder only into that sharder's child,
and no ingress it recorded is the original parent of an edge it spliced. -/

variable {g : Graph} {swapped0 swapped1 : SwapTable}

/-- The merged table's lookup for `(ni, p)` is the final parent of `p`, when routing spliced
    only edges sharding left alone. -/
theorem mergeSwaps_getD_eq_finalParent (hdisj : ∀ e ∈ swapped1.entries, swapped0.get e.1 = none)
    (hsrc : ∀ e ∈ swapped1.entries, ∀ e' ∈ swapped1.entries, e'.1.2 ≠ e.2)
    (hchild : ∀ e ∈ swapped0.entries, ∀ e' ∈ swapped1.entries, e'.1.2 = e.2 → e'.1.1 = e.1.1)
    (ni p : Nat) :
    ((mergeSwaps g swapped0 swapped1).get (ni, p)).getD p = finalParent swapped0 swapped1 ni p := by
  rw [mergeSwaps_get_of_disjoint g hdisj hsrc hchild, finalParent, shardedParent]
  cases h0 : swapped0.get (ni, p) with
  | none =>
    simp only [Option.map_none', Option.getD_none]
    cases swapped1.get (ni, p) <;> rfl
  | some s =>
    have h1 : swapped1.get (ni, p) = none := by
      cases h1 : swapped1.get (ni, p) with
      | none => rfl
      | some i => simp [hdisj _ (HashMap.mem_entries.2 h1)] at h0
    simp [h1]

/-- When routing spliced every edge into `ni` from another domain, through an ingress of `ni`'s
    domain, the final parent of each original parent of `ni` is in `ni`'s domain. -/
theorem placedIn_finalParent {ni : Nat} {parents : List Nat}
    (hroute_dom : ∀ e ∈ swapped1.entries, placedIn g e.2 = placedIn g e.1.1)
    (hroute_all : ∀ p ∈ parents, placedIn g (shardedParent swapped0 ni p) ≠ placedIn g ni →
      swapped1.get (ni, shardedParent swapped0 ni p) ≠ none)
    {p : Nat} (hp : p ∈ parents) :
    placedIn g (finalParent swapped0 swapped1 ni p) = placedIn g ni := by
  rw [finalParent]
  cases h1 : swapped1.get (ni, shardedParent swapped0 ni p) with
  | some i => exact hroute_dom _ (HashMap.mem_entries.2 h1)
  | none =>
    by_contra hne
    exact hroute_all p hp hne h1

/-- When sharding and routing spliced edges as described above, the new internal node `ni` of
    domain `d` is initialized (lines 494-518) with a remap that sends each of its original
    parents `p` to the domain-`d` address of `finalParent swapped0 swapped1 ni p`, its parent in
    place of `p` in the final graph, and that address exists: neither the unwrap at line 509 nor
    the assert at line 510 fails. Here `inner`, the remap table of domain `d`, holds exactly the
    nodes placed in `d`. -/
theorem initNode_remaps_original_parents {m : ControllerInner} {d ni : Nat} {n : Node}
    {parents : List Nat} {inner : HashMap Nat IndexPair}
    (hn : g.node? ni = some n) (hint : n.isInternal = true) (hd : n.domain = some d)
    (hsharded : ∀ e ∈ swapped0.entries, e.1.1 = ni → e.1.2 ∈ parents)
    (hshard_dom : ∀ e ∈ swapped0.entries, placedIn g e.1.2 ≠ placedIn g e.1.1)
    (hdisj : ∀ e ∈ swapped1.entries, swapped0.get e.1 = none)
    (hroute_dom : ∀ e ∈ swapped1.entries,
      placedIn g e.2 = placedIn g e.1.1 ∧ placedIn g e.1.2 ≠ placedIn g e.1.1)
    (hroute_all : ∀ p ∈ parents, placedIn g (shardedParent swapped0 ni p) ≠ placedIn g ni →
      swapped1.get (ni, shardedParent swapped0 ni p) ≠ none)
    (hchild : ∀ e ∈ swapped0.entries, ∀ e' ∈ swapped1.entries, e'.1.2 = e.2 → e'.1.1 = e.1.1)
    (hsrc : ∀ e ∈ swapped1.entries, ∀ e' ∈ swapped1.entries, e'.1.2 ≠ e.2)
    (hinner : m.remap.get d = some inner)
    (hmem : ∀ x ∈ inner.keys, placedIn g x = some d)
    (hall : ∀ x < g.nodeCount, placedIn g x = some d → x ∈ inner.keys) :
    ∃ r, initNode m (mergeSwaps g swapped0 swapped1) d ni n = .ok [.onCommit ni r] ∧
      ∀ p ∈ parents, r.get p = inner.get (finalParent swapped0 swapped1 ni p) ∧
        (inner.get (finalParent swapped0 swapped1 ni p)).isSome := by
  have hni : placedIn g ni = some d :=
    placedIn_eq_some.2 ⟨n, hn, Node.isDropped_eq_false_of_isInternal hint, hd⟩
  -- a node has an address in `inner` exactly when it is placed in `d`
  have haddr : ∀ x, (inner.get x).isSome ↔ placedIn g x = some d := fun x => by
    rw [Option.isSome_iff_exists, ← HashMap.mem_keys]
    exact ⟨hmem x, fun hx => hall x (lt_of_placedIn_eq_some hx) hx⟩
  have hnone : ∀ x, placedIn g x ≠ some d → inner.get x = none := fun x hx =>
    Option.not_isSome_iff_eq_none.1 fun h => hx ((haddr x).1 h)
  have hfinal : ∀ p ∈ parents, placedIn g (finalParent swapped0 swapped1 ni p) = some d :=
    fun p hp => (placedIn_finalParent (fun e he => (hroute_dom e he).1) hroute_all hp).trans hni
  -- each entry of the merged table into `ni` swaps a parent outside `d` for a node of `d`
  have hentry : ∀ e ∈ (mergeSwaps g swapped0 swapped1).entries, e.1.1 = ni →
      placedIn g e.2 = some d ∧ placedIn g e.1.2 ≠ some d := by
    rintro ⟨⟨v, u⟩, x⟩ he (hv : v = ni)
    subst v
    have hget := HashMap.mem_entries.1 he
    rw [mergeSwaps_get_of_disjoint g hdisj hsrc hchild] at hget
    cases h1 : swapped1.get (ni, u) with
    | some i =>
      rw [h1, Option.or_some] at hget
      cases hget
      rw [← hni]
      exact hroute_dom _ (HashMap.mem_entries.2 h1)
    | none =>
      rw [h1, Option.none_or] at hget
      obtain ⟨s, h0, rfl⟩ := Option.map_eq_some'.1 hget
      refine ⟨?_, by rw [← hni]; exact hshard_dom ((ni, u), s) (HashMap.mem_entries.2 h0)⟩
      simpa [finalParent, shardedParent, h0] using
        hfinal u (hsharded _ (HashMap.mem_entries.2 h0) rfl)
  obtain ⟨r, hr⟩ := @overlaySwaps_isOk inner ni _ inner (mergeSwaps g swapped0 swapped1).nodup
    fun e he hd => ⟨(haddr _).2 (hentry e he hd).1, hnone _ (hentry e he hd).2⟩
  refine ⟨r, by simp [initNode, hint, hinner, unwrapAt, hr], fun p hp => ?_⟩
  rw [overlaySwaps_entries_get hr p, mergeSwaps_getD_eq_finalParent hdisj hsrc hchild]
  exact ⟨rfl, (haddr _).2 (hfinal p hp)⟩

end Splices

/-- A join `2` of domain `1` with four original parents: `0` of domain `0`, spliced through the
    sharder `3` and then the ingress `4`; `1` of the join's own domain, left alone; `5` of
    domain `0`, spliced through the ingress `6`; and `7` of domain `0`, spliced through the
    sharder `8` of domain `1`. -/
def spliceGraph : Graph :=
  ⟨[⟨"a", ["x"], some 0, none, .base ⟨[.int 0], []⟩, .none⟩,
    ⟨"b", ["x"], some 1, none, .base ⟨[.int 0], []⟩, .none⟩,
    ⟨"j", ["x"], some 1, none, .internal, .none⟩,
    ⟨"s", ["x"], some 0, none, .sharder, .none⟩,
    ⟨"i", ["x"], some 1, none, .ingress, .none⟩,
    ⟨"c", ["x"], some 0, none, .base ⟨[.int 0], []⟩, .none⟩,
    ⟨"i", ["x"], some 1, none, .ingress, .none⟩,
    ⟨"e", ["x"], some 0, none, .base ⟨[.int 0], []⟩, .none⟩,
    ⟨"s", ["x"], some 1, none, .sharder, .none⟩],
   [(0, 3), (3, 4), (4, 2), (1, 2), (5, 6), (6, 2), (7, 8), (8, 2)], by decide⟩

def spliceSharded : SwapTable := (HashMap.empty.insert (2, 0) 3).insert (2, 7) 8

def spliceRouted : SwapTable := (HashMap.empty.insert (2, 3) 4).insert (2, 5) 6

/-- Domain `1`'s remap table: its nodes at the slots `0` to `4`. -/
def spliceRemap : HashMap Nat IndexPair :=
  ((((HashMap.empty.insert 1 ⟨1, some ⟨0⟩⟩).insert 2 ⟨2, some ⟨1⟩⟩).insert 4 ⟨4, some ⟨2⟩⟩).insert
    6 ⟨6, some ⟨3⟩⟩).insert 8 ⟨8, some ⟨4⟩⟩

def spliceController : ControllerInner :=
  ⟨spliceGraph, 0, none, HashMap.empty, HashMap.empty.insert 1 spliceRemap,
   ⟨HashMap.empty, HashMap.empty⟩⟩

/-- The join's remap sends `0` to the ingress `4`, `1` to itself, `5` to the ingress `6` and
    `7` to the sharder `8`, each at its domain-`1` address. -/
theorem initNode_remaps_splice_parents :
    [0, 1, 5, 7].map (finalParent spliceSharded spliceRouted 2) = [4, 1, 6, 8] ∧
    ∃ r, initNode spliceController (mergeSwaps spliceGraph spliceSharded spliceRouted) 1 2
        ⟨"j", ["x"], some 1, none, .internal, .none⟩ = .ok [.onCommit 2 r] ∧
      ∀ p ∈ [0, 1, 5, 7], r.get p = spliceRemap.get (finalParent spliceSharded spliceRouted 2 p) ∧
        (spliceRemap.get (finalParent spliceSharded spliceRouted 2 p)).isSome :=
  ⟨by decide, initNode_remaps_original_parents rfl rfl rfl (by decide) (by decide) (by decide)
    (by decide) (by decide) (by decide) (by decide) rfl (by decide) (by decide)⟩

/-! ## The `on_commit` calls of a commit -/

/-- Every `on_commit` call of a node placement that returns is for a new internal node `ni`,
    not the source, placed in a domain `d` of the graph routing left, and hands it `d`'s table
    as the placement leaves it, overlaid by the merged table's swaps into `ni`. -/
theorem commitNodes_onCommit {passes : Passes} {c : ControllerInner} {new : HashSet Nat}
    {swapped0 swapped1 : SwapTable} {s' : ControllerInner} {evs evs' : List Event}
    {u' : HashMap Nat (List (Nat × Bool))}
    (h : commitNodes passes c new swapped0 swapped1 = .ok (s', evs, evs', u')) :
    ∀ ev ∈ evs, ∃ d ni r, ev = .onCommit ni r ∧ ni ∈ new.elems ∧ ni ≠ c.source ∧
      placedIn c.ingredients ni = some d ∧
      (c.ingredients.node? ni).map Node.isInternal = some true ∧
      ∀ x, r.get x = (remapTable s' d).get
        (((mergeSwaps c.ingredients swapped0 swapped1).get (ni, x)).getD x) := by
  obtain ⟨cd, dn, m₁, u, -, hdn, h₁, -, -, h₂⟩ := commitNodes_eq_ok h
  obtain ⟨-, -, -, -, -, -, hev⟩ := assignAddresses_spec dn.nodup h₁
  obtain ⟨hm₂, -, -⟩ := bootDomains_frame h₂
  intro ev he
  obtain ⟨d, nodes, ni, r, hmem, hni, he, hint, hr⟩ := hev ev he
  obtain ⟨-, rfl⟩ := (mem_entries_domainNewNodes hdn).1 hmem
  obtain ⟨hnew, hsrc, hd⟩ := mem_newNodesOf.1 hni
  refine ⟨d, ni, r, he, hnew, hsrc, hd, hint, fun x => ?_⟩
  rw [hr x, remapTable, remapTable, hm₂]

/-- The `on_commit` calls of a commit are those of its node placement. -/
theorem commit_onCommit_mem {passes : Passes} {m : Migration} {s' : ControllerInner}
    {evs : List Event} (h : m.commit passes = .ok (s', evs)) {ni : Nat}
    {r : HashMap Nat IndexPair} (hev : Event.onCommit ni r ∈ evs) :
    ∃ evs₁ evs₂ u, commitNodes passes (routeMigration passes m).1 (routeMigration passes m).2.1
      (routeMigration passes m).2.2.1 (routeMigration passes m).2.2.2 = .ok (s', evs₁, evs₂, u) ∧
      Event.onCommit ni r ∈ evs₁ := by
  obtain ⟨evs₁, evs₂, u, evs₃, hc, h₃, rfl⟩ := commitRouted_eq_ok h
  obtain ⟨cd, dn, m₁, u₀, -, -, -, -, -, h₂⟩ := commitNodes_eq_ok hc
  obtain ⟨-, -, hboot⟩ := bootDomains_frame h₂
  simp only [List.mem_append, List.mem_cons, List.not_mem_nil, or_false] at hev
  rcases hev with (((h₁ | h₂) | h₃') | h₄) | h₅ | h₅
  · exact ⟨evs₁, evs₂, u, hc, h₁⟩
  · obtain ⟨_, _, _, he⟩ := hboot _ h₂
    cases he
  · cases h₃'
  · obtain ⟨_, _, he⟩ := propagateColumns_sendToHealthy h₃ _ h₄
    cases he
  all_goals cases h₅

/-- Every `on_commit` call a commit makes is for a new internal node `ni`, not the source,
    placed in some domain `d` of the graph routing left, and hands it `d`'s remap table as the
    commit leaves it, in which every original parent of a swap into `ni` in the merged swap
    table has its substitute's address. -/
theorem commit_onCommit_remap {passes : Passes} {m : Migration} {s' : ControllerInner}
    {evs : List Event} (h : m.commit passes = .ok (s', evs)) {ni : Nat}
    {r : HashMap Nat IndexPair} (hev : Event.onCommit ni r ∈ evs) :
    ∃ d, ni ∈ (routeMigration passes m).2.1.elems ∧ ni ≠ s'.source ∧
      placedIn (routeMigration passes m).1.ingredients ni = some d ∧
      ((routeMigration passes m).1.ingredients.node? ni).map Node.isInternal = some true ∧
      ∀ x, r.get x = (remapTable s' d).get (((mergeSwaps (routeMigration passes m).1.ingredients
        (routeMigration passes m).2.2.1 (routeMigration passes m).2.2.2).get (ni, x)).getD x) := by
  obtain ⟨evs₁, evs₂, u, hc, h₁⟩ := commit_onCommit_mem h hev
  obtain ⟨-, -, -, -, -, hsrc, -⟩ := commitNodes_state hc
  obtain ⟨d, _, _, he, hnew, hne, hd, hint, hr⟩ := commitNodes_onCommit hc _ h₁
  cases he
  exact ⟨d, hnew, hsrc ▸ hne, hd, hint, hr⟩

/-- The bare controller, after the builder calls that add a base `1` and an internal node `2`
    reading it. -/
def baseAndJoinMigration : Except Panic Migration :=
  runCalls (fun _ => "global") (Migration.start (ControllerInner.initial none) HashMap.empty)
    [.addBase "b" ["x"] ⟨[.int 0], []⟩, .addIngredient "j" ["x"] ⟨fun _ => [1]⟩]

/-- Its commit under `Passes.single 0` calls `on_commit` for the node `2`, as above. -/
theorem commit_onCommit_remap_base_and_join :
    ∃ m s' evs r, baseAndJoinMigration = .ok m ∧ m.commit (Passes.single 0) = .ok (s', evs) ∧
      Event.onCommit 2 r ∈ evs ∧
      ∃ d, 2 ∈ (routeMigration (Passes.single 0) m).2.1.elems ∧ 2 ≠ s'.source ∧
        placedIn (routeMigration (Passes.single 0) m).1.ingredients 2 = some d ∧
        ((routeMigration (Passes.single 0) m).1.ingredients.node? 2).map Node.isInternal =
          some true ∧
        ∀ x, r.get x = (remapTable s' d).get (((mergeSwaps
          (routeMigration (Passes.single 0) m).1.ingredients
          (routeMigration (Passes.single 0) m).2.2.1
          (routeMigration (Passes.single 0) m).2.2.2).get (2, x)).getD x) := by
  have hb : (baseAndJoinMigration.bind fun m => m.commit (Passes.single 0)).toBool = true := by
    decide
  have hon : (baseAndJoinMigration.bind fun m => m.commit (Passes.single 0)).toOption.map
      (fun p => p.2.filterMap fun ev => match ev with | .onCommit ni _ => some ni | _ => none) =
      some [2] := by
    decide
  obtain ⟨⟨s', evs⟩, h⟩ := exists_eq_ok_of_toBool hb
  obtain ⟨m, hm, hc⟩ := bind_eq_ok.1 h
  rw [h] at hon
  obtain ⟨ev, hev, h2⟩ := List.mem_filterMap.1 (show 2 ∈ evs.filterMap _ by
    simp only [Except.toOption, Option.map_some', Option.some.injEq] at hon
    rw [hon]
    exact List.mem_singleton_self 2)
  cases ev with
  | onCommit ni r =>
    cases h2
    exact ⟨m, s', evs, r, hm, hc, hev, commit_onCommit_remap hc hev⟩
  | _ => cases h2

/-! ## From a reachable state -/

/-- In a commit from a reachable state, with passes that keep their contracts and splice edges
    as described above (stated on the graph `c` routing left and on the swap tables of sharding
    and routing), every `on_commit` call maps each original parent `p` of its node `ni` to the
    address the commit records in the node `finalParent swapped0 swapped1 ni p`, the parent in
    place of `p` in the final graph. -/
theorem commit_onCommit_final_parents {s s' c : ControllerInner} {passes : Passes}
    {toString : DataType → String} {context : HashMap String DataType}
    {calls : List BuilderCall} {m : Migration} {evs : List Event} {new : HashSet Nat}
    {swapped0 swapped1 : SwapTable} (hs : Reachable s) (hp : passes.Lawful)
    (hm : runCalls toString (Migration.start s context) calls = .ok m)
    (hroute : routeMigration passes m = (c, new, swapped0, swapped1))
    (h : m.commit passes = .ok (s', evs)) {ni : Nat} {r : HashMap Nat IndexPair}
    (hev : Event.onCommit ni r ∈ evs) {parents : List Nat}
    (hdisj : ∀ e ∈ swapped1.entries, swapped0.get e.1 = none)
    (hroute_dom : ∀ e ∈ swapped1.entries, placedIn c.ingredients e.2 = placedIn c.ingredients e.1.1)
    (hroute_all : ∀ p ∈ parents, placedIn c.ingredients (shardedParent swapped0 ni p) ≠
      placedIn c.ingredients ni → swapped1.get (ni, shardedParent swapped0 ni p) ≠ none)
    (hchild : ∀ e ∈ swapped0.entries, ∀ e' ∈ swapped1.entries, e'.1.2 = e.2 → e'.1.1 = e.1.1)
    (hsrc : ∀ e ∈ swapped1.entries, ∀ e' ∈ swapped1.entries, e'.1.2 ≠ e.2) :
    ∀ p ∈ parents, ∃ n ip, s'.ingredients.node? (finalParent swapped0 swapped1 ni p) = some n ∧
      n.index = some ip ∧ r.get p = some ip := by
  intro p hpm
  obtain ⟨evs₁, evs₂, u, hc, h₁⟩ := commit_onCommit_mem h hev
  rw [hroute] at hc
  obtain ⟨d, _, _, he, -, -, hd, -, hr⟩ := commitNodes_onCommit hc _ h₁
  cases he
  have hi : ControllerInv s' :=
    (Reachable.migrate hs ⟨passes, toString, context, calls, m, evs, hp, hm, h⟩).inv
  -- the final parent sits in `d` after the commit, so `d`'s table holds it
  have hplaced : placedIn s'.ingredients (finalParent swapped0 swapped1 ni p) = some d := by
    rw [placedIn_commitNodes hc]
    exact (placedIn_finalParent hroute_dom hroute_all hpm).trans hd
  have hne : finalParent swapped0 swapped1 ni p ≠ s'.source := fun heq => by
    rw [heq, hi.source_unplaced] at hplaced
    cases hplaced
  obtain ⟨ip, hip⟩ := HashMap.mem_keys.1 ((hi.mem_remap d _).2 ⟨hne, hplaced⟩)
  obtain ⟨n, hn, hidx⟩ := hi.remap_index d _ ip hip
  exact ⟨n, ip, hn, hidx, by rw [hr p, mergeSwaps_getD_eq_finalParent hdisj hsrc hchild, hip]⟩

/-- A second migration on the controller `oneBaseMigration` leaves, whose base `1` is in domain
    `0`: the internal node `2` under the base. -/
def joinCalls : List BuilderCall := [.addIngredient "j" ["x"] ⟨fun _ => [1]⟩]

/-- The migration `joinCalls` builds on the controller `oneBaseMigration` leaves. -/
def routedJoinMigration : Except Panic Migration :=
  oneBaseMigration.bind fun r => runCalls (fun _ => "global") (Migration.start r.1 HashMap.empty)
    joinCalls

/-- Under `Passes.routed 1` the node `2` is put in domain `1` and routing splices the edge
    `1 → 2` through the new ingress `3`: the `on_commit` call of `2` maps its original parent `1`
    to the address recorded in the ingress. -/
theorem commit_onCommit_final_parents_routed_join :
    ∃ s m s' evs r, Reachable s ∧
      runCalls (fun _ => "global") (Migration.start s HashMap.empty) joinCalls = .ok m ∧
      m.commit (Passes.routed 1) = .ok (s', evs) ∧ Event.onCommit 2 r ∈ evs ∧
      finalParent (routeMigration (Passes.routed 1) m).2.2.1
        (routeMigration (Passes.routed 1) m).2.2.2 2 1 = 3 ∧
      (s'.ingredients.node? 3).map Node.isIngress = some true ∧
      ∀ p ∈ [1], ∃ n ip, s'.ingredients.node? (finalParent (routeMigration (Passes.routed 1) m).2.2.1
          (routeMigration (Passes.routed 1) m).2.2.2 2 p) = some n ∧
        n.index = some ip ∧ r.get p = some ip := by
  have hb : (routedJoinMigration.bind fun m => m.commit (Passes.routed 1)).toBool = true := by
    decide
  have hon : (routedJoinMigration.bind fun m => m.commit (Passes.routed 1)).toOption.map
      (fun p => (p.2.filterMap fun ev => match ev with | .onCommit ni _ => some ni | _ => none,
        (p.1.ingredients.node? 3).map Node.isIngress)) = some ([2], some true) := by
    decide
  have hsplice : routedJoinMigration.toOption.map (fun m => (fun
      (r : ControllerInner × HashSet Nat × SwapTable × SwapTable) =>
      decide ((∀ e ∈ r.2.2.2.entries, r.2.2.1.get e.1 = none) ∧
        (∀ e ∈ r.2.2.2.entries, placedIn r.1.ingredients e.2 = placedIn r.1.ingredients e.1.1) ∧
        (∀ p ∈ ([1] : List Nat), placedIn r.1.ingredients (shardedParent r.2.2.1 2 p) ≠
          placedIn r.1.ingredients 2 → r.2.2.2.get (2, shardedParent r.2.2.1 2 p) ≠ none) ∧
        (∀ e ∈ r.2.2.1.entries, ∀ e' ∈ r.2.2.2.entries, e'.1.2 = e.2 → e'.1.1 = e.1.1) ∧
        (∀ e ∈ r.2.2.2.entries, ∀ e' ∈ r.2.2.2.entries, e'.1.2 ≠ e.2) ∧
        finalParent r.2.2.1 r.2.2.2 2 1 = 3)) (routeMigration (Passes.routed 1) m)) =
      some true := by
    decide
  obtain ⟨⟨s', evs⟩, h⟩ := exists_eq_ok_of_toBool hb
  obtain ⟨m, hm', hc⟩ := bind_eq_ok.1 h
  obtain ⟨⟨s, evs₀⟩, h₀, hm⟩ := bind_eq_ok.1 hm'
  obtain ⟨m₀, hm₀, hc₀⟩ := bind_eq_ok.1 h₀
  have hs : Reachable s := .migrate (.initial none)
    ⟨Passes.single 0, _, _, _, m₀, evs₀, Passes.single_lawful 0, hm₀, hc₀⟩
  rw [h] at hon
  rw [hm'] at hsplice
  simp only [Except.toOption, Option.map_some', Option.some.injEq, Prod.mk.injEq,
    decide_eq_true_eq] at hon hsplice
  obtain ⟨hdisj, hdom, hall, hchild, hsrc, hfinal⟩ := hsplice
  obtain ⟨ev, hev, h2⟩ := List.mem_filterMap.1 (show 2 ∈ evs.filterMap _ by
    rw [hon.1]
    exact List.mem_singleton_self 2)
  cases ev with
  | onCommit ni r =>
    cases h2
    exact ⟨s, m, s', evs, r, hs, hm, hc, hev, hfinal, hon.2,
      commit_onCommit_final_parents hs (Passes.routed_lawful 1) hm rfl hc hev hdisj hdom hall
        hchild hsrc⟩
  | _ => cases h2

end Noria
