import NoriaMigrate.Spec.ControllerInvariant
import NoriaMigrate.Spec.ColumnPropagation

/-!
# What a commit does to the running domains

From a reachable state, with passes that keep their contracts, a commit can no longer panic
where it looks up domains, nodes or node lists; what is left are the swap overlay (lines 509
and 510), `sharding::validate` (line 524), and a column packet for a dropped target (lines 612,
617 and 622). A commit that returns boots exactly the domains that received their first nodes,
each once and with all of its nodes, and informs the other domains of all of theirs.

* `Routed`: what the node placement needs of the controller routing left; `ControllerInv.routed`
  gives it after the passes of a migration from a state with the invariant.
* `Routed.commitNodes_error`, `Routed.commitNodes_events`: the node placement's panics and
  events.
* `commit_error_lines`, `commit_events`, `commit_places_and_informs_domains`: the whole commit.
* `commit_column_packets`: the column packets of a commit that returns, each addressed to the
  slot its target has in its domain's remap table.
-/

namespace Noria

theorem mem_domainNodes {g : Graph} {source d x : Nat} :
    x ∈ domainNodes g source d ↔ x ≠ source ∧ placedIn g x = some d := by
  simp only [domainNodes, List.mem_filter, Graph.mem_nodeIndices, decide_eq_true_eq]
  exact ⟨fun h => ⟨h.1.2, h.2⟩, fun h => ⟨⟨lt_of_placedIn_eq_some h.2, h.1⟩, h.2⟩⟩

/-- Recording addresses moves no node to another domain. -/
theorem placedIn_setAddrs (g : Graph) (l : List (Nat × IndexPair)) (x : Nat) :
    placedIn (setAddrs g l) x = placedIn g x :=
  placedIn_congr (fun n => (n.domain, n.isDropped)) (fun p => if p.2 then none else p.1)
    (fun _ => rfl) (map_node?_setAddrs (fun n => (n.domain, n.isDropped)) (fun _ _ => rfl) g l x)

/-- What the node placement needs of the controller `c` routing left and its new-node set: the
    source is not new, the new nodes exist, and every node but the source that is not dropped
    has a domain. -/
structure Routed (c : ControllerInner) (new : HashSet Nat) : Prop where
  source_not_new : c.source ∉ new.elems
  new_lt : ∀ x ∈ new.elems, x < c.ingredients.nodeCount
  placed : ∀ x n, c.ingredients.node? x = some n → x ≠ c.source → n.isDropped = false →
    n.domain.isSome

namespace Routed

variable {passes : Passes} {c : ControllerInner} {new : HashSet Nat}
  {swapped0 swapped1 : SwapTable}

theorem placed_of (hr : Routed c new) {xs : List Nat}
    (h : ∀ x ∈ xs, x < c.ingredients.nodeCount ∧ x ≠ c.source) : Placed c.ingredients xs :=
  fun x hx => by
    obtain ⟨hlt, hne⟩ := h x hx
    obtain ⟨n, hn⟩ := Option.isSome_iff_exists.1 (Graph.node?_isSome_iff.2 hlt)
    exact ⟨n, hn, hr.placed x n hn hne⟩

theorem lt_ne_of_mem_sortedNew (hr : Routed c new) {x : Nat} (hx : x ∈ sortedNew new) :
    x < c.ingredients.nodeCount ∧ x ≠ c.source := by
  rw [mem_sortedNew] at hx
  exact ⟨hr.new_lt x hx, fun h => hr.source_not_new (h ▸ hx)⟩

/-- Lines 444-448 do not panic. -/
theorem changedDomains_ok (hr : Routed c new) :
    ∃ cd, changedDomains c.ingredients (sortedNew new) = .ok cd :=
  ⟨_, by rw [changedDomains, domainsOf_eq_ok _ _ _ (hr.placed_of fun _ => hr.lt_ne_of_mem_sortedNew)]; rfl⟩

/-- Lines 450-458 do not panic. -/
theorem domainNewNodes_ok (hr : Routed c new) :
    ∃ dn, domainNewNodes c.ingredients c.source (sortedNew new) = .ok dn :=
  ⟨_, by
    rw [domainNewNodes, domainsOf_eq_ok _ _ _ (hr.placed_of fun x hx =>
      hr.lt_ne_of_mem_sortedNew (List.mem_filter.1 hx).1)]
    rfl⟩

/-- The address loop leaves every node where it was, and the source and domains as they were. -/
theorem assigned {dn : HashMap Nat (List Nat)} {m₁ : ControllerInner} {evs : List Event}
    (h₁ : assignAddresses (mergeSwaps c.ingredients swapped0 swapped1) dn.entries c = .ok (m₁, evs)) :
    (∀ x, placedIn m₁.ingredients x = placedIn c.ingredients x) ∧
    m₁.ingredients.nodeCount = c.ingredients.nodeCount ∧ m₁.source = c.source ∧
    m₁.domains = c.domains := by
  obtain ⟨hg, -, -, hs, -, hd, -⟩ := assignAddresses_spec dn.nodup h₁
  rw [hg]
  exact ⟨placedIn_setAddrs _ _, nodeCount_setAddrs _ _, hs, hd⟩

/-- After the address loop, lines 547-556 do not panic. -/
theorem uninformedDomainNodes_ok (hr : Routed c new) {dn : HashMap Nat (List Nat)}
    {m₁ : ControllerInner} {evs : List Event}
    (h₁ : assignAddresses (mergeSwaps c.ingredients swapped0 swapped1) dn.entries c = .ok (m₁, evs)) :
    ∃ u, uninformedDomainNodes m₁ new = .ok u := by
  obtain ⟨hg, -⟩ := assignAddresses_spec dn.nodup h₁
  obtain ⟨-, hcount, hs, -⟩ := assigned h₁
  have hp : Placed m₁.ingredients (m₁.ingredients.nodeIndices.filter (· ≠ m₁.source)) := by
    intro x hx
    rw [List.mem_filter, Graph.mem_nodeIndices, decide_eq_true_eq, hs] at hx
    obtain ⟨n₀, hn₀⟩ := Option.isSome_iff_exists.1 (Graph.node?_isSome_iff.2 (hcount ▸ hx.1))
    have hd₀ := hr.placed x n₀ hn₀ hx.2
    have hsite := map_node?_setAddrs (fun n => (n.domain, n.isDropped)) (fun _ _ => rfl)
      c.ingredients (groupAddrs c dn.entries) x
    rw [← hg, hn₀] at hsite
    obtain ⟨n, hn, hsame⟩ := Option.map_eq_some'.1 hsite
    simp only [Prod.mk.injEq] at hsame
    exact ⟨n, hn, fun hdrop => hsame.1 ▸ hd₀ (hsame.2 ▸ hdrop)⟩
  exact ⟨_, by rw [uninformedDomainNodes, domainsOf_eq_ok _ _ _ hp]; rfl⟩

/-- Every changed domain that is not running has a node list whose first node exists: what the
    boot loop of lines 560-579 needs. -/
theorem boot_ready (hr : Routed c new) {cd : HashSet Nat} {dn : HashMap Nat (List Nat)}
    {m₁ : ControllerInner} {evs : List Event} {u : HashMap Nat (List (Nat × Bool))}
    (hcd : changedDomains c.ingredients (sortedNew new) = .ok cd)
    (h₁ : assignAddresses (mergeSwaps c.ingredients swapped0 swapped1) dn.entries c = .ok (m₁, evs))
    (hu : uninformedDomainNodes m₁ new = .ok u) :
    ∀ d ∈ cd.elems, m₁.domains.containsKey d = false →
      ∃ x xs, u.get d = some (x :: xs) ∧ (m₁.ingredients.node? x.1).isSome := by
  intro d hd _
  obtain ⟨hplaced, -, hs, -⟩ := assigned h₁
  obtain ⟨ni, hni, hp⟩ := (mem_changedDomains hcd d).1 hd
  have hmem : ni ∈ domainNodes m₁.ingredients m₁.source d :=
    mem_domainNodes.2 ⟨hs ▸ (hr.lt_ne_of_mem_sortedNew hni).2, (hplaced ni).trans hp⟩
  obtain ⟨x, xs, hxs⟩ := List.exists_cons_of_ne_nil (List.ne_nil_of_mem hmem)
  have hx : x ∈ domainNodes m₁.ingredients m₁.source d := hxs ▸ List.mem_cons_self x xs
  rw [uninformedDomainNodes_get hu d, if_neg (List.ne_nil_of_mem hmem), hxs, List.map_cons]
  exact ⟨_, _, rfl, Graph.node?_isSome_iff.2 (lt_of_placedIn_eq_some (mem_domainNodes.1 hx).2)⟩

/-- The node placement panics only in the swap overlay or in `sharding::validate`. -/
theorem commitNodes_error (hr : Routed c new) {p : Panic}
    (h : commitNodes passes c new swapped0 swapped1 = .error p) :
    p.line = 509 ∨ p.line = 510 ∨ p.line = 524 := by
  rcases bind_eq_error.1 h with h | ⟨cd, hcd, h⟩
  · obtain ⟨_, hcd⟩ := hr.changedDomains_ok
    rw [hcd] at h
    cases h
  rcases bind_eq_error.1 h with h | ⟨dn, hdn, h⟩
  · obtain ⟨_, hdn⟩ := hr.domainNewNodes_ok
    rw [hdn] at h
    cases h
  rcases bind_eq_error.1 h with h | ⟨⟨m₁, evs₁⟩, h₁, h⟩
  · refine (assignAddresses_error (fun g hg x hx => ?_) h).imp_right .inl
    rw [((mem_entries_domainNewNodes hdn).1 hg).2, mem_newNodesOf] at hx
    exact hr.new_lt x hx.1
  rcases bind_eq_error.1 h with h | ⟨_, -, h⟩
  · exact .inr (.inr (validateSharding_error h))
  rcases bind_eq_error.1 h with h | ⟨u, hu, h⟩
  · obtain ⟨_, hu⟩ := hr.uninformedDomainNodes_ok h₁
    rw [hu] at h
    cases h
  rcases bind_eq_error.1 h with h | ⟨_, -, h⟩
  · obtain ⟨_, _, _, hb, -⟩ := bootDomains_spec cd.nodup (hr.boot_ready hcd h₁ hu)
    rw [hb] at h
    cases h
  · cases h

/-- A node placement that returns emits `on_commit` calls, then one `place_domain` for each
    changed domain that was not running, with all of its nodes; the nodes of the other domains
    are left for `augmentation::inform`. Each node is flagged when it is new. -/
theorem commitNodes_events (hr : Routed c new) {s' : ControllerInner} {evs evs' : List Event}
    {u' : HashMap Nat (List (Nat × Bool))}
    (h : commitNodes passes c new swapped0 swapped1 = .ok (s', evs, evs', u')) :
    (∀ ev ∈ evs, ∃ ni r, ev = .onCommit ni r) ∧
    ∃ booted : List Nat, booted.Nodup ∧
      (∀ d, d ∈ booted ↔ (c.domains.get d).isNone ∧
        ∃ ni ∈ new.elems, placedIn c.ingredients ni = some d) ∧
      List.Forall₂ (fun d ev => ∃ shards, ev = .placeDomain d shards
        ((domainNodes s'.ingredients s'.source d).map fun ni => (ni, decide (ni ∈ new.elems))))
        booted evs' ∧
      ∀ d, u'.get d = if d ∈ booted ∨ domainNodes s'.ingredients s'.source d = [] then none
        else some ((domainNodes s'.ingredients s'.source d).map
          fun ni => (ni, decide (ni ∈ new.elems))) := by
  obtain ⟨cd, dn, m₁, u, hcd, hdn, h₁, -, hu, h₂⟩ := commitNodes_eq_ok h
  obtain ⟨-, -, -, -, -, hd₁, hev₁⟩ := assignAddresses_spec dn.nodup h₁
  obtain ⟨m', u'', evs'', hb, hu'', hev''⟩ := bootDomains_spec cd.nodup (hr.boot_ready hcd h₁ hu)
  rw [h₂] at hb
  simp only [Except.ok.injEq, Prod.mk.injEq] at hb
  obtain ⟨rfl, rfl, rfl⟩ := hb
  obtain ⟨hm', -, -⟩ := bootDomains_frame h₂
  have hs' : s'.ingredients = m₁.ingredients ∧ s'.source = m₁.source := by rw [hm']; exact ⟨rfl, rfl⟩
  rw [hs'.1, hs'.2]
  have hgetD : ∀ d, (u.get d).getD [] = (domainNodes m₁.ingredients m₁.source d).map
      fun ni => (ni, decide (ni ∈ new.elems)) := fun d => by
    rw [uninformedDomainNodes_get hu d]
    split_ifs with hnil
    · rw [hnil]; rfl
    · rfl
  refine ⟨fun ev hev => let ⟨_, _, ni, r, _, _, he, _⟩ := hev₁ ev hev; ⟨ni, r, he⟩,
    cd.elems.filter fun d => !m₁.domains.containsKey d, cd.nodup.filter _,
    fun d => ?_, hev''.imp fun d ev ⟨shards, he⟩ => ⟨shards, he.trans (by rw [hgetD])⟩,
    fun d => ?_⟩
  · rw [List.mem_filter, mem_changedDomains hcd, hd₁]
    cases hget : c.domains.get d <;> simp [HashMap.containsKey, hget, mem_sortedNew]
  · have hb : d ∈ cd.elems.filter (fun d => !m₁.domains.containsKey d) ↔
        d ∈ cd.elems ∧ m₁.domains.containsKey d = false := by simp
    rw [hu'' d, uninformedDomainNodes_get hu d]
    by_cases hbd : d ∈ cd.elems ∧ m₁.domains.containsKey d = false
    · rw [if_pos hbd, if_pos (.inl (hb.2 hbd))]
    · rw [if_neg hbd]
      simp only [hb, hbd, false_or]

end Routed

/-- The passes of a migration from a state with the invariant leave what the node placement
    needs. -/
theorem ControllerInv.routed {s : ControllerInner} (hi : ControllerInv s) {passes : Passes}
    (hp : passes.Lawful) {toString : DataType → String} {context : HashMap String DataType}
    {calls : List BuilderCall} {m : Migration}
    (hm : runCalls toString (Migration.start s context) calls = .ok m) :
    Routed (routeMigration passes m).1 (routeMigration passes m).2.1 := by
  obtain ⟨hsrc, -, -, -, hpf, hnewdom⟩ := routeMigration_spec hp
    (runCalls_builderFrame (BuilderFrame.refl s) hm)
    (runCalls_builderInv (BuilderInv.start s context) hm) hi.source_lt
  have := hi.source_lt
  refine ⟨fun hx => ?_, fun x hx => ((hpf.new_iff x).1 hx).2, fun x n hn hx hdrop => ?_⟩
  · have := ((hpf.new_iff _).1 hx).1
    omega
  · rw [hsrc] at hx
    by_cases hlt : x < s.ingredients.nodeCount
    · have hkeep := hpf.placement x hlt
      rw [hn] at hkeep
      obtain ⟨n₀, hn₀, hp₀⟩ := Option.map_eq_some'.1 hkeep.symm
      simp only [Node.placement, Prod.mk.injEq] at hp₀
      obtain ⟨d, hd, -⟩ := hi.placed x n₀ hn₀ hx (hp₀.2.2.1.trans hdrop)
      rw [← hp₀.1, hd]
      rfl
    · exact hnewdom x n (by omega) hn hdrop

/-! ## The whole commit -/

section Commit

variable {s : ControllerInner} {passes : Passes} {toString : DataType → String}
  {context : HashMap String DataType} {calls : List BuilderCall} {m : Migration}

/-- A target of a packet that exists and is not the source panics only when it is dropped. -/
theorem TargetPanic.dropped {m₂ : ControllerInner} (hi : ControllerInv m₂) {ni : Nat} {n : Node}
    {p : Panic} (hn : m₂.ingredients.node? ni = some n) (hni : ni ≠ m₂.source)
    (h : TargetPanic m₂ ni p) :
    (p.line = 612 ∨ p.line = 617 ∨ p.line = 622) ∧ n.isDropped = true := by
  rcases h.2 with ⟨-, hnone⟩ | ⟨n', hn', hl, hbad⟩
  · rw [hn] at hnone
    cases hnone
  · rw [hn] at hn'
    cases hn'
    cases hd : n.isDropped
    · exact absurd (hi.addressed hn hni hd) hbad
    · exact ⟨hl, rfl⟩

/-- From a state with the invariant, a commit panics only in the swap overlay (lines 509 and
    510), in `sharding::validate` (line 524), or at a column packet for a dropped target. -/
theorem commit_error_lines (hi : ControllerInv s) (hp : passes.Lawful)
    (hm : runCalls toString (Migration.start s context) calls = .ok m) {p : Panic}
    (h : m.commit passes = .error p) :
    p.line = 509 ∨ p.line = 510 ∨ p.line = 524 ∨
      (p.line = 612 ∨ p.line = 617 ∨ p.line = 622) ∧ ∃ ni n, p.node = some ni ∧
        (routeMigration passes m).1.ingredients.node? ni = some n ∧ n.isDropped = true := by
  rcases bind_eq_error.1 h with h | ⟨⟨m₂, evs₁, evs₂, u⟩, hc, h⟩
  · exact ((hi.routed hp hm).commitNodes_error h).imp_right (.imp_right .inl)
  rcases bind_eq_error.1 h with h | ⟨_, -, h⟩
  swap
  · cases h
  have hpl : PlacesNodes s m₂ := ⟨passes, toString, context, calls, m, evs₁, evs₂, u, hp, hm, hc⟩
  have hi₂ := hi.placesNodes hpl
  obtain ⟨hsrc, -, hkeep, -⟩ := hpl.spec hi
  obtain ⟨⟨b, change⟩, hcol, ni, hni, hpanic⟩ := propagateColumns_error h
  -- the dropped target, read back in the graph routing left
  have hrouted : ∀ n, m₂.ingredients.node? ni = some n → n.isDropped = true →
      ∃ n', (routeMigration passes m).1.ingredients.node? ni = some n' ∧ n'.isDropped = true :=
    fun n hn hd => by
      have h' := map_node?_commitNodes Node.isDropped (fun _ _ => rfl) hc ni
      rw [hn, Option.map_some', hd] at h'
      obtain ⟨n', hn', hd'⟩ := Option.map_eq_some'.1 h'.symm
      exact ⟨n', hn', hd'⟩
  have hdropped : ∀ n, m₂.ingredients.node? ni = some n → ni ≠ m₂.source →
      (p.line = 612 ∨ p.line = 617 ∨ p.line = 622) ∧ ∃ ni n, p.node = some ni ∧
        (routeMigration passes m).1.ingredients.node? ni = some n ∧ n.isDropped = true :=
    fun n hn hne => by
      obtain ⟨hl, hd⟩ := hpanic.dropped hi₂ hn hne
      obtain ⟨n', hn', hd'⟩ := hrouted n hn hd
      exact ⟨hl, ni, n', hpanic.1, hn', hd'⟩
  -- the base of the change: there before the migration, a base, so neither dropped nor the source
  have hbase : ni = b → False := by
    rintro rfl
    have hb := runCalls_builderInv (BuilderInv.start s context) hm
    have hlt := hb.column_lt hcol
    obtain ⟨-, hbb⟩ := hb.columns_base _ hcol
    obtain ⟨nb, hnb, hisb⟩ := Option.map_eq_some'.1 hbb
    have hf := (runCalls_builderFrame (BuilderFrame.refl s) hm).placement ni hlt
    rw [hnb] at hf
    obtain ⟨n₀, hn₀, hp₀⟩ := Option.map_eq_some'.1 hf.symm
    have hk := hkeep ni hlt
    rw [hn₀] at hk
    obtain ⟨n₂, hn₂, hp₂⟩ := Option.map_eq_some'.1 hk
    simp only [Node.placement, Prod.mk.injEq] at hp₀ hp₂
    have hne : ni ≠ m₂.source := fun he => by
      rw [hsrc] at he
      subst he
      have := hi.source_not_base n₀ hn₀
      rw [hp₀.2.2.2, hisb] at this
      cases this
    have hd := (hpanic.dropped hi₂ hn₂ hne).2
    rw [hp₂.2.2.1, hp₀.2.2.1, Node.isDropped_eq_false_of_isBase hisb] at hd
    cases hd
  refine .inr (.inr (.inr ?_))
  cases change with
  | add field default =>
    rcases (mem_columnTargets_add _ b ni field default).1 hni with h | ⟨e, -, -, he⟩
    · exact (hbase h).elim
    · obtain ⟨n, hn⟩ := Option.isSome_iff_exists.1
        (Graph.node?_isSome_iff.2 (Graph.snd_lt_of_mem_edges he))
      exact hdropped n hn (hi₂.no_edge_into_source _ he)
  | drop column => exact (hbase (List.mem_singleton.1 hni)).elim

/-- A commit from a state with the invariant that returns emits, in order: `on_commit` calls;
    one `place_domain` for each domain that was not running and received nodes, with all of its
    nodes, each flagged new; `augmentation::inform` with every other domain that holds nodes,
    each of them running, its nodes flagged new exactly when they had no address in the domain
    before; packets; and the wiring and materializations. -/
theorem commit_events (hi : ControllerInv s) (hp : passes.Lawful)
    (hm : runCalls toString (Migration.start s context) calls = .ok m) {s' : ControllerInner}
    {evs : List Event} (h : m.commit passes = .ok (s', evs)) :
    ∃ evs₁ booted evs₂ u evs₃,
      evs = evs₁ ++ evs₂ ++ [.inform u] ++ evs₃ ++ [.connect, .commitMaterializations] ∧
      (∀ ev ∈ evs₁, ∃ ni r, ev = .onCommit ni r) ∧
      (∀ ev ∈ evs₃, ∃ d p, ev = .sendToHealthy d p) ∧ booted.Nodup ∧
      (∀ d, d ∈ booted ↔ (s.domains.get d).isNone ∧
        ∃ ni, s.ingredients.nodeCount ≤ ni ∧ placedIn s'.ingredients ni = some d) ∧
      List.Forall₂ (fun d ev => ∃ shards, ev = .placeDomain d shards
        ((domainNodes s'.ingredients s'.source d).map fun ni => (ni, true))) booted evs₂ ∧
      (∀ d, (u.get d).isSome ↔ domainNodes s'.ingredients s'.source d ≠ [] ∧ d ∉ booted) ∧
      ∀ d l, u.get d = some l → (s.domains.get d).isSome ∧
        l = (domainNodes s'.ingredients s'.source d).map
          fun ni => (ni, decide ((remapTable s d).get ni = none)) := by
  obtain ⟨evs₁, evs₂, u, evs₃, hc, h₃, rfl⟩ := commitRouted_eq_ok h
  obtain ⟨hev₁, booted, hnd, hbooted, hplace, hu⟩ := (hi.routed hp hm).commitNodes_events hc
  have hpl : PlacesNodes s s' := ⟨passes, toString, context, calls, m, evs₁, evs₂, u, hp, hm, hc⟩
  obtain ⟨hsrc, -, hkeep, -⟩ := hpl.spec hi
  obtain ⟨-, -, hdom, -, hpf, -⟩ := routeMigration_spec hp
    (runCalls_builderFrame (BuilderFrame.refl s) hm)
    (runCalls_builderInv (BuilderInv.start s context) hm) hi.source_lt
  obtain ⟨hcount, -⟩ := commitNodes_state hc
  have hplaced := placedIn_commitNodes hc
  set c := (routeMigration passes m).1
  set new := (routeMigration passes m).2.1
  -- a node of `d` after the commit is new, or was placed in `d` before it
  have hnode : ∀ d x, x ∈ domainNodes s'.ingredients s'.source d →
      x ∈ new.elems ∧ placedIn c.ingredients x = some d ∨
      x ≠ s.source ∧ placedIn s.ingredients x = some d ∧ x ∉ new.elems := fun d x hx => by
    obtain ⟨hne, hx'⟩ := mem_domainNodes.1 hx
    rw [hsrc] at hne
    have hlt := lt_of_placedIn_eq_some hx'
    by_cases hold : x < s.ingredients.nodeCount
    · refine .inr ⟨hne, ?_, fun h => by have := ((hpf.new_iff x).1 h).1; omega⟩
      exact (placedIn_congr Node.placement (fun p => if p.2.2.1 then none else p.1)
        (fun _ => rfl) (hkeep x hold)).symm.trans hx'
    · exact .inl ⟨(hpf.new_iff x).2 ⟨by omega, hcount ▸ hlt⟩, (hplaced x).symm.trans hx'⟩
  -- the domain of a node that was there before is running
  have hreg : ∀ d x, x ≠ s.source → placedIn s.ingredients x = some d →
      (s.domains.get d).isSome := fun d x hx hp' => by
    obtain ⟨n, hn, hdrop, hd⟩ := placedIn_eq_some.1 hp'
    obtain ⟨d', hd', hr⟩ := hi.placed x n hn hx hdrop
    rw [hd] at hd'
    cases hd'
    exact hr
  have hallnew : ∀ d, (c.domains.get d).isNone →
      ∀ x ∈ domainNodes s'.ingredients s'.source d, x ∈ new.elems := fun d hnone x hx => by
    rcases hnode d x hx with ⟨h, -⟩ | ⟨hne, hp', -⟩
    · exact h
    · have := hreg d x hne hp'
      rw [← hdom, Option.isNone_iff_eq_none.1 hnone] at this
      cases this
  refine ⟨evs₁, booted, evs₂, u, evs₃, rfl, hev₁, propagateColumns_sendToHealthy h₃, hnd,
    fun d => ?_, ((List.forall₂_and_left _ _).2 ⟨fun d hd => ((hbooted d).1 hd).1, hplace⟩).imp
      fun d ev ⟨hnone, shards, he⟩ => ⟨shards, he.trans (congrArg (Event.placeDomain d shards)
        (List.map_congr_left fun x hx => by simp [hallnew d hnone x hx]))⟩,
    fun d => ?_, fun d l hl => ?_⟩
  · rw [hbooted, hdom]
    refine and_congr_right fun _ => ⟨fun ⟨ni, hni, hp'⟩ => ?_, fun ⟨ni, hle, hp'⟩ => ?_⟩
    · exact ⟨ni, ((hpf.new_iff ni).1 hni).1, (hplaced ni).trans hp'⟩
    · exact ⟨ni, (hpf.new_iff ni).2 ⟨hle, hcount ▸ lt_of_placedIn_eq_some hp'⟩,
        (hplaced ni).symm.trans hp'⟩
  · rw [hu d]
    split_ifs with hif
    · simp only [Option.isSome_none, Bool.false_eq_true, false_iff]
      exact fun ⟨hne, hb⟩ => hif.elim hb hne
    · simp only [Option.isSome_some, true_iff]
      exact ⟨fun h => hif (.inr h), fun h => hif (.inl h)⟩
  · rw [hu d] at hl
    split_ifs at hl with hif
    push_neg at hif
    cases hl
    obtain ⟨x, hx⟩ := List.exists_mem_of_ne_nil _ hif.2
    refine ⟨?_, List.map_congr_left fun y hy => ?_⟩
    · rcases hnode d x hx with ⟨hxnew, hp'⟩ | ⟨hne, hp', -⟩
      · cases hget : s.domains.get d
        · exact absurd ((hbooted d).2 ⟨by rw [hdom, hget]; rfl, x, hxnew, hp'⟩) hif.1
        · rfl
      · exact hreg d x hne hp'
    · rcases hnode d y hy with ⟨hynew, -⟩ | ⟨hne, hp', hyold⟩
      · have hk : (remapTable s d).get y = none := HashMap.get_eq_none_iff.2 fun hk => by
          have h₁ := lt_of_placedIn_eq_some ((hi.mem_remap d y).1 hk).2
          have h₂ := ((hpf.new_iff y).1 hynew).1
          omega
        simp [hynew, hk]
      · have hk : (remapTable s d).get y ≠ none := fun hk =>
          HashMap.get_eq_none_iff.1 hk ((hi.mem_remap d y).2 ⟨hne, hp'⟩)
        simp [hyold, hk]

/-- In every reachable state every node but the source that is not dropped sits in a running
    domain. So a commit there, after builder calls and with passes that keep their contracts,
    panics only in the swap overlay, in `sharding::validate` or at a column packet for a dropped
    target: never at the domain lookups of lines 446-454 and 551-552, nor at the boot of lines
    566-574. A commit that returns places each domain that received new nodes and was not
    running exactly once, with all of its nodes, each new; and informs exactly the other domains
    with nodes, all running, each node flagged new exactly when it had no address there. -/
theorem commit_places_and_informs_domains (hs : Reachable s) (hp : passes.Lawful)
    (hm : runCalls toString (Migration.start s context) calls = .ok m) :
    (∀ ni n, s.ingredients.node? ni = some n → ni ≠ s.source → n.isDropped = false →
      ∃ d, n.domain = some d ∧ (s.domains.get d).isSome) ∧
    (∀ p, m.commit passes = .error p → p.line = 509 ∨ p.line = 510 ∨ p.line = 524 ∨
      (p.line = 612 ∨ p.line = 617 ∨ p.line = 622) ∧ ∃ ni n, p.node = some ni ∧
        (routeMigration passes m).1.ingredients.node? ni = some n ∧ n.isDropped = true) ∧
    ∀ s' evs, m.commit passes = .ok (s', evs) →
      ∃ evs₁ booted evs₂ u evs₃,
        evs = evs₁ ++ evs₂ ++ [.inform u] ++ evs₃ ++ [.connect, .commitMaterializations] ∧
        (∀ ev ∈ evs₁, ∃ ni r, ev = .onCommit ni r) ∧
        (∀ ev ∈ evs₃, ∃ d p, ev = .sendToHealthy d p) ∧ booted.Nodup ∧
        (∀ d, d ∈ booted ↔ (s.domains.get d).isNone ∧
          ∃ ni, s.ingredients.nodeCount ≤ ni ∧ placedIn s'.ingredients ni = some d) ∧
        List.Forall₂ (fun d ev => ∃ shards, ev = .placeDomain d shards
          ((domainNodes s'.ingredients s'.source d).map fun ni => (ni, true))) booted evs₂ ∧
        (∀ d, (u.get d).isSome ↔ domainNodes s'.ingredients s'.source d ≠ [] ∧ d ∉ booted) ∧
        ∀ d l, u.get d = some l → (s.domains.get d).isSome ∧
          l = (domainNodes s'.ingredients s'.source d).map
            fun ni => (ni, decide ((remapTable s d).get ni = none)) :=
  ⟨hs.inv.placed, fun _ h => commit_error_lines hs.inv hp hm h,
    fun _ _ h => commit_events hs.inv hp hm h⟩

/-- In every reachable state, a commit that returns, after builder calls and with passes that
    keep their contracts, sends these packets and no others: for each queued change in queue
    order and each of its targets in order, one packet to the target's running domain `d`,
    carrying the change (the field and default of an added column, the index of a dropped one)
    and the target's local slot `l`; and a target that is not dropped is the node at slot `l`
    of `remap[d]`, so the domain applies the change to that node. -/
theorem commit_column_packets (hs : Reachable s) (hp : passes.Lawful)
    (hm : runCalls toString (Migration.start s context) calls = .ok m) {s' : ControllerInner}
    {evs : List Event} (h : m.commit passes = .ok (s', evs)) :
    List.Forall₂ (fun (t : (Nat × ColumnChange) × Nat) (e : Nat × Packet) => ∃ n d l,
        s'.ingredients.node? t.2 = some n ∧ n.domain = some d ∧ (s'.domains.get d).isSome ∧
        n.localAddr = some l ∧ e = (d, t.1.2.packet l) ∧
        (n.isDropped = false → ∃ ip, (remapTable s' d).get t.2 = some ip ∧ ip.localIdx = some l))
      (m.columns.flatMap fun c => (columnTargets s'.ingredients c.1 c.2).map (c, ·))
      (sentPackets evs) := by
  have hi' := (Reachable.migrate hs ⟨passes, toString, context, calls, m, evs, hp, hm, h⟩).inv
  obtain ⟨evs₁, evs₂, u, evs₃, hc, h₃, rfl⟩ := commitRouted_eq_ok h
  obtain ⟨hev₁, booted, -, -, hev₂, -⟩ := (hs.inv.routed hp hm).commitNodes_events hc
  -- the `on_commit` and `place_domain` calls before the packets send none
  have hsent : sentPackets (evs₁ ++ evs₂ ++ [.inform u] ++ evs₃ ++
      [.connect, .commitMaterializations]) = sentPackets evs₃ := by
    have h₁ : sentPackets evs₁ = [] := List.filterMap_eq_nil_iff.2 fun ev hev => by
      obtain ⟨_, _, rfl⟩ := hev₁ ev hev; rfl
    have h₂ : sentPackets evs₂ = [] := List.filterMap_eq_nil_iff.2 fun ev hev => by
      obtain ⟨_, _, _, rfl⟩ := forall_mem_right_of_forall₂ (P := fun ev => ∃ d shards nodes,
        ev = Event.placeDomain d shards nodes) (fun d _ ⟨shards, he⟩ => ⟨d, shards, _, he⟩) hev₂ ev hev
      rfl
    simp only [sentPackets] at h₁ h₂ ⊢
    simp [List.filterMap_append, h₁, h₂]
  -- a target that is not dropped has its domain's slot for its local address
  have hslot : ∀ x n d l, s'.ingredients.node? x = some n → n.domain = some d →
      n.localAddr = some l → n.isDropped = false →
      ∃ ip, (remapTable s' d).get x = some ip ∧ ip.localIdx = some l := by
    intro x n d l hn hd hl hdrop
    have hpl : placedIn s'.ingredients x = some d := placedIn_eq_some.2 ⟨n, hn, hdrop, hd⟩
    have hx : x ≠ s'.source := fun hx => by
      rw [hx, hi'.source_unplaced] at hpl; cases hpl
    obtain ⟨ip, hip⟩ := HashMap.mem_keys.1 ((hi'.mem_remap d x).2 ⟨hx, hpl⟩)
    obtain ⟨n', hn', hidx⟩ := hi'.remap_index d x ip hip
    rw [hn] at hn'
    cases hn'
    exact ⟨ip, hip, by rw [← hl, Node.localAddr, hidx]; rfl⟩
  rw [hsent]
  exact forall₂_sentPackets ((propagateColumns_packets h₃).imp
    fun t _ ⟨n, d, l, hn, hd, hreg, hl, he⟩ =>
      ⟨d, _, he, n, d, l, hn, hd, hreg, hl, rfl, hslot t.2 n d l hn hd hl⟩)

end Commit

/-- The migration that adds one base to the bare controller: its builder calls return, its
    commit returns, and the commit is as above. -/
theorem commit_places_and_informs_one_base :
    ∃ m, runCalls (fun _ => "global") (Migration.start (ControllerInner.initial none) HashMap.empty)
      [.addBase "b" ["x"] ⟨[.int 0], []⟩] = .ok m ∧ (m.commit (Passes.single 0)).toBool = true ∧
    (∀ ni n, (ControllerInner.initial none).ingredients.node? ni = some n →
      ni ≠ (ControllerInner.initial none).source → n.isDropped = false →
      ∃ d, n.domain = some d ∧ ((ControllerInner.initial none).domains.get d).isSome) ∧
    (∀ p, m.commit (Passes.single 0) = .error p → p.line = 509 ∨ p.line = 510 ∨ p.line = 524 ∨
      (p.line = 612 ∨ p.line = 617 ∨ p.line = 622) ∧ ∃ ni n, p.node = some ni ∧
        (routeMigration (Passes.single 0) m).1.ingredients.node? ni = some n ∧
        n.isDropped = true) ∧
    ∀ s' evs, m.commit (Passes.single 0) = .ok (s', evs) →
      ∃ evs₁ booted evs₂ u evs₃,
        evs = evs₁ ++ evs₂ ++ [.inform u] ++ evs₃ ++ [.connect, .commitMaterializations] ∧
        (∀ ev ∈ evs₁, ∃ ni r, ev = .onCommit ni r) ∧
        (∀ ev ∈ evs₃, ∃ d p, ev = .sendToHealthy d p) ∧ booted.Nodup ∧
        (∀ d, d ∈ booted ↔ ((ControllerInner.initial none).domains.get d).isNone ∧
          ∃ ni, (ControllerInner.initial none).ingredients.nodeCount ≤ ni ∧
            placedIn s'.ingredients ni = some d) ∧
        List.Forall₂ (fun d ev => ∃ shards, ev = .placeDomain d shards
          ((domainNodes s'.ingredients s'.source d).map fun ni => (ni, true))) booted evs₂ ∧
        (∀ d, (u.get d).isSome ↔ domainNodes s'.ingredients s'.source d ≠ [] ∧ d ∉ booted) ∧
        ∀ d l, u.get d = some l → ((ControllerInner.initial none).domains.get d).isSome ∧
          l = (domainNodes s'.ingredients s'.source d).map
            fun ni => (ni, decide ((remapTable (ControllerInner.initial none) d).get ni = none)) := by
  have hb : oneBaseMigration.toBool = true := by decide
  obtain ⟨⟨s, evs⟩, h⟩ := exists_eq_ok_of_toBool hb
  obtain ⟨m, hm, hc⟩ := bind_eq_ok.1 h
  exact ⟨m, hm, by rw [hc]; rfl,
    commit_places_and_informs_domains (.initial none) (Passes.single_lawful 0) hm⟩

/-- A second migration on the controller `oneBaseMigration` leaves: a column added to its base
    `1`, then the base's first column dropped. -/
def addDropCalls : List BuilderCall := [.addColumn 1 "y" (.int 0), .dropColumn 1 0]

/-- The packets of the second migration: the added column, then the dropped one, each to the
    base's domain at the base's slot. -/
theorem commit_column_packets_add_then_drop :
    ∃ s m s' evs, Reachable s ∧
      runCalls (fun _ => "global") (Migration.start s HashMap.empty) addDropCalls = .ok m ∧
      m.commit (Passes.single 0) = .ok (s', evs) ∧
      List.Forall₂ (fun (t : (Nat × ColumnChange) × Nat) (e : Nat × Packet) => ∃ n d l,
          s'.ingredients.node? t.2 = some n ∧ n.domain = some d ∧ (s'.domains.get d).isSome ∧
          n.localAddr = some l ∧ e = (d, t.1.2.packet l) ∧
          (n.isDropped = false → ∃ ip, (remapTable s' d).get t.2 = some ip ∧ ip.localIdx = some l))
        (m.columns.flatMap fun c => (columnTargets s'.ingredients c.1 c.2).map (c, ·))
        (sentPackets evs) := by
  have hb : (oneBaseMigration.bind fun r => (runCalls (fun _ => "global")
      (Migration.start r.1 HashMap.empty) addDropCalls).bind fun m => m.commit (Passes.single 0)).toBool =
      true := by
    decide
  obtain ⟨⟨s', evs⟩, h⟩ := exists_eq_ok_of_toBool hb
  obtain ⟨⟨s, evs₀⟩, h₀, h⟩ := bind_eq_ok.1 h
  obtain ⟨m, hm, hc⟩ := bind_eq_ok.1 h
  obtain ⟨m₀, hm₀, hc₀⟩ := bind_eq_ok.1 h₀
  have hs : Reachable s := .migrate (.initial none)
    ⟨Passes.single 0, _, _, _, m₀, evs₀, Passes.single_lawful 0, hm₀, hc₀⟩
  exact ⟨s, m, s', evs, hs, hm, hc, commit_column_packets hs (Passes.single_lawful 0) hm hc⟩

end Noria
