import NoriaMigrate.Spec.Controller

/-!
# The address and boot loops do not depend on hash iteration order

Rust's `HashMap` and `HashSet` iterate in an order that changes from run to run. The model
walks the maps `commit` builds in insertion order; this module shows that for two of the walks
the choice does not matter. Lines 461-521 walk the map `domain_new_nodes` and lines 560-579 the
set `changed_domains`: for a fixed merged swap table, every other order of either walk returns
when the model's does, with the same controller up to the order in which its maps list their
entries, and with the same `on_commit` and `place_domain` calls up to their order. The merge of
routing's swap table at lines 399-438 is another walk, and its result can depend on the order
(`mergeSwaps_depends_on_order`).

One turn of the address loop reads and writes only its domain's remap table and the nodes of
its group (`assignDomain_congr`), so the turns of two domains commute (`assignDomain_comm`) and,
by induction on the permutation, any two orders of the whole loop agree
(`assignAddresses_perm`). What the boot loop leaves is given by lookups alone
(`bootDomains_eq_ok`), so there two orders agree outright (`bootDomains_perm`).

## Key results

- `ControllerInner.Equiv`: the same controller up to the entry order of its maps.
- `assignAddresses_perm`: the address loop over any permutation of groups of distinct domains
  with disjoint nodes.
- `bootDomains_perm`: the boot loop over any permutation of distinct domains.
- `commitNodes_iteration_order_free`: lines 440-583 for every iteration order of
  `domain_new_nodes` and `changed_domains`.
-/

namespace Noria

/-! ## Controllers up to the order of their maps -/

/-- The same controller up to the order in which its `domains` and `remap` maps list their
    entries: the same graph and fields, and the same answer to every lookup. -/
structure ControllerInner.Equiv (m m' : ControllerInner) : Prop where
  ingredients : m'.ingredients = m.ingredients
  source : m'.source = m.source
  sharding : m'.sharding = m.sharding
  domains : ∀ d, m'.domains.get d = m.domains.get d
  remap : ∀ d, m'.remap.get d = m.remap.get d
  mapMeta : m'.mapMeta = m.mapMeta

namespace ControllerInner.Equiv

theorem refl (m : ControllerInner) : m.Equiv m :=
  ⟨rfl, rfl, rfl, fun _ => rfl, fun _ => rfl, rfl⟩

theorem trans {m₁ m₂ m₃ : ControllerInner} (h₁ : m₁.Equiv m₂) (h₂ : m₂.Equiv m₃) :
    m₁.Equiv m₃ :=
  ⟨h₂.ingredients.trans h₁.ingredients, h₂.source.trans h₁.source,
    h₂.sharding.trans h₁.sharding, fun d => (h₂.domains d).trans (h₁.domains d),
    fun d => (h₂.remap d).trans (h₁.remap d), h₂.mapMeta.trans h₁.mapMeta⟩

end ControllerInner.Equiv

/-! ## Addresses of two groups of nodes -/

/-- Graphs with the same nodes and edges are equal. -/
theorem Graph.ext_node? {g g' : Graph} (hn : ∀ x, g.node? x = g'.node? x)
    (he : g.edges = g'.edges) : g = g' := by
  obtain ⟨nodes, edges, _⟩ := g
  obtain ⟨nodes', edges', _⟩ := g'
  cases List.ext_getElem? hn
  cases he
  rfl

/-- What `setAddrs` leaves at a node depends only on what stood there. -/
theorem node?_setAddrs_congr {x : Nat} (l : List (Nat × IndexPair)) :
    ∀ {g g' : Graph}, g'.node? x = g.node? x → (setAddrs g' l).node? x = (setAddrs g l).node? x := by
  induction l with
  | nil => exact id
  | cons e l ih =>
    refine fun h => ih ?_
    rw [Graph.node?_modifyNode, Graph.node?_modifyNode]
    split
    · subst x; rw [h]
    · exact h

/-- Addresses recorded for two disjoint groups of nodes, in either order, give the same
    graph. -/
theorem setAddrs_comm {g : Graph} {l₁ l₂ : List (Nat × IndexPair)}
    (h : ∀ x ∈ l₁.map Prod.fst, x ∉ l₂.map Prod.fst) :
    setAddrs (setAddrs g l₁) l₂ = setAddrs (setAddrs g l₂) l₁ := by
  refine Graph.ext_node? (fun x => ?_) (by simp)
  by_cases h₁ : x ∈ l₁.map Prod.fst
  · rw [node?_setAddrs_of_not_mem (h x h₁)]
    exact (node?_setAddrs_congr l₁ (node?_setAddrs_of_not_mem (h x h₁))).symm
  · rw [node?_setAddrs_of_not_mem (g := setAddrs g l₂) h₁]
    exact node?_setAddrs_congr l₂ (node?_setAddrs_of_not_mem h₁)

/-! ## One turn of the address loop -/

/-- Lines 472-490 change only the graph and the remap tables. -/
theorem assignLocal_frame {d : Nat} : ∀ {k : Nat} {nodes : List Nat} {m m' : ControllerInner},
    assignLocal d k nodes m = .ok m' →
      m' = { m with ingredients := m'.ingredients, remap := m'.remap }
  | _, [], _, _, h => by cases h; rfl
  | _, _ :: _, _, _, h => by
    obtain ⟨_, -, h⟩ := bind_eq_ok.1 h
    exact (assignLocal_frame h).trans rfl

/-- Lines 472-490 return only on nodes that exist. -/
theorem assignLocal_node?_isSome {d : Nat} :
    ∀ {k : Nat} {nodes : List Nat} {m m' : ControllerInner},
      assignLocal d k nodes m = .ok m' → ∀ x ∈ nodes, (m.ingredients.node? x).isSome
  | _, [], _, _, _, _, hx => by cases hx
  | _, _ :: _, _, _, h, x, hx => by
    obtain ⟨n, hn, h⟩ := bind_eq_ok.1 h
    rcases List.mem_cons.1 hx with rfl | hx
    · rw [unwrapAt_eq_ok.1 hn]; rfl
    · simpa [Graph.node?_isSome_iff] using assignLocal_node?_isSome h x hx

/-- Lines 493-520 read the graph only at the group's nodes, and only the domain's table. -/
theorem initNodes_congr {m m' : ControllerInner} {swapped : SwapTable} {d : Nat} :
    ∀ {nodes : List Nat}, (∀ x ∈ nodes, m'.ingredients.node? x = m.ingredients.node? x) →
      m'.remap.get d = m.remap.get d → initNodes m' swapped d nodes = initNodes m swapped d nodes
  | [], _, _ => rfl
  | ni :: _, hn, hr => by
    simp only [initNodes, initNode, hn ni (List.mem_cons_self _ _), hr,
      initNodes_congr (fun x hx => hn x (List.mem_cons_of_mem _ hx)) hr]

/-- One turn of lines 463-520 changes only the graph and the remap tables. -/
theorem assignDomain_frame {swapped : SwapTable} {d : Nat} {nodes : List Nat}
    {m m' : ControllerInner} {evs : List Event} (h : assignDomain swapped d nodes m = .ok (m', evs)) :
    m' = { m with ingredients := m'.ingredients, remap := m'.remap } := by
  unfold assignDomain at h
  split at h
  · cases h; rfl
  · obtain ⟨_, h₁, h⟩ := bind_eq_ok.1 h
    obtain ⟨_, -, h⟩ := bind_eq_ok.1 h
    cases h
    exact assignLocal_frame h₁

/-- One turn of lines 463-520 reads only the group's nodes and the domain's table: on a
    controller that agrees there, it returns too, with the same `on_commit` calls. -/
theorem assignDomain_congr {swapped : SwapTable} {d : Nat} {nodes : List Nat}
    {m m' m₁ : ControllerInner} {evs : List Event}
    (hn : ∀ x ∈ nodes, m'.ingredients.node? x = m.ingredients.node? x)
    (hr : m'.remap.get d = m.remap.get d) (h : assignDomain swapped d nodes m = .ok (m₁, evs)) :
    ∃ m₁', assignDomain swapped d nodes m' = .ok (m₁', evs) := by
  unfold assignDomain at h ⊢
  split at h <;> rename_i hne
  · cases h; exact ⟨m', if_pos hne⟩
  · obtain ⟨_, hr₁, h⟩ := bind_eq_ok.1 h
    obtain ⟨_, hevs, h⟩ := bind_eq_ok.1 h
    cases h
    rw [← hr] at hr₁
    cases hr' : assignLocal d (((m'.remap.get d).map HashMap.len).getD 0) nodes m' with
    | error p =>
      refine absurd hr' (assignLocal_ne_error fun x hx => Graph.node?_isSome_iff.1 ?_)
      rw [hn x hx]; exact assignLocal_node?_isSome hr₁ x hx
    | ok r' =>
      obtain ⟨hg, hrr, -⟩ := assignLocal_spec hr₁
      obtain ⟨hg', hrr', -⟩ := assignLocal_spec hr'
      have hinit : initNodes r' swapped d nodes = initNodes m₁ swapped d nodes :=
        initNodes_congr (fun x _ => by rw [hg, hg']; exact node?_setAddrs_congr _ (hn x ‹_›))
          (by rw [hrr, hrr', hr])
      exact ⟨r', by simp only [if_neg hne, hr', ok_bind, hinit, hevs]; rfl⟩

/-- One turn of the address loop on controllers that agree up to the order of their maps
    returns on both, with the same calls, and leaves them agreeing. -/
theorem assignDomain_equiv {swapped : SwapTable} {d : Nat} {nodes : List Nat}
    {m m' m₁ : ControllerInner} {evs : List Event} (he : m.Equiv m')
    (h : assignDomain swapped d nodes m = .ok (m₁, evs)) :
    ∃ m₁', assignDomain swapped d nodes m' = .ok (m₁', evs) ∧ m₁.Equiv m₁' := by
  obtain ⟨m₁', h'⟩ := assignDomain_congr (fun x _ => by rw [he.ingredients]) (he.remap d) h
  obtain ⟨hg, hr, hs, hsh, hd, -⟩ := assignDomain_spec h
  obtain ⟨hg', hr', hs', hsh', hd', -⟩ := assignDomain_spec h'
  have ht : remapTable m' d = remapTable m d := by rw [remapTable, remapTable, he.remap]
  refine ⟨m₁', h', ⟨?_, ?_, ?_, fun d' => ?_, fun d' => ?_, ?_⟩⟩
  · rw [hg, hg', he.ingredients, ht]
  · rw [hs, hs', he.source]
  · rw [hsh, hsh', he.sharding]
  · rw [hd, hd', he.domains]
  · rw [hr, hr', ht, he.remap]
  · rw [assignDomain_frame h, assignDomain_frame h']; exact he.mapMeta

/-- Two turns of the address loop for different domains with disjoint groups commute. -/
theorem assignDomain_comm {swapped : SwapTable} {d₁ d₂ : Nat} {nodes₁ nodes₂ : List Nat}
    {m m₁ m₁₂ : ControllerInner} {evs₁ evs₂ : List Event} (hd : d₁ ≠ d₂)
    (hdisj : nodes₁.Disjoint nodes₂)
    (h₁ : assignDomain swapped d₁ nodes₁ m = .ok (m₁, evs₁))
    (h₁₂ : assignDomain swapped d₂ nodes₂ m₁ = .ok (m₁₂, evs₂)) :
    ∃ m₂ m₂₁, assignDomain swapped d₂ nodes₂ m = .ok (m₂, evs₂) ∧
      assignDomain swapped d₁ nodes₁ m₂ = .ok (m₂₁, evs₁) ∧ m₁₂.Equiv m₂₁ := by
  obtain ⟨hg₁, hr₁, hs₁, hsh₁, hd₁, -⟩ := assignDomain_spec h₁
  -- each turn leaves the other group's nodes and table alone
  have hr₁₂ : m₁.remap.get d₂ = m.remap.get d₂ := by rw [hr₁, if_neg fun h => hd h.1.symm]
  obtain ⟨m₂, h₂⟩ := assignDomain_congr (fun x hx => by
    rw [hg₁, node?_setAddrs_of_not_mem (by rw [map_fst_slotted]; exact fun h => hdisj h hx)])
    hr₁₂.symm h₁₂
  obtain ⟨hg₂, hr₂, hs₂, hsh₂, hd₂, -⟩ := assignDomain_spec h₂
  have hr₂₁ : m₂.remap.get d₁ = m.remap.get d₁ := by rw [hr₂, if_neg fun h => hd h.1]
  obtain ⟨m₂₁, h₂₁⟩ := assignDomain_congr (fun x hx => by
    rw [hg₂, node?_setAddrs_of_not_mem (by rw [map_fst_slotted]; exact fun h => hdisj hx h)])
    hr₂₁ h₁
  refine ⟨m₂, m₂₁, h₂, h₂₁, ?_⟩
  obtain ⟨hg₁₂, hr₁₂', hs₁₂, hsh₁₂, hd₁₂, -⟩ := assignDomain_spec h₁₂
  obtain ⟨hg₂₁, hr₂₁', hs₂₁, hsh₂₁, hd₂₁, -⟩ := assignDomain_spec h₂₁
  have ht₁ : remapTable m₂ d₁ = remapTable m d₁ := by rw [remapTable, remapTable, hr₂₁]
  have ht₂ : remapTable m₁ d₂ = remapTable m d₂ := by rw [remapTable, remapTable, hr₁₂]
  refine ⟨?_, by rw [hs₂₁, hs₂, hs₁₂, hs₁], by rw [hsh₂₁, hsh₂, hsh₁₂, hsh₁],
    fun d => by rw [hd₂₁, hd₂, hd₁₂, hd₁], fun d => ?_, ?_⟩
  · rw [hg₂₁, hg₂, hg₁₂, hg₁, ht₁, ht₂]
    exact (setAddrs_comm fun x hx hx' => hdisj (by simpa using hx) (by simpa using hx')).symm
  · rw [hr₂₁', hr₂, hr₁₂', hr₁, ht₁, ht₂]
    by_cases h : d = d₁
    · subst h; simp [hd]
    · simp [h]
  · rw [assignDomain_frame h₂₁, assignDomain_frame h₂, assignDomain_frame h₁₂,
      assignDomain_frame h₁]

/-! ## The whole address loop -/

theorem assignAddresses_cons_eq_ok {swapped : SwapTable} {d : Nat} {nodes : List Nat}
    {rest : List (Nat × List Nat)} {m m₁ m₂ : ControllerInner} {evs₁ evs₂ : List Event}
    (h₁ : assignDomain swapped d nodes m = .ok (m₁, evs₁))
    (h₂ : assignAddresses swapped rest m₁ = .ok (m₂, evs₂)) :
    assignAddresses swapped ((d, nodes) :: rest) m = .ok (m₂, evs₁ ++ evs₂) := by
  simp only [assignAddresses, h₁, h₂, ok_bind]; rfl

theorem assignAddresses_cons_inv {swapped : SwapTable} {d : Nat} {nodes : List Nat}
    {rest : List (Nat × List Nat)} {m m₂ : ControllerInner} {evs : List Event}
    (h : assignAddresses swapped ((d, nodes) :: rest) m = .ok (m₂, evs)) :
    ∃ m₁ evs₁ evs₂, assignDomain swapped d nodes m = .ok (m₁, evs₁) ∧
      assignAddresses swapped rest m₁ = .ok (m₂, evs₂) ∧ evs = evs₁ ++ evs₂ := by
  rw [assignAddresses] at h
  obtain ⟨⟨m₁, evs₁⟩, h₁, h⟩ := bind_eq_ok.1 h
  obtain ⟨⟨m₂, evs₂⟩, h₂, h⟩ := bind_eq_ok.1 h
  cases h
  exact ⟨m₁, evs₁, evs₂, h₁, h₂, rfl⟩

/-- The address loop on controllers that agree up to the order of their maps. -/
theorem assignAddresses_equiv {swapped : SwapTable} :
    ∀ {groups : List (Nat × List Nat)} {m m' m₁ : ControllerInner} {evs : List Event},
      m.Equiv m' → assignAddresses swapped groups m = .ok (m₁, evs) →
      ∃ m₁', assignAddresses swapped groups m' = .ok (m₁', evs) ∧ m₁.Equiv m₁'
  | [], _, _, _, _, he, h => by cases h; exact ⟨_, rfl, he⟩
  | (_, _) :: _, _, _, _, _, he, h => by
    obtain ⟨ma, ea, eb, ha, hb, rfl⟩ := assignAddresses_cons_inv h
    obtain ⟨ma', ha', hea⟩ := assignDomain_equiv he ha
    obtain ⟨mb', hb', heb⟩ := assignAddresses_equiv hea hb
    exact ⟨mb', assignAddresses_cons_eq_ok ha' hb', heb⟩

/-- Lines 461-521 over groups of distinct domains with disjoint nodes, in any order: every
    permutation of the groups returns when one does, with the same controller up to the order
    of its maps and the same `on_commit` calls up to their order. -/
theorem assignAddresses_perm {swapped : SwapTable} {groups groups' : List (Nat × List Nat)}
    (hperm : groups.Perm groups') :
    groups.Pairwise (fun p q => p.1 ≠ q.1 ∧ p.2.Disjoint q.2) →
    ∀ {m m₁ : ControllerInner} {evs₁ : List Event},
      assignAddresses swapped groups m = .ok (m₁, evs₁) →
      ∃ m₂ evs₂, assignAddresses swapped groups' m = .ok (m₂, evs₂) ∧ m₁.Equiv m₂ ∧
        evs₁.Perm evs₂ := by
  induction hperm with
  | nil => exact fun _ _ _ _ h => ⟨_, _, h, .refl _, .refl _⟩
  | cons p _ ih =>
    intro hsep m m₁ evs₁ h
    obtain ⟨ma, ea, eb, ha, hb, rfl⟩ := assignAddresses_cons_inv h
    obtain ⟨mb', eb', hb', he, hp⟩ := ih (List.pairwise_cons.1 hsep).2 hb
    exact ⟨mb', ea ++ eb', assignAddresses_cons_eq_ok ha hb', he, hp.append_left ea⟩
  | swap p q l =>
    intro hsep m m₁ evs₁ h
    have hqp := List.rel_of_pairwise_cons hsep (List.mem_cons_self _ _)
    -- the turns of `q` and `p` trade places; the rest of the loop runs on agreeing controllers
    obtain ⟨ma, ea, ebc, ha, hbc, rfl⟩ := assignAddresses_cons_inv h
    obtain ⟨mb, eb, ec, hb, hc, rfl⟩ := assignAddresses_cons_inv hbc
    obtain ⟨m₂, m₂₁, h₂, h₂₁, he⟩ := assignDomain_comm hqp.1 hqp.2 ha hb
    obtain ⟨mc', hc', he'⟩ := assignAddresses_equiv he hc
    refine ⟨mc', eb ++ (ea ++ ec), assignAddresses_cons_eq_ok h₂
      (assignAddresses_cons_eq_ok h₂₁ hc'), he', ?_⟩
    rw [← List.append_assoc, ← List.append_assoc]
    exact List.perm_append_comm.append_right _
  | trans h₁₂ _ ih₁ ih₂ =>
    intro hsep m m₁ evs₁ h
    obtain ⟨m₂, evs₂, h₂, he₂, hp₂⟩ := ih₁ hsep h
    obtain ⟨m₃, evs₃, h₃, he₃, hp₃⟩ :=
      ih₂ ((h₁₂.pairwise_iff fun h => ⟨h.1.symm, fun _ ha hb => h.2 hb ha⟩).1 hsep) h₂
    exact ⟨m₃, evs₃, h₃, he₂.trans he₃, hp₂.trans hp₃⟩

/-! ## The boot loop -/

/-- The handle lines 565-577 give a domain that is not running: its index and the shard count
    of the first of its nodes. -/
def bootHandle (m : ControllerInner) (u : HashMap Nat (List (Nat × Bool))) (d : Nat) :
    Option DomainHandle :=
  ((u.get d).bind List.head?).bind fun x =>
    (m.ingredients.node? x.1).map fun n => ⟨d, n.shardedBy.shards⟩

/-- The `place_domain` call lines 560-579 make for a domain that is not running. -/
def bootEvent (m : ControllerInner) (u : HashMap Nat (List (Nat × Bool))) (d : Nat) : Event :=
  .placeDomain d ((bootHandle m u d).bind DomainHandle.shards) ((u.get d).getD [])

theorem exists_of_bootHandle_isSome {m : ControllerInner} {u : HashMap Nat (List (Nat × Bool))}
    {d : Nat} (h : (bootHandle m u d).isSome) :
    ∃ x xs, u.get d = some (x :: xs) ∧ (m.ingredients.node? x.1).isSome := by
  unfold bootHandle at h
  cases hu : u.get d with
  | none => rw [hu] at h; cases h
  | some nodes =>
    cases nodes with
    | nil => rw [hu] at h; cases h
    | cons x xs => rw [hu] at h; exact ⟨x, xs, rfl, by simpa using h⟩

/-- Lines 560-579 over distinct domains, when they return: every domain that was not running
    had a node list whose first node exists, and got the handle `bootHandle`; the calls are
    the `place_domain` calls of those domains, in order. -/
theorem bootDomains_eq_ok :
    ∀ {changed : List Nat} {m m' : ControllerInner} {u u' : HashMap Nat (List (Nat × Bool))}
      {evs : List Event}, changed.Nodup → bootDomains m u changed = .ok (m', u', evs) →
      (∀ d ∈ changed, m.domains.containsKey d = false → (bootHandle m u d).isSome) ∧
      (∀ d, m'.domains.get d = if d ∈ changed ∧ m.domains.containsKey d = false
        then bootHandle m u d else m.domains.get d) ∧
      evs = (changed.filter fun d => !m.domains.containsKey d).map (bootEvent m u)
  | [], _, _, _, _, _, _, h => by cases h; exact ⟨by simp, fun _ => by simp, rfl⟩
  | d :: rest, m, m', u, u', evs, hnd, h => by
    rw [List.nodup_cons] at hnd
    rw [bootDomains] at h
    split at h <;> rename_i hreg
    · -- `d` is already running
      obtain ⟨hready, hdom, hevs⟩ := bootDomains_eq_ok hnd.2 h
      refine ⟨fun d' hd' hr => hready d' ((List.mem_cons.1 hd').resolve_left ?_) hr,
        fun d' => ?_, by rw [hevs, List.filter_cons_of_neg (by simp [hreg])]⟩
      · rintro rfl; rw [hreg] at hr; cases hr
      · rw [hdom]
        by_cases hd' : d' = d
        · subst hd'; simp [hreg, hnd.1]
        · simp [hd']
    · obtain ⟨nodes, hnodes, h⟩ := bind_eq_ok.1 h
      obtain ⟨first, hfirst, h⟩ := bind_eq_ok.1 h
      obtain ⟨n, hn, h⟩ := bind_eq_ok.1 h
      obtain ⟨⟨m₂, u₂, evs₂⟩, h₂, h⟩ := bind_eq_ok.1 h
      cases h
      let m₁ : ControllerInner := { m with domains := m.domains.insert d ⟨d, n.shardedBy.shards⟩ }
      have h₂ : bootDomains m₁ (u.remove d).2 rest = .ok (m', u', evs₂) := h₂
      obtain ⟨hready, hdom, hevs⟩ := bootDomains_eq_ok hnd.2 h₂
      replace hnodes : u.get d = some nodes := unwrapAt_eq_ok.1 hnodes
      replace hfirst := unwrapAt_eq_ok.1 hfirst
      replace hn := unwrapAt_eq_ok.1 hn
      have hd : bootHandle m u d = some ⟨d, n.shardedBy.shards⟩ := by
        simp [bootHandle, hnodes, hfirst, hn]
      -- the rest of the loop sees `d` running, and every other domain as before
      have hreg' : ∀ d' ≠ d, m₁.domains.containsKey d' = m.domains.containsKey d' :=
        fun d' hd' => by simp [m₁, HashMap.containsKey, hd']
      have hb : ∀ d' ≠ d, bootHandle m₁ (u.remove d).2 d' = bootHandle m u d' :=
        fun d' hd' => by simp [m₁, bootHandle, hd']
      have hne : ∀ d' ∈ rest, d' ≠ d := fun d' hd' h => hnd.1 (h ▸ hd')
      refine ⟨fun d' hd' hr => ?_, fun d' => ?_, ?_⟩
      · rcases List.mem_cons.1 hd' with rfl | hd'
        · rw [hd]; rfl
        · rw [← hb d' (hne d' hd')]
          exact hready d' hd' (by rwa [hreg' d' (hne d' hd')])
      · rw [hdom]
        by_cases hd' : d' = d
        · subst hd'; simp [hnd.1, hreg, hd]
        · simp only [hreg' d' hd', hb d' hd', List.mem_cons, hd', false_or]
          simp [hd']
      · rw [List.filter_cons_of_pos (by simp [hreg]), List.map_cons, hevs,
          List.filter_congr fun d' hd' => by rw [hreg' d' (hne d' hd')]]
        refine congrArg₂ List.cons (by simp [bootEvent, hd, hnodes]) (List.map_congr_left
          fun d' hd' => ?_)
        have hd'' := hne d' (List.mem_filter.1 hd').1
        simp [bootEvent, hb d' hd'', hd'']

/-- Lines 560-579 over distinct domains in any order, on a controller that agrees up to the
    order of its maps: every order returns when one does, registers the same handles, leaves
    the same nodes to inform, and makes the same `place_domain` calls up to their order. -/
theorem bootDomains_perm {changed changed' : List Nat} {m m' m₁ : ControllerInner}
    {u u₁ : HashMap Nat (List (Nat × Bool))} {evs₁ : List Event}
    (hperm : changed.Perm changed') (hnd : changed.Nodup) (he : m.Equiv m')
    (h : bootDomains m u changed = .ok (m₁, u₁, evs₁)) :
    ∃ m₂ u₂ evs₂, bootDomains m' u changed' = .ok (m₂, u₂, evs₂) ∧ m₁.Equiv m₂ ∧
      (∀ d, u₂.get d = u₁.get d) ∧ evs₁.Perm evs₂ := by
  have hnd' := hperm.nodup_iff.1 hnd
  have hc : ∀ d, m'.domains.containsKey d = m.domains.containsKey d := fun d => by
    simp only [HashMap.containsKey, he.domains]
  have hb : bootHandle m' u = bootHandle m u :=
    funext fun d => by simp only [bootHandle, he.ingredients]
  have hev : bootEvent m' u = bootEvent m u := funext fun d => by simp only [bootEvent, hb]
  obtain ⟨hready, hdom, hevs⟩ := bootDomains_eq_ok hnd h
  obtain ⟨m₁', u₁', evs₁', h₁, hu₁, -⟩ := bootDomains_spec hnd fun d hd hr =>
    exists_of_bootHandle_isSome (hready d hd hr)
  rw [h] at h₁
  cases h₁
  obtain ⟨m₂, u₂, evs₂, h₂, hu₂, -⟩ := bootDomains_spec hnd' fun d hd hr =>
    exists_of_bootHandle_isSome (m := m')
      (hb ▸ hready d (hperm.mem_iff.2 hd) (by rwa [← hc]))
  obtain ⟨-, hdom₂, hevs₂⟩ := bootDomains_eq_ok hnd' h₂
  obtain ⟨hm₁, -⟩ := bootDomains_frame h
  obtain ⟨hm₂, -⟩ := bootDomains_frame h₂
  refine ⟨m₂, u₂, evs₂, h₂, ?_, fun d => ?_, ?_⟩
  · rw [hm₂, hm₁]
    refine ⟨he.ingredients, he.source, he.sharding, fun d => ?_, he.remap, he.mapMeta⟩
    show m₂.domains.get d = m₁.domains.get d
    rw [hdom₂, hdom, hc, hb, he.domains]
    simp only [hperm.mem_iff]
  · rw [hu₂, hu₁, hc]
    simp only [hperm.mem_iff]
  · rw [hevs, hevs₂, hev]
    simp only [hc]
    exact (hperm.filter _).map _

/-! ## The node placement of a commit -/

/-- The groups lines 450-458 build are for distinct domains and share no node. -/
theorem pairwise_entries_domainNewNodes {g : Graph} {source : Nat} {new : HashSet Nat}
    {dn : HashMap Nat (List Nat)} (h : domainNewNodes g source (sortedNew new) = .ok dn) :
    dn.entries.Pairwise fun p q => p.1 ≠ q.1 ∧ p.2.Disjoint q.2 := by
  refine (List.pairwise_map.1 dn.nodup).imp_of_mem fun hp hq hne => ⟨hne, fun x hx hy => hne ?_⟩
  rw [((mem_entries_domainNewNodes h).1 hp).2, mem_newNodesOf] at hx
  rw [((mem_entries_domainNewNodes h).1 hq).2, mem_newNodesOf] at hy
  exact Option.some_injective _ (hx.2.2.symm.trans hy.2.2)

/-- Lines 440-583 whatever order the map `domain_new_nodes` and the set `changed_domains` are
    iterated in: the address loop over any order of the map's entries, then the boot loop over
    any order of the set's elements, return when the model's orders do, with the same
    controller up to the order of its maps, the same nodes left to inform, and the same
    `on_commit` and `place_domain` calls up to their order. -/
theorem commitNodes_iteration_order_free {passes : Passes} {c : ControllerInner}
    {new : HashSet Nat} {swapped0 swapped1 : SwapTable} {s' : ControllerInner}
    {evs evs' : List Event} {u' : HashMap Nat (List (Nat × Bool))} {cd : HashSet Nat}
    {dn : HashMap Nat (List Nat)} {groups : List (Nat × List Nat)} {order : List Nat}
    (h : commitNodes passes c new swapped0 swapped1 = .ok (s', evs, evs', u'))
    (hcd : changedDomains c.ingredients (sortedNew new) = .ok cd)
    (hdn : domainNewNodes c.ingredients c.source (sortedNew new) = .ok dn)
    (hgroups : dn.entries.Perm groups) (horder : cd.elems.Perm order) :
    ∃ m₁ evs₁ u s₂ u₂ evs₂,
      assignAddresses (mergeSwaps c.ingredients swapped0 swapped1) groups c = .ok (m₁, evs₁) ∧
      validateSharding passes m₁ new = .ok () ∧ uninformedDomainNodes m₁ new = .ok u ∧
      bootDomains m₁ u order = .ok (s₂, u₂, evs₂) ∧
      s'.Equiv s₂ ∧ (∀ d, u₂.get d = u'.get d) ∧ evs.Perm evs₁ ∧ evs'.Perm evs₂ := by
  obtain ⟨cd', dn', m₁, u, hcd', hdn', h₁, hv, hu, h₂⟩ := commitNodes_eq_ok h
  cases hcd.symm.trans hcd'
  cases hdn.symm.trans hdn'
  obtain ⟨m₂, evs₂, h₁', he₁, hp₁⟩ :=
    assignAddresses_perm hgroups (pairwise_entries_domainNewNodes hdn) h₁
  -- validation and the uninformed map read only the graph, the source and the sharding
  have hv' : validateSharding passes m₂ new = .ok () := by
    rw [← hv]; unfold validateSharding; rw [he₁.sharding, he₁.ingredients, he₁.source]
  have hu' : uninformedDomainNodes m₂ new = .ok u := by
    rw [← hu]; unfold uninformedDomainNodes; rw [he₁.ingredients, he₁.source]
  obtain ⟨s₂, u₂, evs₂', h₂', he₂, hu₂, hp₂⟩ := bootDomains_perm horder cd.nodup he₁ h₂
  exact ⟨m₂, evs₂, u, s₂, u₂, evs₂', h₁', hv', hu', h₂', he₂, hu₂, hp₁, hp₂⟩

/-- Two domains with new nodes, neither running: the base `1` of domain `0`, and the base `2`
    with its child `3` of domain `1`, under the source `0`. -/
def twoDomainController : ControllerInner :=
  ⟨⟨[Node.new "source" [] .source,
      ⟨"a", ["x"], some 0, none, .base ⟨[.int 0], []⟩, .none⟩,
      ⟨"b", ["x"], some 1, none, .base ⟨[.int 0], []⟩, .none⟩,
      ⟨"j", ["x"], some 1, none, .internal, .none⟩],
    [(2, 3), (0, 2), (0, 1)], by decide⟩, 0, none, HashMap.empty, HashMap.empty,
   ⟨HashMap.empty, HashMap.empty⟩⟩

/-- The nodes `1`, `2` and `3` of `twoDomainController` are new. -/
def twoDomainNew : HashSet Nat := HashSet.ofList [1, 2, 3]

/-- Placing the nodes of `twoDomainController` with domain `1` visited first in both loops. -/
theorem commitNodes_iteration_order_free_two_domains :
    ∃ s' evs evs' u' cd dn,
      commitNodes (Passes.single 0) twoDomainController twoDomainNew HashMap.empty
        HashMap.empty = .ok (s', evs, evs', u') ∧
      changedDomains twoDomainController.ingredients (sortedNew twoDomainNew) = .ok cd ∧
      domainNewNodes twoDomainController.ingredients twoDomainController.source
        (sortedNew twoDomainNew) = .ok dn ∧
      dn.entries.Perm [(1, [2, 3]), (0, [1])] ∧ cd.elems.Perm [1, 0] ∧
      ∃ m₁ evs₁ u s₂ u₂ evs₂,
        assignAddresses (mergeSwaps twoDomainController.ingredients HashMap.empty HashMap.empty)
          [(1, [2, 3]), (0, [1])] twoDomainController = .ok (m₁, evs₁) ∧
        validateSharding (Passes.single 0) m₁ twoDomainNew = .ok () ∧
        uninformedDomainNodes m₁ twoDomainNew = .ok u ∧
        bootDomains m₁ u [1, 0] = .ok (s₂, u₂, evs₂) ∧
        s'.Equiv s₂ ∧ (∀ d, u₂.get d = u'.get d) ∧ evs.Perm evs₁ ∧ evs'.Perm evs₂ := by
  obtain ⟨⟨s', evs, evs', u'⟩, h⟩ := exists_eq_ok_of_toBool (e := commitNodes (Passes.single 0)
    twoDomainController twoDomainNew HashMap.empty HashMap.empty) (by decide)
  obtain ⟨cd, hcd⟩ := exists_eq_ok_of_toBool
    (e := changedDomains twoDomainController.ingredients (sortedNew twoDomainNew)) (by decide)
  obtain ⟨dn, hdn⟩ := exists_eq_ok_of_toBool (e := domainNewNodes twoDomainController.ingredients
    twoDomainController.source (sortedNew twoDomainNew)) (by decide)
  have hcd' : (changedDomains twoDomainController.ingredients (sortedNew twoDomainNew)).toOption.map
      HashSet.elems = some [0, 1] := by decide
  have hdn' : (domainNewNodes twoDomainController.ingredients twoDomainController.source
      (sortedNew twoDomainNew)).toOption.map HashMap.entries = some [(0, [1]), (1, [2, 3])] := by
    decide
  rw [hcd] at hcd'
  rw [hdn] at hdn'
  have hgroups : dn.entries.Perm [(1, [2, 3]), (0, [1])] := by
    rw [Option.some.inj hdn']; exact .swap _ _ _
  have horder : cd.elems.Perm [1, 0] := by rw [Option.some.inj hcd']; exact .swap _ _ _
  exact ⟨s', evs, evs', u', cd, dn, h, hcd, hdn, hgroups, horder,
    commitNodes_iteration_order_free h hcd hdn hgroups horder⟩

end Noria
