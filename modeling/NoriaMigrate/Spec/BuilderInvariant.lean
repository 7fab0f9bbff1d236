import NoriaMigrate.Spec.Builder
import NoriaMigrate.Native.Commit

/-!
# The builder invariant

`BuilderInv n0 m` is what every sequence of builder calls keeps true of a migration begun
when the graph had `n0` nodes: the nodes created since are exactly `added` together with the
readers, each once; every reader's only in-edge comes from its target; and every queued
column change names a base node that the migration did not add.

There is one preservation lemma per shape of call (append a node, replace a base node, add a
reader, set a reader's key), and `runCalls_builderInv` runs them along a call sequence.
`runCalls_new_nodes_spec` reads the invariant off at the end of the calls: the new-node set
`commit` starts from holds every node the migration created.
-/

namespace Noria

/-- What the builder calls keep true of a migration begun when the graph had `n0` nodes. -/
structure BuilderInv (n0 : Nat) (m : Migration) : Prop where
  le_nodeCount : n0 ≤ m.mainline.ingredients.nodeCount
  created_perm :
    (List.range' n0 (m.mainline.ingredients.nodeCount - n0)).Perm (m.added ++ m.readers.values)
  reader_inEdges : ∀ n r, m.readers.get n = some r →
    m.mainline.ingredients.edges.filter (fun e => e.2 = r) = [(n, r)]
  reader_isReader : ∀ n r, m.readers.get n = some r →
    (m.mainline.ingredients.node? r).map Node.isReader = some true
  columns_base : ∀ c ∈ m.columns,
    c.1 ∉ m.added ∧ (m.mainline.ingredients.node? c.1).map Node.isBase = some true

theorem Node.isReader_eq_false_of_isBase {n : Node} (h : n.isBase = true) :
    n.isReader = false := by
  unfold Node.isBase at h; unfold Node.isReader
  split at h <;> simp_all

namespace BuilderInv

variable {n0 : Nat} {m : Migration}

theorem start (mainline : ControllerInner) (context : HashMap String DataType) :
    BuilderInv mainline.ingredients.nodeCount (Migration.start mainline context) where
  le_nodeCount := le_refl _
  created_perm := by simp [Migration.start, HashMap.values, HashMap.empty]
  reader_inEdges := by simp [Migration.start]
  reader_isReader := by simp [Migration.start]
  columns_base := by simp [Migration.start]

/-- A created node is one of the graph's nodes. -/
theorem lt_of_mem_created (hi : BuilderInv n0 m) {ni : Nat}
    (h : ni ∈ m.added ++ m.readers.values) : ni < m.mainline.ingredients.nodeCount := by
  have := (List.mem_range'_1.1 (hi.created_perm.mem_iff.2 h)).2
  have := hi.le_nodeCount
  omega

theorem lt_of_reader (hi : BuilderInv n0 m) {n r : Nat} (h : m.readers.get n = some r) :
    r < m.mainline.ingredients.nodeCount :=
  hi.lt_of_mem_created (List.mem_append_right _
    (List.mem_map_of_mem Prod.snd (HashMap.mem_entries.2 h)))

/-- A queued column change names a node of the graph. -/
theorem column_lt_nodeCount (hi : BuilderInv n0 m) {c : Nat × ColumnChange} (hc : c ∈ m.columns) :
    c.1 < m.mainline.ingredients.nodeCount := by
  obtain ⟨nd, hnd, -⟩ := Option.map_eq_some'.1 (hi.columns_base c hc).2
  exact Graph.node?_isSome_iff.1 (by rw [hnd]; rfl)

/-- A queued column change names a node that was there before the migration began: a base the
    migration did not add is not one it created, since the readers it created are readers. -/
theorem column_lt (hi : BuilderInv n0 m) {c : Nat × ColumnChange} (hc : c ∈ m.columns) :
    c.1 < n0 := by
  obtain ⟨hna, hbase⟩ := hi.columns_base c hc
  obtain ⟨nd, hnd, hb⟩ := Option.map_eq_some'.1 hbase
  by_contra hge
  have hlt := hi.column_lt_nodeCount hc
  have := hi.le_nodeCount
  have hmem : c.1 ∈ List.range' n0 (m.mainline.ingredients.nodeCount - n0) :=
    List.mem_range'_1.2 ⟨by omega, by omega⟩
  rcases List.mem_append.1 (hi.created_perm.mem_iff.1 hmem) with h | h
  · exact hna h
  · obtain ⟨n, hn⟩ := HashMap.mem_values.1 h
    have hr := hi.reader_isReader n c.1 hn
    rw [hnd, Option.map_some', Node.isReader_eq_false_of_isBase hb] at hr
    cases hr

/-- The created nodes grow by the node just appended. -/
private theorem range'_perm_snoc (hi : BuilderInv n0 m) {l : List Nat}
    (h : (List.range' n0 (m.mainline.ingredients.nodeCount - n0)).Perm l) :
    (List.range' n0 (m.mainline.ingredients.nodeCount + 1 - n0)).Perm
      (l ++ [m.mainline.ingredients.nodeCount]) := by
  have hle := hi.le_nodeCount
  rw [show m.mainline.ingredients.nodeCount + 1 - n0 =
      m.mainline.ingredients.nodeCount - n0 + 1 by omega, List.range'_1_concat,
    show n0 + (m.mainline.ingredients.nodeCount - n0) = m.mainline.ingredients.nodeCount by omega]
  exact h.append_right _

/-- `add_ingredient` and `add_base`: append a node, add edges into it only, and record it in
    `added`. -/
theorem appendNode (hi : BuilderInv n0 m) {g : Graph} {nd : Node}
    (hn : g.nodes = m.mainline.ingredients.nodes ++ [nd])
    (he : ∃ l, g.edges = l ++ m.mainline.ingredients.edges ∧
      ∀ e ∈ l, e.2 = m.mainline.ingredients.nodeCount) :
    BuilderInv n0 { m.withGraph g with added := m.added ++ [m.mainline.ingredients.nodeCount] } := by
  obtain ⟨l, he, hl⟩ := he
  have hcount := Graph.nodeCount_of_nodes_eq_append_singleton hn
  constructor
  · simp only [Migration.withGraph_ingredients, hcount]; have := hi.le_nodeCount; omega
  · simp only [Migration.withGraph_ingredients, hcount]
    refine (hi.range'_perm_snoc hi.created_perm).trans ?_
    simpa [List.append_assoc] using List.perm_append_comm.append_left m.added
  · intro n r hr
    have hlt := hi.lt_of_reader hr
    simp only [Migration.withGraph_ingredients, he, List.filter_append]
    rw [hi.reader_inEdges n r hr, List.filter_eq_nil_iff.2 (fun e he' => by
      simp [hl e he']; omega), List.nil_append]
  · intro n r hr
    simpa [Graph.node?_of_nodes_eq_append hn (hi.lt_of_reader hr)] using hi.reader_isReader n r hr
  · intro c hc
    obtain ⟨hna, hb⟩ := hi.columns_base c hc
    have hlt := hi.column_lt_nodeCount hc
    refine ⟨by simp [hna]; omega, ?_⟩
    simpa [Graph.node?_of_nodes_eq_append hn hlt] using hb

/-- `add_column` and `drop_column`: replace an existing base node, not in `added`, by another
    base node, and queue a column change for it. -/
theorem modifyBase (hi : BuilderInv n0 m) {node : Nat} (hna : node ∉ m.added) {base nd : Node}
    (hb : m.mainline.ingredients.node? node = some base) (hbb : base.isBase = true)
    (hnd : nd.isBase = true) (c : ColumnChange) :
    BuilderInv n0 { m.withGraph (m.mainline.ingredients.modifyNode node fun _ => nd) with
      columns := m.columns ++ [(node, c)] } := by
  constructor
  · simpa using hi.le_nodeCount
  · simpa using hi.created_perm
  · simpa using hi.reader_inEdges
  · intro n r hr
    have h := hi.reader_isReader n r hr
    simp only [Migration.withGraph_ingredients, Graph.node?_modifyNode]
    split
    · subst r; simp_all [Node.isReader_eq_false_of_isBase hbb]
    · exact h
  · intro c hc
    simp only [Migration.withGraph_ingredients, Graph.node?_modifyNode]
    rcases List.mem_append.1 hc with hc | hc
    · obtain ⟨hna', hb'⟩ := hi.columns_base c hc
      refine ⟨hna', ?_⟩
      split
      · simp_all
      · exact hb'
    · simp only [List.mem_singleton] at hc
      subst hc
      simp [hna, hb, hnd]

/-- `ensure_reader_for` on a target without a reader: append a reader node fed by one edge
    from the target, and record it in `readers`. -/
theorem addReader (hi : BuilderInv n0 m) {n : Nat} (hnone : m.readers.get n = none)
    {g : Graph} {rNode : Node} (hr : rNode.isReader = true)
    (hgn : g.nodes = m.mainline.ingredients.nodes ++ [rNode])
    (hge : g.edges = (n, m.mainline.ingredients.nodeCount) :: m.mainline.ingredients.edges)
    (meta : MapMeta) :
    BuilderInv n0 { m with
      mainline := { m.mainline with ingredients := g, mapMeta := meta }
      readers := m.readers.insert n m.mainline.ingredients.nodeCount } := by
  have hcount := Graph.nodeCount_of_nodes_eq_append_singleton hgn
  have hvalues : (m.readers.insert n m.mainline.ingredients.nodeCount).values =
      m.readers.values ++ [m.mainline.ingredients.nodeCount] := by
    simp [HashMap.values, HashMap.entries_insert_of_get_eq_none _ hnone]
  constructor
  · simp only [hcount]; have := hi.le_nodeCount; omega
  · simp only [hcount, hvalues, ← List.append_assoc]
    exact hi.range'_perm_snoc hi.created_perm
  · intro n' r hr'
    simp only [HashMap.get_insert] at hr'
    simp only [hge]
    split at hr'
    · cases hr'
      rename_i hn'
      subst hn'
      rw [List.filter_cons_of_pos (by simp), List.filter_eq_nil_iff.2 (fun e he => by
        have := Graph.snd_lt_of_mem_edges he; simp; omega)]
    · have hlt := hi.lt_of_reader hr'
      rw [List.filter_cons_of_neg (by simp; omega), hi.reader_inEdges n' r hr']
  · intro n' r hr'
    simp only [HashMap.get_insert] at hr'
    split at hr'
    · cases hr'; simp [Graph.node?_of_nodes_eq_append_singleton hgn, hr]
    · simpa [Graph.node?_of_nodes_eq_append hgn (hi.lt_of_reader hr')] using
        hi.reader_isReader n' r hr'
  · intro c hc
    obtain ⟨hna, hb⟩ := hi.columns_base c hc
    have hlt := hi.column_lt_nodeCount hc
    exact ⟨hna, by simpa [Graph.node?_of_nodes_eq_append hgn hlt] using hb⟩

/-- `maintain` after `ensure_reader_for`: replace a reader node by another reader node. -/
theorem setKey (hi : BuilderInv n0 m) {ri : Nat} {node nd : Node}
    (hri : m.mainline.ingredients.node? ri = some node) (hr : node.isReader = true)
    (hnd : nd.isReader = true) (meta : MapMeta) :
    BuilderInv n0 { m with mainline := { m.mainline with
      ingredients := m.mainline.ingredients.modifyNode ri (fun _ => nd), mapMeta := meta } } := by
  constructor
  · simpa using hi.le_nodeCount
  · simpa using hi.created_perm
  · simpa using hi.reader_inEdges
  · intro n r hr'
    simp only [Graph.node?_modifyNode]
    split
    · subst r; simp [hri, hnd]
    · exact hi.reader_isReader n r hr'
  · intro c hc
    obtain ⟨hna, hb⟩ := hi.columns_base c hc
    refine ⟨hna, ?_⟩
    simp only [Graph.node?_modifyNode]
    split
    · subst ri
      simp only [hri, Option.map_some', Option.some.injEq] at hb
      simp [Node.isReader_eq_false_of_isBase hb] at hr
    · exact hb

/-- One builder call keeps the invariant. -/
theorem apply (hi : BuilderInv n0 m) {toString : DataType → String} {c : BuilderCall}
    {m' : Migration} (h : c.apply toString m = .ok m') : BuilderInv n0 m' := by
  cases c with
  | addIngredient name fields i =>
    obtain ⟨⟨ni, m₁⟩, hc, rfl⟩ := map_eq_ok.1 h
    obtain ⟨rfl, g, hn, he, rfl⟩ := Migration.addIngredient_spec hc
    exact hi.appendNode hn he
  | addBase name fields b =>
    obtain ⟨⟨ni, m₁⟩, hc, rfl⟩ := map_eq_ok.1 h
    obtain ⟨rfl, g, hn, he, rfl⟩ := Migration.addBase_spec hc
    exact hi.appendNode hn ⟨[_], he, by simp⟩
  | addColumn node field default =>
    obtain ⟨⟨col, m₁⟩, hc, rfl⟩ := map_eq_ok.1 h
    obtain ⟨hna, base, nd, hb, hbb, hnd, -, -, rfl⟩ := Migration.addColumn_spec hc
    exact hi.modifyBase hna hb hbb hnd _
  | dropColumn node column =>
    obtain ⟨hna, base, nd, hb, hbb, hnd, -, -, rfl⟩ := Migration.dropColumn_spec h
    exact hi.modifyBase hna hb hbb hnd _
  | ensureReaderFor n name =>
    rcases Migration.ensureReaderFor_spec h with ⟨-, rfl⟩ | ⟨hnone, -, g, rNode, hr, hgn, hge, rfl⟩
    · exact hi
    · exact hi.addReader hnone hr hgn hge _
  | maintain name n key =>
    obtain ⟨m₁, h₁, ri, node, nd, uid, -, hri, hnd, rfl⟩ := Migration.maintain_spec h
    have hi₁ : BuilderInv n0 m₁ := by
      rcases Migration.ensureReaderFor_spec h₁ with ⟨-, rfl⟩ | ⟨hnone, -, g, rNode, hr, hgn, hge, rfl⟩
      · exact hi
      · exact hi.addReader hnone hr hgn hge _
    obtain ⟨hr, hnd, -⟩ := Migration.setReaderKey_isReader hnd
    exact hi₁.setKey hri hr hnd _

end BuilderInv

/-- A sequence of builder calls keeps the invariant. -/
theorem runCalls_builderInv {toString : DataType → String} {n0 : Nat} :
    ∀ {m m' : Migration} {calls : List BuilderCall}, BuilderInv n0 m →
      runCalls toString m calls = .ok m' → BuilderInv n0 m'
  | _, _, [], hi, h => by cases h; exact hi
  | _, _, _ :: _, hi, h => by
    obtain ⟨m₁, h₁, h⟩ := bind_eq_ok.1 h
    exact runCalls_builderInv (hi.apply h₁) h

/-- Renders a context value as `DataType`'s `Display`, which is not in this source, does for
    the values the runs here render: an integer as its decimal numeral, text in double quotes. -/
def Migration.renderValue : DataType → String
  | .int i => toString i
  | .text s => "\"" ++ s ++ "\""
  | .none => ""

end Noria
