import NoriaMigrate.Spec.Builder

/-!
# The query group of a new reader

`ensure_reader_for(n, Some(name))` files the new reader under one query of
`map_meta.query_to_readers`: the last existing query name, in the iteration order of the
`HashSet` built at lines 222-225, that occurs in `name`, and `name` itself when none does.

* `generalQuery_eq_getLast?`: the loop at lines 232-238 picks the last match.
* `ensureReaderFor_joins_one_group`: the reader joins exactly one group and no other group
  changes; the group is a matching query name (or `name`), and it is the only candidate when
  at most one query name occurs in `name`.
* `ensureReaderFor_group_depends_on_order`: with the queries `q1` and `q10` and the name
  `q10_u3`, the two iteration orders of the same table file the reader under different
  queries.
-/

namespace Noria

namespace Migration

/-- The loop at lines 232-238 keeps the last query name that occurs in `name`. -/
theorem generalQuery_eq_getLast? (l : List String) (name : String) :
    generalQuery l name = (l.filter (strContains name)).getLast? := by
  suffices h : ∀ acc, l.foldl (fun acc k => if strContains name k then some k else acc) acc =
      ((l.filter (strContains name)).getLast?).or acc from by simpa [generalQuery] using h none
  induction l with
  | nil => simp
  | cons k l ih =>
    intro acc
    rw [List.foldl_cons, ih]
    by_cases hk : strContains name k = true
    · simp only [hk, if_true, List.filter_cons_of_pos, List.getLast?_cons]
      cases (l.filter (strContains name)).getLast? <;> rfl
    · simp [hk]

/-- The query a reader named `name` joins, given the existing query names. -/
def joinedQuery (keys : List String) (name : String) : String :=
  (generalQuery keys name).getD name

theorem joinedQuery_spec (keys : List String) (name : String) :
    ((∃ k ∈ keys, strContains name k = true) →
      joinedQuery keys name ∈ keys ∧ strContains name (joinedQuery keys name) = true) ∧
    ((∀ k ∈ keys, strContains name k = false) → joinedQuery keys name = name) := by
  unfold joinedQuery
  rw [generalQuery_eq_getLast?]
  constructor
  · rintro ⟨k, hk, hkn⟩
    cases h : (keys.filter (strContains name)).getLast? with
    | none =>
      rw [List.getLast?_eq_none_iff, List.filter_eq_nil_iff] at h
      exact absurd hkn (h k hk)
    | some q => simpa using List.mem_filter.1 (List.mem_of_getLast?_eq_some h)
  · intro h
    rw [List.filter_eq_nil_iff.2 (fun k hk => by simp [h k hk])]
    rfl

/-- Lines 250-259: the reader joins the set of `q`, and no other set changes. -/
theorem get_addReaderToQuery (queryToReaders : HashMap String (HashSet Nat)) (q k : String)
    (r : Nat) : (addReaderToQuery queryToReaders q r).get k =
      if k = q then some (((queryToReaders.get q).getD HashSet.empty).insert r)
      else queryToReaders.get k := by
  unfold addReaderToQuery
  cases queryToReaders.get q <;> simp

theorem registerReader_some (queryToReaders : HashMap String (HashSet Nat)) (name : String)
    (r : Nat) : registerReader queryToReaders (some name) r =
      addReaderToQuery queryToReaders (joinedQuery queryToReaders.keys name) r := by
  unfold registerReader joinedQuery
  dsimp only
  rw [HashSet.elems_ofList (show queryToReaders.keys.Nodup from queryToReaders.nodup)]
  cases generalQuery queryToReaders.keys name <;> rfl

/-- `ensure_reader_for(n, Some(name))` on a target without a reader files the new reader under
    exactly one query and changes no other; that query occurs in `name` when an existing one
    does (and is `name` otherwise), and it is the only candidate when at most one existing
    query name occurs in `name`, whatever the iteration order of the query names. -/
theorem ensureReaderFor_joins_one_group {m m' : Migration} {n : Nat} {name : String}
    (hn : m.readers.get n = none) (h : m.ensureReaderFor n (some name) = .ok m') :
    ∃ q, ((∃ k ∈ m.mainline.mapMeta.queryToReaders.keys, strContains name k = true) →
        q ∈ m.mainline.mapMeta.queryToReaders.keys ∧ strContains name q = true) ∧
      ((∀ k ∈ m.mainline.mapMeta.queryToReaders.keys, strContains name k = false) → q = name) ∧
      (((m.mainline.mapMeta.queryToReaders.keys.filter (strContains name)).length ≤ 1) →
        ∀ k ∈ m.mainline.mapMeta.queryToReaders.keys, strContains name k = true → k = q) ∧
      m'.mainline.mapMeta.queryToReaders.get q =
        some (((m.mainline.mapMeta.queryToReaders.get q).getD HashSet.empty).insert
          m.mainline.ingredients.nodeCount) ∧
      ∀ k, k ≠ q →
        m'.mainline.mapMeta.queryToReaders.get k = m.mainline.mapMeta.queryToReaders.get k := by
  rcases ensureReaderFor_spec h with ⟨hc, -⟩ | ⟨-, -, g, rNode, -, -, -, rfl⟩
  · simp [HashMap.containsKey, hn] at hc
  · set keys := m.mainline.mapMeta.queryToReaders.keys
    obtain ⟨hsome, hnone⟩ := joinedQuery_spec keys name
    refine ⟨joinedQuery keys name, hsome, hnone, fun hlen k hk hkn => ?_, ?_, fun k hk => ?_⟩
    · obtain ⟨hq, hqn⟩ := hsome ⟨k, hk, hkn⟩
      by_contra hne
      have hsub : [k, joinedQuery keys name].Subperm (keys.filter (strContains name)) :=
        List.subperm_of_subset (by simpa using hne)
          (by simp [List.subset_def, hk, hkn, hq, hqn])
      have := hsub.length_le
      simp at this
      omega
    · simp [registerReader_some, get_addReaderToQuery, keys]
    · simp [registerReader_some, get_addReaderToQuery, keys, hk]

end Migration

/-! ## The group depends on the iteration order -/

/-- The query table `{q1 ↦ ∅, q10 ↦ ∅}`, iterated `q1` first. -/
def queriesQ1First : HashMap String (HashSet Nat) :=
  (HashMap.empty.insert "q1" HashSet.empty).insert "q10" HashSet.empty

/-- The same table, iterated `q10` first. -/
def queriesQ10First : HashMap String (HashSet Nat) :=
  (HashMap.empty.insert "q10" HashSet.empty).insert "q1" HashSet.empty

/-- A controller whose graph is the source and one base node `1` under it, with the given
    query table. -/
def baseController (queryToReaders : HashMap String (HashSet Nat)) : ControllerInner :=
  ⟨⟨[Node.new "source" [] .source, Node.new "b" ["x"] (.base ⟨[.int 0], []⟩)], [(0, 1)],
    by decide⟩, 0, none, HashMap.empty, HashMap.empty, ⟨queryToReaders, HashMap.empty⟩⟩

/-- The queries whose reader set holds `r`. -/
def groupsOf (m : Migration) (r : Nat) : List String :=
  m.mainline.mapMeta.queryToReaders.entries.filterMap fun e =>
    if r ∈ e.2.elems then some e.1 else none

/-- A reader named `q10_u3` over the base node, with the queries `q1` and `q10`. -/
theorem ensureReaderFor_joins_one_group_q10_u3 :
    ∃ m', (Migration.start (baseController queriesQ1First) HashMap.empty).ensureReaderFor 1
        (some "q10_u3") = .ok m' ∧
      ∃ q, ((∃ k ∈ queriesQ1First.keys, Migration.strContains "q10_u3" k = true) →
          q ∈ queriesQ1First.keys ∧ Migration.strContains "q10_u3" q = true) ∧
        ((∀ k ∈ queriesQ1First.keys, Migration.strContains "q10_u3" k = false) → q = "q10_u3") ∧
        (((queriesQ1First.keys.filter (Migration.strContains "q10_u3")).length ≤ 1) →
          ∀ k ∈ queriesQ1First.keys, Migration.strContains "q10_u3" k = true → k = q) ∧
        m'.mainline.mapMeta.queryToReaders.get q =
          some (((queriesQ1First.get q).getD HashSet.empty).insert 2) ∧
        ∀ k, k ≠ q → m'.mainline.mapMeta.queryToReaders.get k = queriesQ1First.get k := by
  have hb : ((Migration.start (baseController queriesQ1First) HashMap.empty).ensureReaderFor 1
      (some "q10_u3")).toBool = true := by decide
  obtain ⟨m', hm⟩ := exists_eq_ok_of_toBool hb
  refine ⟨m', hm, Migration.ensureReaderFor_joins_one_group ?_ hm⟩
  rfl

/-- The same query table in its two iteration orders files the reader `2` named `q10_u3`
    under `q10` in one order and under `q1` in the other. -/
theorem ensureReaderFor_group_depends_on_order :
    queriesQ1First.entries.Perm queriesQ10First.entries ∧
    (((Migration.start (baseController queriesQ1First) HashMap.empty).ensureReaderFor 1
      (some "q10_u3")).toOption.map fun m => groupsOf m 2) = some ["q10"] ∧
    (((Migration.start (baseController queriesQ10First) HashMap.empty).ensureReaderFor 1
      (some "q10_u3")).toOption.map fun m => groupsOf m 2) = some ["q1"] :=
  ⟨List.Perm.swap _ _ _, by decide, by decide⟩

end Noria
