import Mathlib.Data.List.Nodup

/-!
# Rust's `HashMap` and `HashSet`

The migration keeps its working state in `std::collections::HashMap` and `HashSet`, whose
iteration order is unspecified and differs between runs. A map is modelled as the list of its
entries in the order this map iterates them, each key stored once (`nodup`). Code that
iterates a map iterates `entries`, so a statement that holds "for every iteration order" is a
statement about every map whose entries are a permutation of the given ones.

`insert` replaces the value of a present key in place and appends a new key; `get` is
`List.lookup`. The bridge lemmas

* `mem_entries`   `(k, v) ∈ m.entries ↔ m.get k = some v`
* `get_insert`    `(m.insert k v).get k' = if k' = k then some v else m.get k'`
* `get_of_perm`   maps with permuted entries agree on every key

let later proofs reason about lookups and never about the entry list itself.
-/

namespace Noria

/-- A `std::collections::HashMap`, as its entries in iteration order; every key is stored
    once. -/
structure HashMap (K V : Type) where
  entries : List (K × V)
  nodup : (entries.map Prod.fst).Nodup

namespace HashMap

variable {K V : Type} [DecidableEq K]

/-- `HashMap::new()`. -/
def empty : HashMap K V := ⟨[], List.nodup_nil⟩

/-- `map.get(&k)`. -/
def get (m : HashMap K V) (k : K) : Option V := m.entries.lookup k

/-- `map.contains_key(&k)`. -/
def containsKey (m : HashMap K V) (k : K) : Bool := (m.get k).isSome

/-- `map.len()`. -/
def len (m : HashMap K V) : Nat := m.entries.length

/-- `map.keys()`, in iteration order. -/
def keys (m : HashMap K V) : List K := m.entries.map Prod.fst

/-- `map.values()`, in iteration order. -/
def values (m : HashMap K V) : List V := m.entries.map Prod.snd

/-- `List.lookup` on a cons, with the key test as a Prop-valued `if`. -/
private theorem lookup_cons_ite (k k' : K) (v : V) (l : List (K × V)) :
    ((k, v) :: l).lookup k' = if k' = k then some v else l.lookup k' := by
  simp only [List.lookup_cons]
  split <;> simp_all

private theorem lookup_eq_none_iff_not_mem {l : List (K × V)} {k : K} :
    l.lookup k = none ↔ k ∉ l.map Prod.fst := by
  simp only [List.lookup_eq_none_iff, bne_iff_ne, ne_eq, List.mem_map, not_exists, not_and]
  exact ⟨fun h p hp hk => h p hp hk.symm, fun h p hp hk => h p hp hk.symm⟩

private theorem lookup_eq_some_iff_mem {l : List (K × V)} (h : (l.map Prod.fst).Nodup)
    {k : K} {v : V} : l.lookup k = some v ↔ (k, v) ∈ l := by
  induction l with
  | nil => simp
  | cons e l ih =>
    obtain ⟨k', v'⟩ := e
    simp only [List.map_cons, List.nodup_cons] at h
    by_cases hk : k = k'
    · subst hk
      have : (k, v) ∉ l := fun hm => h.1 (List.mem_map_of_mem Prod.fst hm)
      simp [lookup_cons_ite, this, eq_comm]
    · simp [lookup_cons_ite, hk, ih h.2]

/-- Replacing the value stored under `k` leaves every other key's lookup alone. -/
private theorem lookup_map_replace_ne {l : List (K × V)} {k k' : K} (v : V) (hk : k' ≠ k) :
    (l.map fun e => if e.1 = k then (k, v) else e).lookup k' = l.lookup k' := by
  induction l with
  | nil => rfl
  | cons e l ih =>
    obtain ⟨k₁, v₁⟩ := e
    by_cases h₁ : k₁ = k
    · subst h₁; simp [lookup_cons_ite, hk, ih]
    · simp [lookup_cons_ite, h₁, ih]

private theorem lookup_map_replace_self {l : List (K × V)} {k : K} (v : V)
    (hk : k ∈ l.map Prod.fst) :
    (l.map fun e => if e.1 = k then (k, v) else e).lookup k = some v := by
  induction l with
  | nil => simp at hk
  | cons e l ih =>
    obtain ⟨k₁, v₁⟩ := e
    by_cases h₁ : k₁ = k
    · simp [lookup_cons_ite, h₁]
    · simp only [List.map_cons, List.mem_cons] at hk
      simp [lookup_cons_ite, h₁, Ne.symm h₁, ih (hk.resolve_left (Ne.symm h₁))]

theorem get_eq_none_iff {m : HashMap K V} {k : K} : m.get k = none ↔ k ∉ m.keys :=
  lookup_eq_none_iff_not_mem

theorem mem_entries {m : HashMap K V} {k : K} {v : V} : (k, v) ∈ m.entries ↔ m.get k = some v :=
  (lookup_eq_some_iff_mem m.nodup).symm

theorem mem_keys {m : HashMap K V} {k : K} : k ∈ m.keys ↔ ∃ v, m.get k = some v := by
  rw [← not_iff_not, ← get_eq_none_iff]
  cases m.get k <;> simp

theorem mem_values {m : HashMap K V} {v : V} : v ∈ m.values ↔ ∃ k, m.get k = some v := by
  simp [values, mem_entries]

/-- Two entries with one key are the same entry. -/
theorem eq_of_mem_entries {m : HashMap K V} {e e' : K × V} (he : e ∈ m.entries)
    (he' : e' ∈ m.entries) (hk : e.1 = e'.1) : e = e' := by
  obtain ⟨k, v⟩ := e
  obtain ⟨k', v'⟩ := e'
  rw [mem_entries] at he he'
  cases hk
  rw [he] at he'
  cases he'
  rfl

theorem containsKey_iff {m : HashMap K V} {k : K} : m.containsKey k = true ↔ k ∈ m.keys := by
  rw [mem_keys, containsKey, Option.isSome_iff_exists]

/-- Maps that iterate the same entries in different orders agree on every key. -/
theorem get_of_perm {m m' : HashMap K V} (h : m.entries.Perm m'.entries) (k : K) :
    m.get k = m'.get k :=
  Option.ext fun v => by
    rw [Option.mem_def, Option.mem_def, ← mem_entries, ← mem_entries, h.mem_iff]

@[simp] theorem get_empty (k : K) : (empty : HashMap K V).get k = none := rfl

omit [DecidableEq K] in
@[simp] theorem len_empty : (empty : HashMap K V).len = 0 := rfl

/-! ## `insert` -/

/-- `map.insert(k, v)`: a present key keeps its place in the iteration order, a new key is
    iterated last. -/
def insert (m : HashMap K V) (k : K) (v : V) : HashMap K V :=
  if h : m.containsKey k then
    ⟨m.entries.map fun e => if e.1 = k then (k, v) else e, by
      have hk : (Prod.fst ∘ fun e : K × V => if e.1 = k then (k, v) else e) = Prod.fst := by
        funext e; by_cases he : e.1 = k <;> simp [he]
      rw [List.map_map, hk]; exact m.nodup⟩
  else
    ⟨m.entries ++ [(k, v)], by
      rw [List.map_append, List.nodup_append]
      exact ⟨m.nodup, List.nodup_singleton k, List.disjoint_singleton.2 (by
        rwa [containsKey_iff] at h)⟩⟩

@[simp] theorem get_insert (m : HashMap K V) (k k' : K) (v : V) :
    (m.insert k v).get k' = if k' = k then some v else m.get k' := by
  unfold insert get
  split
  · rename_i h
    by_cases hk : k' = k
    · subst hk; simpa using lookup_map_replace_self v (containsKey_iff.1 h)
    · simpa [hk] using lookup_map_replace_ne v hk
  · rename_i h
    have hnone : m.entries.lookup k = none := Option.not_isSome_iff_eq_none.1 h
    by_cases hk : k' = k
    · subst hk; simp [List.lookup_append, hnone, lookup_cons_ite]
    · simp [List.lookup_append, lookup_cons_ite, hk]

/-- Inserting a new key appends one entry. -/
theorem entries_insert_of_get_eq_none {m : HashMap K V} {k : K} (v : V) (h : m.get k = none) :
    (m.insert k v).entries = m.entries ++ [(k, v)] := by
  simp [insert, containsKey, h]

theorem len_insert_of_get_eq_none {m : HashMap K V} {k : K} (v : V) (h : m.get k = none) :
    (m.insert k v).len = m.len + 1 := by
  simp [len, entries_insert_of_get_eq_none v h]

/-! ## `iter_mut` and `remove` -/

/-- `for v in map.values_mut() { *v = f(*v) }`: every value rewritten in place. -/
def mapValues (m : HashMap K V) (f : V → V) : HashMap K V :=
  ⟨m.entries.map fun e => (e.1, f e.2), by rw [List.map_map]; exact m.nodup⟩

@[simp] theorem get_mapValues (m : HashMap K V) (f : V → V) (k : K) :
    (m.mapValues f).get k = (m.get k).map f := by
  obtain ⟨l, hl⟩ := m
  unfold mapValues get
  dsimp only
  clear hl
  induction l with
  | nil => rfl
  | cons e l ih =>
    obtain ⟨k₁, v₁⟩ := e
    by_cases h : k = k₁ <;> simp_all [lookup_cons_ite]

omit [DecidableEq K] in
@[simp] theorem keys_mapValues (m : HashMap K V) (f : V → V) : (m.mapValues f).keys = m.keys := by
  simp [mapValues, keys, Function.comp_def]

/-- `map.remove(&k)`: the value that was stored under `k`, and the map without it. -/
def remove (m : HashMap K V) (k : K) : Option V × HashMap K V :=
  (m.get k, ⟨m.entries.filter (fun e => e.1 ≠ k),
    m.nodup.sublist ((List.filter_sublist _).map _)⟩)

@[simp] theorem remove_fst (m : HashMap K V) (k : K) : (m.remove k).1 = m.get k := rfl

@[simp] theorem get_remove (m : HashMap K V) (k k' : K) :
    (m.remove k).2.get k' = if k' = k then none else m.get k' := by
  split
  · rename_i h
    subst h
    rw [get_eq_none_iff]
    simp [remove, keys]
  · rename_i h
    apply Option.ext
    intro v
    rw [Option.mem_def, Option.mem_def, ← mem_entries, ← mem_entries]
    simp [remove, h]

end HashMap

/-- A `std::collections::HashSet`, as its elements in iteration order, each once. -/
structure HashSet (K : Type) where
  elems : List K
  nodup : elems.Nodup

namespace HashSet

variable {K : Type} [DecidableEq K]

/-- `HashSet::new()`. -/
def empty : HashSet K := ⟨[], List.nodup_nil⟩

/-- `set.insert(k)`: a new element is iterated last. -/
def insert (s : HashSet K) (k : K) : HashSet K :=
  if h : k ∈ s.elems then s
  else ⟨s.elems ++ [k], List.nodup_append.2 ⟨s.nodup, List.nodup_singleton k,
    List.disjoint_singleton.2 h⟩⟩

@[simp] theorem mem_insert (s : HashSet K) (k k' : K) :
    k' ∈ (s.insert k).elems ↔ k' = k ∨ k' ∈ s.elems := by
  unfold insert
  split
  · rename_i h
    constructor
    · exact Or.inr
    · rintro (rfl | h') <;> assumption
  · simp [or_comm]

/-- `iter.collect::<HashSet<_>>()`. -/
def ofList (l : List K) : HashSet K := l.foldl insert empty

private theorem mem_foldl_insert (l : List K) (s : HashSet K) (k : K) :
    k ∈ (l.foldl insert s).elems ↔ k ∈ l ∨ k ∈ s.elems := by
  induction l generalizing s with
  | nil => simp
  | cons x l ih => simp only [List.foldl_cons, ih, mem_insert, List.mem_cons]; tauto

@[simp] theorem mem_ofList (l : List K) (k : K) : k ∈ (ofList l).elems ↔ k ∈ l := by
  simp [ofList, mem_foldl_insert, empty]

private theorem elems_foldl_insert (l : List K) (s : HashSet K) (h : (s.elems ++ l).Nodup) :
    (l.foldl insert s).elems = s.elems ++ l := by
  induction l generalizing s with
  | nil => simp
  | cons x l ih =>
    have hx : x ∉ s.elems := fun hx => (List.nodup_append.1 h).2.2 hx (List.mem_cons_self x l)
    have hins : (s.insert x).elems = s.elems ++ [x] := by simp [insert, hx]
    rw [List.foldl_cons, ih _ (by simpa [hins] using h), hins, List.append_assoc,
      List.singleton_append]

/-- Collecting a list without repeats iterates it in its own order. -/
theorem elems_ofList {l : List K} (h : l.Nodup) : (ofList l).elems = l := by
  simpa using elems_foldl_insert l empty (by simpa [empty] using h)

end HashSet

end Noria
