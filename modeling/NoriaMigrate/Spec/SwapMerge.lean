import NoriaMigrate.Native.Commit

/-!
# Merging the swap lists

Sharding and routing each splice new nodes into edges and report the splices as swap tables
`(child, original parent) ↦ substitute`. Lines 399-438 merge routing's table into sharding's,
one entry at a time in the iteration order of routing's `HashMap`: the entry's key gets the
substitute nearer the child, and every substitute equal to the entry's original parent is
redirected, since lookups in the merged table are one hop.

A table is specified here by the lookups it answers. `mergeSwapLookup` is the merge step on
lookups, and `get_mergeSwap` shows that the code's step on tables computes it, so every fact
about the merge is proved on lookups and read back for `mergeSwaps`.

* `mergeSwaps_collapses_stale_parents`: when no substitute of routing's table is the original
  parent of one of its keys, the merged table has the keys of both tables, gives routing's new
  keys routing's substitutes, and keeps no value equal to an original parent of routing's
  table, whatever the visiting order.
* `mergeSwaps_depends_on_order`: under that condition alone the merged table can still depend
  on the visiting order, when two entries share an original parent that sharding's table holds
  as a substitute.
* `mergeSwaps_get_of_perm`: it does not when no substitute of sharding's table is an original
  parent that two entries share with different substitutes: merge steps then commute on every
  table the loop reaches (`mergeSwapLookup_comm`, `foldl_eq_of_perm`), since no step makes
  such a parent a value (`NoContestedParent.mergeSwapLookup`).
* `mergeSwaps_get_of_disjoint`: when routing spliced no edge sharding had spliced, and an edge
  out of a sharder only into the sharder's own child, the merged table gives each key routing's
  substitute, else sharding's followed through the one routing put under it.
-/

namespace Noria

/-! ## The merge on lookups -/

/-- Lines 433-437 on one value: a substitute equal to `src` becomes `instead`. -/
def redirect (src instead v : Nat) : Nat := if v = src then instead else v

/-- The substitute kept for the entry's key when `old` was recorded there: the recorded one
    when the graph has an edge `src → instead` (it is then the node nearer the child), and
    `instead` otherwise. -/
def resolveSwap (g : Graph) (old : Option Nat) (src instead : Nat) : Nat :=
  match old with
  | some instead0 => if g.findEdge src instead then instead0 else instead
  | none => instead

/-- The merge step on the lookups `t` of a swap table. -/
def mergeSwapLookup (g : Graph) (t : Nat × Nat → Option Nat) (e : (Nat × Nat) × Nat) :
    Nat × Nat → Option Nat := fun k =>
  (if k = e.1 then some (resolveSwap g (t e.1) e.1.2 e.2) else t k).map (redirect e.1.2 e.2)

/-- The code's merge step answers the lookups of `mergeSwapLookup`. -/
theorem get_mergeSwap (g : Graph) (T : SwapTable) (e : (Nat × Nat) × Nat) :
    (mergeSwap g T e).get = mergeSwapLookup g T.get e := by
  obtain ⟨⟨dst, src⟩, instead⟩ := e
  funext k
  unfold mergeSwap mergeSwapLookup redirect
  simp only [HashMap.get_mapValues]
  cases h : T.get (dst, src) with
  | none => by_cases hk : k = (dst, src) <;> simp [h, hk, resolveSwap, redirect]
  | some instead0 =>
    by_cases hi : instead = instead0 <;> cases hf : g.findEdge src instead <;>
      by_cases hk : k = (dst, src) <;> simp [h, hi, hf, hk, resolveSwap]

theorem get_foldl_mergeSwap (g : Graph) (l : List ((Nat × Nat) × Nat)) (T : SwapTable) :
    (l.foldl (mergeSwap g) T).get = l.foldl (mergeSwapLookup g) T.get := by
  induction l generalizing T with
  | nil => rfl
  | cons e l ih => rw [List.foldl_cons, List.foldl_cons, ih, get_mergeSwap]

/-! ## What the merge keeps -/

section Keeps

variable (g : Graph) {t : Nat × Nat → Option Nat} {k : Nat × Nat} {v : Nat}

theorem mergeSwapLookup_isSome (t : Nat × Nat → Option Nat) (e : (Nat × Nat) × Nat)
    (k : Nat × Nat) : (mergeSwapLookup g t e k).isSome ↔ (t k).isSome ∨ k = e.1 := by
  unfold mergeSwapLookup
  split <;> simp_all

theorem foldl_mergeSwapLookup_isSome (l : List ((Nat × Nat) × Nat))
    (t : Nat × Nat → Option Nat) (k : Nat × Nat) :
    (l.foldl (mergeSwapLookup g) t k).isSome ↔ (t k).isSome ∨ k ∈ l.map Prod.fst := by
  induction l generalizing t with
  | nil => simp
  | cons e l ih =>
    rw [List.foldl_cons, ih, mergeSwapLookup_isSome, List.map_cons, List.mem_cons]
    tauto

omit g in
/-- The substitute kept is the entry's, or the one recorded. -/
theorem resolveSwap_eq (g : Graph) (old : Option Nat) (src instead : Nat) :
    resolveSwap g old src instead = instead ∨ old = some (resolveSwap g old src instead) := by
  cases old with
  | none => exact Or.inl rfl
  | some w => unfold resolveSwap; split_ifs <;> simp

/-- A value after a step is the entry's substitute, or was there before. -/
theorem mergeSwapLookup_eq_some {e : (Nat × Nat) × Nat}
    (h : mergeSwapLookup g t e k = some v) : v = e.2 ∨ t k = some v := by
  unfold mergeSwapLookup at h
  obtain ⟨w, hw, rfl⟩ := Option.map_eq_some'.1 h
  unfold redirect
  split_ifs with hws
  · exact Or.inl rfl
  · split at hw
    · subst k
      rcases resolveSwap_eq g (t e.1) e.1.2 e.2 with he | he <;> rw [← Option.some.inj hw]
      · exact Or.inl he
      · exact Or.inr he
    · exact Or.inr hw

theorem foldl_mergeSwapLookup_eq_some {l : List ((Nat × Nat) × Nat)}
    (h : l.foldl (mergeSwapLookup g) t k = some v) : v ∈ l.map Prod.snd ∨ t k = some v := by
  induction l generalizing t with
  | nil => exact Or.inr h
  | cons e l ih =>
    rcases ih h with hv | hv
    · exact Or.inl (List.mem_cons_of_mem _ hv)
    · rcases mergeSwapLookup_eq_some g hv with rfl | hv
      · exact Or.inl (List.mem_cons_self _ _)
      · exact Or.inr hv

/-- After a step no value is the entry's original parent, unless that is its substitute. -/
theorem mergeSwapLookup_ne_src {e : (Nat × Nat) × Nat} (he : e.2 ≠ e.1.2)
    (h : mergeSwapLookup g t e k = some v) : v ≠ e.1.2 := by
  unfold mergeSwapLookup at h
  obtain ⟨w, -, rfl⟩ := Option.map_eq_some'.1 h
  unfold redirect
  split_ifs with hw
  · exact he
  · exact hw

theorem foldl_mergeSwapLookup_ne_src {l : List ((Nat × Nat) × Nat)}
    (hl : ∀ e ∈ l, ∀ e' ∈ l, e.2 ≠ e'.1.2) (h : l.foldl (mergeSwapLookup g) t k = some v) :
    ∀ e ∈ l, v ≠ e.1.2 := by
  induction l generalizing t with
  | nil => simp
  | cons e l ih =>
    intro e' he'
    rw [List.foldl_cons] at h
    rcases List.mem_cons.1 he' with rfl | he'
    · rcases foldl_mergeSwapLookup_eq_some g h with hv | hv
      · obtain ⟨e'', he'', rfl⟩ := List.mem_map.1 hv
        exact hl e'' (List.mem_cons_of_mem _ he'') e' (List.mem_cons_self _ _)
      · exact mergeSwapLookup_ne_src g (hl e' (List.mem_cons_self _ _) e' (List.mem_cons_self _ _)) hv
    · exact ih (fun a ha b hb => hl a (List.mem_cons_of_mem _ ha) b (List.mem_cons_of_mem _ hb))
        h e' he'

end Keeps

/-! ## Merging tables with disjoint keys -/

/-- `v` redirected by every entry of `l` in turn: what the loop's redirections (lines 433-437)
    do to a value that no entry of `l` sets. -/
def redirectAll (l : List ((Nat × Nat) × Nat)) (v : Nat) : Nat :=
  l.foldl (fun v e => redirect e.1.2 e.2 v) v

theorem redirectAll_cons (e : (Nat × Nat) × Nat) (l : List ((Nat × Nat) × Nat)) (v : Nat) :
    redirectAll (e :: l) v = redirectAll l (redirect e.1.2 e.2 v) := rfl

theorem redirectAll_of_forall_ne {l : List ((Nat × Nat) × Nat)} {v : Nat}
    (h : ∀ e ∈ l, e.1.2 ≠ v) : redirectAll l v = v := by
  induction l with
  | nil => rfl
  | cons e l ih =>
    rw [List.forall_mem_cons] at h
    rw [redirectAll_cons, redirect, if_neg (Ne.symm h.1), ih h.2]

/-- When no substitute of `l` is an original parent in `l`, a value that is the original parent
    of one entry of `l` alone is redirected once, to that entry's substitute. -/
theorem redirectAll_of_mem {l : List ((Nat × Nat) × Nat)} {e : (Nat × Nat) × Nat}
    (hsrc : ∀ e ∈ l, ∀ e' ∈ l, e'.1.2 ≠ e.2) (hone : ∀ e' ∈ l, e'.1.2 = e.1.2 → e' = e)
    (he : e ∈ l) : redirectAll l e.1.2 = e.2 := by
  induction l with
  | nil => cases he
  | cons a l ih =>
    rw [redirectAll_cons]
    by_cases ha : a = e
    · subst ha
      rw [redirect, if_pos rfl]
      exact redirectAll_of_forall_ne fun e' he' =>
        hsrc _ (List.mem_cons_self _ _) e' (List.mem_cons_of_mem _ he')
    · have hne : e.1.2 ≠ a.1.2 := fun h => ha (hone a (List.mem_cons_self _ _) h.symm)
      rw [redirect, if_neg hne]
      exact ih (fun a ha b hb => hsrc a (List.mem_cons_of_mem _ ha) b (List.mem_cons_of_mem _ hb))
        (fun e' he' => hone e' (List.mem_cons_of_mem _ he'))
        ((List.mem_cons.1 he).resolve_left (Ne.symm ha))

/-- Over the entries of one table, with no substitute an original parent, and every entry with
    original parent `v` into `dst`: `v` ends at the substitute recorded for `(dst, v)`. -/
theorem redirectAll_entries {T : SwapTable} {dst v : Nat}
    (hsrc : ∀ e ∈ T.entries, ∀ e' ∈ T.entries, e'.1.2 ≠ e.2)
    (hdst : ∀ e ∈ T.entries, e.1.2 = v → e.1.1 = dst) :
    redirectAll T.entries v = (T.get (dst, v)).getD v := by
  have hkey : ∀ e ∈ T.entries, e.1.2 = v → e.1 = (dst, v) := fun e he hv =>
    Prod.ext (hdst e he hv) hv
  cases h : T.get (dst, v) with
  | none =>
    refine redirectAll_of_forall_ne fun e he hv => ?_
    rw [← hkey e he hv, HashMap.mem_entries.1 he] at h
    cases h
  | some i =>
    have he : ((dst, v), i) ∈ T.entries := HashMap.mem_entries.2 h
    exact redirectAll_of_mem hsrc (fun e' he' hv =>
      HashMap.eq_of_mem_entries he' he (hkey e' he' hv)) he

/-- A key no entry of `l` has is only redirected. -/
theorem foldl_mergeSwapLookup_of_not_mem (g : Graph) :
    ∀ {l : List ((Nat × Nat) × Nat)} {t : Nat × Nat → Option Nat} {k : Nat × Nat},
      k ∉ l.map Prod.fst → l.foldl (mergeSwapLookup g) t k = (t k).map (redirectAll l)
  | [], t, k, _ => by
    show t k = (t k).map (redirectAll [])
    cases t k <;> rfl
  | e :: l, t, k, hk => by
    rw [List.map_cons, List.mem_cons, not_or] at hk
    rw [List.foldl_cons, foldl_mergeSwapLookup_of_not_mem g hk.2]
    cases h : t k <;> simp [mergeSwapLookup, hk.1, h, redirectAll_cons]

/-- When the entries of `l` have distinct keys that `t` does not record, and no substitute of
    `l` is an original parent in `l`, the merge gives each key of `l` its own substitute. -/
theorem foldl_mergeSwapLookup_of_mem (g : Graph) :
    ∀ {l : List ((Nat × Nat) × Nat)} {t : Nat × Nat → Option Nat}, (l.map Prod.fst).Nodup →
      (∀ e ∈ l, t e.1 = none) → (∀ e ∈ l, ∀ e' ∈ l, e'.1.2 ≠ e.2) →
      ∀ e ∈ l, l.foldl (mergeSwapLookup g) t e.1 = some e.2
  | [], _, _, _, _, e, he => by cases he
  | a :: l, t, hnd, ht, hsrc, e, he => by
    rw [List.map_cons, List.nodup_cons] at hnd
    rw [List.foldl_cons]
    rcases List.mem_cons.1 he with rfl | he
    · have hm : mergeSwapLookup g t e e.1 = some e.2 := by
        simp [mergeSwapLookup, ht _ (List.mem_cons_self _ _), resolveSwap, redirect]
      rw [foldl_mergeSwapLookup_of_not_mem g hnd.1, hm, Option.map_some',
        redirectAll_of_forall_ne fun e' he' =>
          hsrc _ (List.mem_cons_self _ _) e' (List.mem_cons_of_mem _ he')]
    · refine foldl_mergeSwapLookup_of_mem g hnd.2 (fun e' he' => ?_)
        (fun a ha b hb => hsrc a (List.mem_cons_of_mem _ ha) b (List.mem_cons_of_mem _ hb)) e he
      have hne : e'.1 ≠ a.1 := fun h => hnd.1 (h ▸ List.mem_map_of_mem _ he')
      simp [mergeSwapLookup, hne, ht e' (List.mem_cons_of_mem _ he')]

/-- When routing spliced no edge that sharding had spliced, no substitute of routing's table is
    an original parent in it, and routing spliced an edge out of a sharder only into that
    sharder's own child, the merged table gives each key routing's substitute, else sharding's
    substitute followed through the one routing put under it. -/
theorem mergeSwaps_get_of_disjoint (g : Graph) {swapped0 swapped1 : SwapTable}
    (hdisj : ∀ e ∈ swapped1.entries, swapped0.get e.1 = none)
    (hsrc : ∀ e ∈ swapped1.entries, ∀ e' ∈ swapped1.entries, e'.1.2 ≠ e.2)
    (hchild : ∀ e ∈ swapped0.entries, ∀ e' ∈ swapped1.entries, e'.1.2 = e.2 → e'.1.1 = e.1.1)
    (k : Nat × Nat) :
    (mergeSwaps g swapped0 swapped1).get k =
      (swapped1.get k).or ((swapped0.get k).map fun s => (swapped1.get (k.1, s)).getD s) := by
  rw [mergeSwaps, get_foldl_mergeSwap]
  cases h1 : swapped1.get k with
  | some i =>
    exact foldl_mergeSwapLookup_of_mem g swapped1.nodup hdisj hsrc _ (HashMap.mem_entries.2 h1)
  | none =>
    rw [foldl_mergeSwapLookup_of_not_mem g (HashMap.get_eq_none_iff.1 h1)]
    cases h0 : swapped0.get k with
    | none => rfl
    | some s =>
      exact congrArg some (redirectAll_entries hsrc fun e' he' hs =>
        hchild (k, s) (HashMap.mem_entries.2 h0) e' he' hs)

/-- When no substitute of routing's table `swapped1` is the original parent of one of its keys,
    the table merged in any visiting order of `swapped1` has exactly the keys of both tables,
    maps every key new in `swapped1` to a substitute of `swapped1`, and keeps no value equal to
    an original parent of `swapped1`: every stale one-hop chain is collapsed. -/
theorem mergeSwaps_collapses_stale_parents (g : Graph) (swapped0 swapped1 swapped1' : SwapTable)
    (hperm : swapped1'.entries.Perm swapped1.entries)
    (h : ∀ v ∈ swapped1.values, ∀ k ∈ swapped1.keys, v ≠ k.2) :
    (∀ k, k ∈ (mergeSwaps g swapped0 swapped1').keys ↔ k ∈ swapped0.keys ∨ k ∈ swapped1.keys) ∧
    (∀ k ∈ swapped1.keys, k ∉ swapped0.keys →
      ∃ v ∈ swapped1.values, (mergeSwaps g swapped0 swapped1').get k = some v) ∧
    (∀ v ∈ (mergeSwaps g swapped0 swapped1').values, ∀ k ∈ swapped1.keys, v ≠ k.2) := by
  have hget := get_foldl_mergeSwap g swapped1'.entries swapped0
  have hkeys : ∀ k, k ∈ swapped1.keys ↔ k ∈ swapped1'.entries.map Prod.fst := fun k =>
    ((hperm.map Prod.fst).mem_iff).symm
  have hvals : ∀ v, v ∈ swapped1.values ↔ v ∈ swapped1'.entries.map Prod.snd := fun v =>
    ((hperm.map Prod.snd).mem_iff).symm
  have hl : ∀ e ∈ swapped1'.entries, ∀ e' ∈ swapped1'.entries, e.2 ≠ e'.1.2 :=
    fun e he e' he' => h _ ((hvals _).2 (List.mem_map_of_mem _ he)) _
      ((hkeys _).2 (List.mem_map_of_mem _ he'))
  refine ⟨fun k => ?_, fun k hk hk0 => ?_, fun v hv k hk => ?_⟩
  · rw [HashMap.mem_keys, HashMap.mem_keys, hkeys, ← Option.isSome_iff_exists,
      ← Option.isSome_iff_exists, mergeSwaps, hget, foldl_mergeSwapLookup_isSome]
  · obtain ⟨v, hv⟩ := Option.isSome_iff_exists.1
      ((foldl_mergeSwapLookup_isSome g _ swapped0.get k).2 (Or.inr ((hkeys k).1 hk)))
    rw [← HashMap.get_eq_none_iff] at hk0
    refine ⟨v, ?_, by rw [mergeSwaps, hget]; exact hv⟩
    rcases foldl_mergeSwapLookup_eq_some g hv with hv | hv
    · exact (hvals v).2 hv
    · simp [hk0] at hv
  · obtain ⟨k', hk'⟩ := HashMap.mem_values.1 hv
    rw [mergeSwaps, hget] at hk'
    obtain ⟨e, he, rfl⟩ := List.mem_map.1 ((hkeys k).1 hk)
    exact foldl_mergeSwapLookup_ne_src g hl hk' e he

/-- A graph with no nodes: the merge reads the graph only where both tables swap one edge. -/
def emptyGraph : Graph := ⟨[], [], fun _ he => nomatch he⟩

/-- Sharding put the sharder `3` between `0` and `2`; routing then put the ingress `5` between
    the sharder and `2`. -/
def swapsSharded : SwapTable := HashMap.empty.insert (2, 0) 3

def swapsRouted : SwapTable := HashMap.empty.insert (2, 3) 5

/-- The merged table sends `2`'s original parent `0` straight to the ingress `5`. -/
theorem mergeSwaps_collapses_sharder_then_ingress :
    (∀ v ∈ swapsRouted.values, ∀ k ∈ swapsRouted.keys, v ≠ k.2) ∧
    (∀ k, k ∈ (mergeSwaps emptyGraph swapsSharded swapsRouted).keys ↔
      k ∈ swapsSharded.keys ∨ k ∈ swapsRouted.keys) ∧
    (∀ k ∈ swapsRouted.keys, k ∉ swapsSharded.keys →
      ∃ v ∈ swapsRouted.values, (mergeSwaps emptyGraph swapsSharded swapsRouted).get k = some v) ∧
    (∀ v ∈ (mergeSwaps emptyGraph swapsSharded swapsRouted).values,
      ∀ k ∈ swapsRouted.keys, v ≠ k.2) ∧
    (mergeSwaps emptyGraph swapsSharded swapsRouted).get (2, 0) = some 5 := by
  have h : ∀ v ∈ swapsRouted.values, ∀ k ∈ swapsRouted.keys, v ≠ k.2 := by decide
  obtain ⟨hkeys, hnew, hstale⟩ := mergeSwaps_collapses_stale_parents emptyGraph swapsSharded
    swapsRouted swapsRouted (List.Perm.refl _) h
  exact ⟨h, hkeys, hnew, hstale, by decide⟩

/-! ## The visiting order -/

section Order

variable {x y : (Nat × Nat) × Nat}

/-- Redirections of two entries commute on a value `w` when neither substitute is the other's
    original parent, and the entries share their substitute if they share an original parent
    equal to `w`. -/
theorem redirect_comm (hxy : x.2 ≠ y.1.2) (hyx : y.2 ≠ x.1.2) {w : Nat}
    (hs : x.1.2 = y.1.2 → w = x.1.2 → x.2 = y.2) :
    redirect y.1.2 y.2 (redirect x.1.2 x.2 w) = redirect x.1.2 x.2 (redirect y.1.2 y.2 w) := by
  unfold redirect
  by_cases hsrc : x.1.2 = y.1.2
  · by_cases hw : w = x.1.2
    · have := hs hsrc hw
      split_ifs <;> omega
    · split_ifs <;> omega
  · split_ifs <;> omega

/-- Resolving `y`'s key after `x`'s redirection, then redirecting for `y`, is resolving it
    first and redirecting for both. -/
theorem redirect_resolveSwap (g : Graph) (hxy : x.2 ≠ y.1.2) (hyx : y.2 ≠ x.1.2)
    (hy : y.2 ≠ y.1.2) {old : Option Nat} (hs : x.1.2 = y.1.2 → old = some x.1.2 → x.2 = y.2) :
    redirect y.1.2 y.2 (resolveSwap g (old.map (redirect x.1.2 x.2)) y.1.2 y.2) =
      redirect x.1.2 x.2 (redirect y.1.2 y.2 (resolveSwap g old y.1.2 y.2)) := by
  have hfix : ∀ {s i}, y.2 ≠ s → redirect s i y.2 = y.2 := fun h => if_neg h
  cases old with
  | none => simp only [Option.map_none', resolveSwap, hfix hy, hfix hyx]
  | some w =>
    simp only [Option.map_some', resolveSwap]
    split_ifs
    · exact redirect_comm hxy hyx fun h hw => hs h (congrArg some hw)
    · rw [hfix hy, hfix hyx]

/-- Two merge steps commute on entries with different keys, neither substitute an original
    parent of the two, and a shared original parent that `t` holds as a value only with a
    shared substitute. -/
theorem mergeSwapLookup_comm (g : Graph) (t : Nat × Nat → Option Nat) (hk : x.1 ≠ y.1)
    (hx : x.2 ≠ x.1.2) (hy : y.2 ≠ y.1.2) (hxy : x.2 ≠ y.1.2) (hyx : y.2 ≠ x.1.2)
    (hs : x.1.2 = y.1.2 → ∀ k, t k = some x.1.2 → x.2 = y.2) :
    mergeSwapLookup g (mergeSwapLookup g t x) y = mergeSwapLookup g (mergeSwapLookup g t y) x := by
  funext k
  unfold mergeSwapLookup
  by_cases hkx : k = x.1
  · subst hkx
    simp only [if_pos rfl, if_neg hk, Option.map_some']
    exact congrArg some (redirect_resolveSwap g hyx hxy hx
      (fun h hw => (hs h.symm _ (h ▸ hw)).symm)).symm
  · by_cases hky : k = y.1
    · subst hky
      simp only [if_pos rfl, if_neg (Ne.symm hk), Option.map_some']
      exact congrArg some (redirect_resolveSwap g hxy hyx hy (hs · _))
    · simp only [if_neg hkx, if_neg hky, Option.map_map]
      cases hw : t k with
      | none => rfl
      | some w => exact congrArg some (redirect_comm hxy hyx fun h hw' => hs h k (hw' ▸ hw))

/-- `List.Perm.foldl_eq'` for steps that commute only on states with a property every step
    keeps. -/
theorem foldl_eq_of_perm {α β : Type} {f : β → α → β} {I : β → Prop} {l₁ l₂ : List α}
    (hp : l₁.Perm l₂) :
    (∀ b, I b → ∀ a ∈ l₁, I (f b a)) →
    (∀ b, I b → ∀ a ∈ l₁, ∀ a' ∈ l₁, f (f b a) a' = f (f b a') a) →
    ∀ b, I b → l₁.foldl f b = l₂.foldl f b := by
  induction hp with
  | nil => exact fun _ _ _ _ => rfl
  | cons a _ ih =>
    intro hI hc b hb
    exact ih (fun b hb a' ha' => hI b hb a' (List.mem_cons_of_mem _ ha'))
      (fun b hb a₁ h₁ a₂ h₂ => hc b hb a₁ (List.mem_cons_of_mem _ h₁) a₂ (List.mem_cons_of_mem _ h₂))
      (f b a) (hI b hb a (List.mem_cons_self _ _))
  | swap a a' l =>
    intro _ hc b hb
    exact congrArg (List.foldl f · l)
      (hc b hb a' (List.mem_cons_self _ _) a (List.mem_cons_of_mem _ (List.mem_cons_self _ _)))
  | trans h₁₂ _ ih₁ ih₂ =>
    intro hI hc b hb
    exact (ih₁ hI hc b hb).trans (ih₂ (fun b hb a ha => hI b hb a (h₁₂.mem_iff.2 ha))
      (fun b hb a ha a' ha' => hc b hb a (h₁₂.mem_iff.2 ha) a' (h₁₂.mem_iff.2 ha')) b hb)

end Order

/-- Lookups none of whose values is an original parent that two entries of `l` share with
    different substitutes. -/
def NoContestedParent (l : List ((Nat × Nat) × Nat)) (t : Nat × Nat → Option Nat) : Prop :=
  ∀ k, ∀ e ∈ l, ∀ e' ∈ l, t k = some e.1.2 → e'.1.2 = e.1.2 → e.2 = e'.2

/-- A merge step keeps that property when no substitute of `l` is an original parent in `l`:
    its values are the entry's substitute or values that were there. -/
theorem NoContestedParent.mergeSwapLookup (g : Graph) {l : List ((Nat × Nat) × Nat)}
    {t : Nat × Nat → Option Nat} (ht : NoContestedParent l t)
    (hl : ∀ e ∈ l, ∀ e' ∈ l, e.2 ≠ e'.1.2) {x : (Nat × Nat) × Nat} (hx : x ∈ l) :
    NoContestedParent l (mergeSwapLookup g t x) := fun k e he e' he' hk hsrc => by
  rcases mergeSwapLookup_eq_some g hk with hv | hv
  · exact absurd hv.symm (hl x hx e he)
  · exact ht k e he e' he' hv hsrc

/-- When no substitute of routing's table is the original parent of one of its keys, and no
    substitute of sharding's table is an original parent that two entries of routing's table
    share with different substitutes, the merged table answers every lookup the same for every
    visiting order of routing's table. -/
theorem mergeSwaps_get_of_perm (g : Graph) (swapped0 swapped1 swapped1' : SwapTable)
    (hperm : swapped1'.entries.Perm swapped1.entries)
    (h : ∀ v ∈ swapped1.values, ∀ k ∈ swapped1.keys, v ≠ k.2)
    (h0 : ∀ v ∈ swapped0.values, ∀ e ∈ swapped1.entries, ∀ e' ∈ swapped1.entries,
      e.1.2 = v → e'.1.2 = v → e.2 = e'.2)
    (k : Nat × Nat) : (mergeSwaps g swapped0 swapped1').get k = (mergeSwaps g swapped0 swapped1).get k := by
  unfold mergeSwaps
  rw [get_foldl_mergeSwap, get_foldl_mergeSwap]
  have hsub : ∀ e ∈ swapped1'.entries, ∀ e' ∈ swapped1'.entries, e.2 ≠ e'.1.2 :=
    fun e he e' he' => h _ (List.mem_map_of_mem _ (hperm.subset he)) _
      (List.mem_map_of_mem _ (hperm.subset he'))
  refine congrFun (foldl_eq_of_perm hperm (I := NoContestedParent swapped1'.entries)
    (fun t ht x hx => ht.mergeSwapLookup g hsub hx) (fun t ht x hx y hy => ?_) _
    fun k e he e' he' hk hsrc => h0 _ (HashMap.mem_values.2 ⟨k, hk⟩) e (hperm.subset he) e'
      (hperm.subset he') rfl hsrc) k
  by_cases hxy : x = y
  · rw [hxy]
  · exact mergeSwapLookup_comm g t
      (fun hk => hxy (HashMap.eq_of_mem_entries (hperm.subset hx) (hperm.subset hy) hk))
      (hsub x hx x hx) (hsub y hy y hy) (hsub x hx y hy) (hsub y hy x hx)
      fun hsrc k hk => ht k x hx y hy hk hsrc.symm

/-- Sharding put `0` between `4` and `3`; routing then spliced the edges `0 → 1` and `0 → 2`,
    with different ingress nodes. -/
def swapsShardedUnder0 : SwapTable := HashMap.empty.insert (3, 4) 0

def swapsFrom0 : SwapTable := (HashMap.empty.insert (1, 0) 5).insert (2, 0) 6

/-- `swapsFrom0` iterated in the other order. -/
def swapsFrom0Reversed : SwapTable := (HashMap.empty.insert (2, 0) 6).insert (1, 0) 5

/-- The merged table's lookup for `3`'s parent `4` depends on the visiting order, although no
    substitute of routing's table is an original parent of one of its keys. -/
theorem mergeSwaps_depends_on_order :
    swapsFrom0Reversed.entries.Perm swapsFrom0.entries ∧
    (∀ v ∈ swapsFrom0.values, ∀ k ∈ swapsFrom0.keys, v ≠ k.2) ∧
    (mergeSwaps emptyGraph swapsShardedUnder0 swapsFrom0).get (3, 4) = some 5 ∧
    (mergeSwaps emptyGraph swapsShardedUnder0 swapsFrom0Reversed).get (3, 4) = some 6 :=
  ⟨List.Perm.swap _ _ _, by decide, by decide, by decide⟩

/-- Routing spliced the edges `7 → 1` and `7 → 2` through different ingresses `5` and `6`, as
    it does for two children of `7` in two domains; sharding's table does not hold `7`. -/
def swapsFrom7 : SwapTable := (HashMap.empty.insert (1, 7) 5).insert (2, 7) 6

def swapsFrom7Reversed : SwapTable := (HashMap.empty.insert (2, 7) 6).insert (1, 7) 5

/-- Both visiting orders of `swapsFrom7` give one table, although its two entries share an
    original parent with different substitutes. -/
theorem mergeSwaps_get_of_perm_two_ingresses :
    swapsFrom7Reversed.entries.Perm swapsFrom7.entries ∧
    (∀ v ∈ swapsFrom7.values, ∀ k ∈ swapsFrom7.keys, v ≠ k.2) ∧
    (∀ v ∈ swapsShardedUnder0.values, ∀ e ∈ swapsFrom7.entries, ∀ e' ∈ swapsFrom7.entries,
      e.1.2 = v → e'.1.2 = v → e.2 = e'.2) ∧
    ∀ k, (mergeSwaps emptyGraph swapsShardedUnder0 swapsFrom7Reversed).get k =
      (mergeSwaps emptyGraph swapsShardedUnder0 swapsFrom7).get k := by
  have hperm : swapsFrom7Reversed.entries.Perm swapsFrom7.entries := List.Perm.swap _ _ _
  have h : ∀ v ∈ swapsFrom7.values, ∀ k ∈ swapsFrom7.keys, v ≠ k.2 := by decide
  have h0 : ∀ v ∈ swapsShardedUnder0.values, ∀ e ∈ swapsFrom7.entries, ∀ e' ∈ swapsFrom7.entries,
      e.1.2 = v → e'.1.2 = v → e.2 = e'.2 := by decide
  exact ⟨hperm, h, h0, mergeSwaps_get_of_perm emptyGraph swapsShardedUnder0 swapsFrom7
    swapsFrom7Reversed hperm h h0⟩

end Noria
