import Mathlib.Data.List.Infix
import Mathlib.Algebra.Group.Int
import NoriaMigrate.Native.Graph

/-!
# Building a migration

`Migration` collects the changes of one migration against the running controller: the nodes
it adds, the column changes of existing base nodes, and one reader per node made queryable.
Every builder call edits the shared graph directly (new nodes are not yet part of any
domain), and records what `commit` must later hand to the running domains.

`ControllerInner` lives in `controller/inner.rs`, outside this source; only the fields a
migration reads or writes are modelled. Of `map_meta`, `maintain` also walks
`query_to_leaves`, but only into a map it then discards, so that field is left out.
-/

namespace Noria

/-- `ColumnChange`: a column added to, or dropped from, an existing base node. -/
inductive ColumnChange
  | add (field : String) (default : DataType)
  | drop (column : Nat)
deriving DecidableEq, Repr

/-- What `place_domain` hands back for a booted domain. -/
structure DomainHandle where
  index : Nat
  shards : Option Nat
deriving DecidableEq, Repr

/-- `ControllerInner::map_meta`: the readers serving each query, and each reader's universe. -/
structure MapMeta where
  queryToReaders : HashMap String (HashSet Nat)
  readerToUid : HashMap Nat Nat

/-- The fields of `ControllerInner` that a migration reads or writes. -/
structure ControllerInner where
  ingredients : Graph
  source : Nat
  sharding : Option Nat
  domains : HashMap Nat DomainHandle
  remap : HashMap Nat (HashMap Nat IndexPair)
  mapMeta : MapMeta

/-- `Migration`: the pending changes, and the controller they are made against. -/
structure Migration where
  mainline : ControllerInner
  added : List Nat
  columns : List (Nat × ColumnChange)
  readers : HashMap Nat Nat
  context : HashMap String DataType

/-- An operator handed to `add_ingredient`: the parents `ancestors()` reports once
    `on_connected` has shown it the graph. -/
structure Ingredient where
  ancestors : Graph → List Nat

namespace Migration

/-- The migration with its graph replaced. -/
def withGraph (self : Migration) (g : Graph) : Migration :=
  { self with mainline := { self.mainline with ingredients := g } }

@[simp] theorem withGraph_ingredients (self : Migration) (g : Graph) :
    (self.withGraph g).mainline.ingredients = g := rfl

@[simp] theorem withGraph_added (self : Migration) (g : Graph) :
    (self.withGraph g).added = self.added := rfl

@[simp] theorem withGraph_columns (self : Migration) (g : Graph) :
    (self.withGraph g).columns = self.columns := rfl

@[simp] theorem withGraph_readers (self : Migration) (g : Graph) :
    (self.withGraph g).readers = self.readers := rfl

/-- Lines 92-94: an edge from every parent into `ni`. -/
def addParentEdges : Graph → List Nat → Nat → Except Panic Graph
  | g, [], _ => .ok g
  | g, p :: ps, ni => do
    let g ← unwrapAt (g.addEdge p ni) 93 (some p)
    addParentEdges g ps ni

/-- `Migration::add_ingredient` (lines 67-97). -/
def addIngredient (self : Migration) (name : String) (fields : List String)
    (i : Ingredient) : Except Panic (Nat × Migration) := do
  let parents := i.ancestors self.mainline.ingredients
  assertAt (!parents.isEmpty) 76 none
  let (ni, g) := self.mainline.ingredients.addNode (Node.new name fields .internal)
  let g ← addParentEdges g parents ni
  return (ni, { self.withGraph g with added := self.added ++ [ni] })

/-- `Migration::add_base` (lines 102-131). -/
def addBase (self : Migration) (name : String) (fields : List String) (b : Base) :
    Except Panic (Nat × Migration) := do
  let (ni, g) := self.mainline.ingredients.addNode (Node.new name fields (.base b))
  let g ← unwrapAt (g.addEdge self.mainline.source ni) 126 (some ni)
  return (ni, { self.withGraph g with added := self.added ++ [ni] })

/-- `Migration::universe` (lines 140-152). -/
def universe' (self : Migration) : DataType × Option DataType :=
  (match self.context.get "id" with
    | some id => id
    | none => .text "global",
   self.context.get "group")

/-- `node.get_base_mut()`. -/
def baseOf (n : Node) : Option Base := match n.inner with | .base b => some b | _ => none

/-- `Migration::add_column` (lines 158-184). -/
def addColumn (self : Migration) (node : Nat) (field : String) (default : DataType) :
    Except Panic (Nat × Migration) := do
  assertAt (!self.added.contains node) 165 (some node)
  let base ← unwrapAt (self.mainline.ingredients.node? node) 168 (some node)
  assertAt base.isBase 169 (some node)
  let (base, colI1) := base.addColumn field
  let b ← unwrapAt (baseOf base) 176 (some node)
  let (b, colI2) := b.addColumn default
  assertAt (colI1 == colI2) 177 (some node)
  let g := self.mainline.ingredients.modifyNode node fun _ => { base with inner := .base b }
  return (colI1, { self.withGraph g with columns := self.columns ++ [(node, .add field default)] })

/-- `Migration::drop_column` (lines 187-201). -/
def dropColumn (self : Migration) (node : Nat) (column : Nat) : Except Panic Migration := do
  assertAt (!self.added.contains node) 189 (some node)
  let base ← unwrapAt (self.mainline.ingredients.node? node) 191 (some node)
  assertAt base.isBase 192 (some node)
  let b ← unwrapAt (baseOf base) 197 (some node)
  let g := self.mainline.ingredients.modifyNode node fun _ =>
    { base with inner := .base (b.dropColumn column) }
  return { self.withGraph g with columns := self.columns ++ [(node, .drop column)] }

/-! ## Readers -/

/-- `name.contains(k)` for a string pattern: `k` occurs in `name`. -/
def strContains (name k : String) : Bool := decide (k.toList <:+: name.toList)

/-- Lines 229-241: the last query name, in the set's iteration order, occurring in `name`. -/
def generalQuery (queryHash : List String) (name : String) : Option String :=
  queryHash.foldl (fun acc k => if strContains name k then some k else acc) none

/-- Lines 250-259 (and again 271-280): put reader `r` into the set of query `q`, creating the
    set when `q` has none. -/
def addReaderToQuery (queryToReaders : HashMap String (HashSet Nat)) (q : String) (r : Nat) :
    HashMap String (HashSet Nat) :=
  match queryToReaders.get q with
  | some set => queryToReaders.insert q (set.insert r)
  | none => queryToReaders.insert q (HashSet.empty.insert r)

/-- Lines 222-285: the query sets once reader `r` is registered. With a query name, the reader
    joins the last existing query that occurs in its name, or else a query of its own name. -/
def registerReader (queryToReaders : HashMap String (HashSet Nat)) (name : Option String)
    (r : Nat) : HashMap String (HashSet Nat) :=
  let queryHash := HashSet.ofList queryToReaders.keys
  let generalQuery := match name with
    | some n => generalQuery queryHash.elems n
    | none => none
  match generalQuery with
  | some name' => addReaderToQuery queryToReaders name' r
  | none =>
    match name with
    | some name' => addReaderToQuery queryToReaders name' r
    | none => queryToReaders

/-- Lines 214-218: the reader node, a mirror of the target `n`, named after the query when a
    name is given; the target is indexed at line 215 in the first branch and at line 217 in the
    second. -/
def readerNode (g : Graph) (n : Nat) (r : Reader) : Option String → Except Panic Node
  | some name => (·.namedMirror (.reader r) name) <$> unwrapAt (g.node? n) 215 (some n)
  | none => (·.mirror (.reader r)) <$> unwrapAt (g.node? n) 217 (some n)

/-- `Migration::ensure_reader_for` (lines 208-291). -/
def ensureReaderFor (self : Migration) (n : Nat) (name : Option String) :
    Except Panic Migration :=
  if self.readers.containsKey n then .ok self
  else do
    let r := Reader.new n
    let rNode ← readerNode self.mainline.ingredients n r name
    let (r, g) := self.mainline.ingredients.addNode rNode
    let g ← unwrapAt (g.addEdge n r) 220 (some n)
    let meta := self.mainline.mapMeta
    let meta := { meta with queryToReaders := registerReader meta.queryToReaders name r }
    return { self with
      mainline := { self.mainline with ingredients := g, mapMeta := meta }
      readers := self.readers.insert n r }

/-- One more digit of a decimal numeral read left to right; `none` at a non-digit. -/
def digitStep (acc : Option Nat) (d : Char) : Option Nat :=
  acc.bind fun v => if d.isDigit then some (10 * v + (d.toNat - '0'.toNat)) else none

/-- The value of a nonempty string of ASCII digits. -/
def digitsValue : List Char → Option Nat
  | [] => none
  | ds => ds.foldl digitStep (some 0)

/-- `s.parse::<i32>()`: an optional sign and decimal digits, within the range of `i32`. -/
def parseI32 (s : String) : Option Int :=
  match s.toList with
  | '+' :: ds => (digitsValue ds).bind fun v => if v < 2 ^ 31 then some v else none
  | '-' :: ds => (digitsValue ds).bind fun v => if v ≤ 2 ^ 31 then some (-v) else none
  | ds => (digitsValue ds).bind fun v => if v < 2 ^ 31 then some v else none

/-- `node.with_reader_mut(|r| r.set_key(key))`: `none` for a node that is not a reader. -/
def setReaderKey (n : Node) (key : List Nat) : Option Node :=
  match n.inner with
  | .reader r => some { n with inner := .reader (r.setKey key) }
  | _ => none

/-- Lines 316-322 of `maintain`: the universe id as a `usize`. The id is rendered by the
    `dataflow` crate's `DataType::to_string`, taken here as `toString`. The literal `0` that
    `uint` starts from gives `uint` the type `i32`, so the id is parsed as an `i32` and then
    cast with `as usize`. -/
def universeUid (toString : DataType → String) (self : Migration) : Except Panic Nat := do
  let uid := toString self.universe'.1
  let uint : Int ← if uid ≠ "global" then unwrapAt (parseI32 uid) 320 none else pure 0
  return (uint % 2 ^ 64).toNat

/-- `Migration::maintain` (lines 311-354). -/
def maintain (toString : DataType → String) (self : Migration) (name : String) (n : Nat)
    (key : List Nat) : Except Panic Migration := do
  let self ← self.ensureReaderFor n (some name)
  let ri ← unwrapAt (self.readers.get n) 314 (some n)
  let uid ← universeUid toString self
  let meta := self.mainline.mapMeta
  let meta := { meta with readerToUid := meta.readerToUid.insert ri uid }
  let node ← unwrapAt (self.mainline.ingredients.node? ri) 351 (some ri)
  let node ← unwrapAt (setReaderKey node key) 353 (some ri)
  let g := self.mainline.ingredients.modifyNode ri fun _ => node
  return { self with mainline := { self.mainline with ingredients := g, mapMeta := meta } }

/-! ## Clients of the builder -/

/-- `ControllerInner::migrate`: an empty change set against the running controller. -/
def start (mainline : ControllerInner) (context : HashMap String DataType) : Migration :=
  ⟨mainline, [], [], HashMap.empty, context⟩

end Migration

/-- One builder call made on a pending migration. -/
inductive BuilderCall
  | addIngredient (name : String) (fields : List String) (i : Ingredient)
  | addBase (name : String) (fields : List String) (b : Base)
  | addColumn (node : Nat) (field : String) (default : DataType)
  | dropColumn (node : Nat) (column : Nat)
  | ensureReaderFor (n : Nat) (name : Option String)
  | maintain (name : String) (n : Nat) (key : List Nat)

/-- The migration after one builder call; the values the calls return are dropped. -/
def BuilderCall.apply (toString : DataType → String) :
    BuilderCall → Migration → Except Panic Migration
  | .addIngredient name fields i, m => Prod.snd <$> m.addIngredient name fields i
  | .addBase name fields b, m => Prod.snd <$> m.addBase name fields b
  | .addColumn node field default, m => Prod.snd <$> m.addColumn node field default
  | .dropColumn node column, m => m.dropColumn node column
  | .ensureReaderFor n name, m => m.ensureReaderFor n name
  | .maintain name n key, m => m.maintain toString name n key

/-- A sequence of builder calls, stopping at the first panic. -/
def runCalls (toString : DataType → String) : Migration → List BuilderCall → Except Panic Migration
  | m, [] => .ok m
  | m, c :: cs => do
    let m ← c.apply toString m
    runCalls toString m cs

end Noria
