import ConcurrentComputing.CuckooPath
import ConcurrentComputing.Placement
import Mathlib.Data.Finset.Prod
import Mathlib.Algebra.BigOperators.Group.Finset.Sigma

/-! # The server's key-value store

`Persistence/KeyValueStore/Cuckoo.hpp` of the RDMA store at `K = V = int`. There
is one physical table, and both hash functions index it; `1` and `2` only tell
which of them led to a bucket. The nodes lie in one block, bucket after bucket,
with room for the clients' lock words behind them. -/

namespace ConcurrentComputing.Store

open CuckooPath Placement

/-- An `int` or an `unsigned int`. -/
abbrev Word := BitVec 32

structure Node where
  key : Word
  val : Word
  deriving DecidableEq, Repr

def entryWidth : Nat := 8
def maxSearchDepth : Nat := 5

/-- `elements` is the memory from the table on, of which `allocated` nodes are its own. -/
structure Table where
  elements : Nat → Node

namespace Table

/-- `size * ENTRY_WIDTH + size`, the nodes that the constructor allocates: a product and a
sum of `unsigned int`. -/
def allocated (size : Nat) : Nat := (size * entryWidth + size) % 2 ^ 32

def isOccupied (element : Node) : Bool := element.key != 0

/-- The constructor's `memset`. -/
def new : Table := ⟨fun _ => ⟨0, 0⟩⟩

def getElement (t : Table) (idx slot : Nat) : Node := t.elements (idx * entryWidth + slot)

def setElement (t : Table) (idx slot : Nat) (element : Node) : Table :=
  ⟨Function.update t.elements (idx * entryWidth + slot) element⟩

/-- Clearing a key leaves the value behind it in memory. -/
def setKey (t : Table) (idx slot : Nat) (key : Word) : Table :=
  t.setElement idx slot ⟨key, (t.getElement idx slot).val⟩

def find (t : Table) (key : Word) (idx : Nat) : Bool :=
  (List.range entryWidth).any fun i => (t.getElement idx i).key == key

def findSlot (t : Table) (key : Word) (idx : Nat) : Option Nat :=
  (List.range entryWidth).find? fun i => (t.getElement idx i).key == key

def isAvailable (t : Table) (idx : Nat) : Option Nat :=
  (List.range entryWidth).find? fun i => !isOccupied (t.getElement idx i)

end Table

/-- `secondary_hash(K a)` with `K = int`: the shifts to the right are arithmetic. -/
def secondaryHash (a : Word) : Word :=
  let a := (a + 0x7ed55d16#32) + (a <<< 12)
  let a := (a ^^^ 0xc761c23c#32) ^^^ a.sshiftRight 19
  let a := (a + 0x165667b1#32) + (a <<< 5)
  let a := (a + 0xd3a2646c#32) ^^^ (a <<< 9)
  let a := (a + 0xfd7046c5#32) + (a <<< 3)
  (a ^^^ 0xb55a4f09#32) ^^^ a.sshiftRight 16

/-- `hash(key, function)`; the division by an `unsigned int` is unsigned. -/
def hash (buckets : Nat) (key : Word) : Side → Nat
  | .one => key.toNat % buckets
  | .two => (secondaryHash key).toNat % buckets

/-- `RESULT`. -/
inductive Result where
  | false
  | true
  | dup
  | abortFailure
  deriving DecidableEq, Repr

inductive InsertResult where
  | resize
  | retry
  | duplicate (table : Side) (index slot : Nat)
  | success (table : Side) (index slot : Nat)
  deriving DecidableEq, Repr

structure Cuckoo where
  buckets : Nat
  table : Table

namespace Cuckoo

def new (buckets : Nat) : Cuckoo := ⟨buckets, .new⟩

def view (c : Cuckoo) : View Word := fun _ idx slot => (c.table.getElement idx slot).key

def scheme (c : Cuckoo) : Scheme Word := ⟨entryWidth, maxSearchDepth, 0, hash c.buckets⟩

/-! ## The sections of the private insert -/

/-- The first section; `none` when neither bucket has the key or a free slot. -/
def firstCheck (c : Cuckoo) (key : Word) (idx1 idx2 : Nat) : Option InsertResult :=
  match c.table.findSlot key idx1 with
  | some slot => some (.duplicate .one idx1 slot)
  | none => match c.table.findSlot key idx2 with
    | some slot => some (.duplicate .two idx2 slot)
    | none => match c.table.isAvailable idx1 with
      | some slot => some (.success .one idx1 slot)
      | none => match c.table.isAvailable idx2 with
        | some slot => some (.success .two idx2 slot)
        | none => none

def claim (c : Cuckoo) (hop : Hop) : InsertResult :=
  if !Table.isOccupied (c.table.getElement hop.index hop.slot) then
    .success hop.table hop.index hop.slot
  else .retry

/-- One displacement. The validation uses the second hash function whichever of
the two led to `dst`. -/
def displace (c : Cuckoo) (dst src : Hop) : Option Cuckoo :=
  let element := c.table.getElement src.index src.slot
  if Table.isOccupied (c.table.getElement dst.index dst.slot) || !Table.isOccupied element ||
      hash c.buckets element.key .two != dst.index then none
  else some { c with
    table := (c.table.setElement dst.index dst.slot element).setKey src.index src.slot 0 }

def displaceAll : Cuckoo → List Hop → InsertResult × Cuckoo
  | c, [] => (.retry, c)
  | c, [hop] => (.success hop.table hop.index hop.slot, c)
  | c, dst :: src :: path =>
    match c.displace dst src with
    | none => (.retry, c)
    | some c' => c'.displaceAll (src :: path)

/-- The private `insert(element, idx1, idx2)`. -/
def insertAt (c : Cuckoo) (key : Word) (idx1 idx2 : Nat) (rand : Nat → Nat) :
    InsertResult × Cuckoo :=
  match c.firstCheck key idx1 idx2 with
  | some r => (r, c)
  | none =>
    match findPath c.scheme (.still c.view) rand idx1 idx2 with
    | none => (.resize, c)
    | some [hop] => (c.claim hop, c)
    | some path => c.displaceAll path

/-! ## The public calls -/

/-- The `while (true)` of the public `insert` for at most the given number of
rounds: a resize is answered by `ABORT_FAILURE`, a duplicate is overwritten. -/
def insertLoop (element : Node) (idx1 idx2 : Nat) (rands : Nat → Nat → Nat) :
    Nat → Nat → Cuckoo → Option (Result × Cuckoo)
  | 0, _, _ => none
  | fuel + 1, n, c =>
    match c.insertAt element.key idx1 idx2 (rands n) with
    | (.resize, c') => some (.abortFailure, c')
    | (.retry, c') => insertLoop element idx1 idx2 rands fuel (n + 1) c'
    | (.duplicate _ index slot, c') =>
      some (.dup, { c' with table := c'.table.setElement index slot element })
    | (.success _ index slot, c') =>
      some (.true, { c' with table := c'.table.setElement index slot element })

/-- The public `insert`; `none` when it has not returned within `fuel` rounds. -/
def insert (c : Cuckoo) (element : Node) (rands : Nat → Nat → Nat) (fuel : Nat) :
    Option (Result × Cuckoo) :=
  insertLoop element (hash c.buckets element.key .one) (hash c.buckets element.key .two) rands
    fuel 0 c

def remove (c : Cuckoo) (key : Word) : Result × Cuckoo :=
  let idx1 := hash c.buckets key .one
  let idx2 := hash c.buckets key .two
  match c.table.findSlot key idx1 with
  | some slot => (.true, { c with table := c.table.setKey idx1 slot 0 })
  | none => match c.table.findSlot key idx2 with
    | some slot => (.true, { c with table := c.table.setKey idx2 slot 0 })
    | none => (.false, c)

def contains (c : Cuckoo) (key : Word) : Result :=
  if c.table.find key (hash c.buckets key .one) || c.table.find key (hash c.buckets key .two) then
    .true
  else .false

def size (c : Cuckoo) : Nat :=
  (List.range c.buckets).foldl (fun size i => (List.range entryWidth).foldl (fun size j =>
    size + (Table.isOccupied (c.table.getElement i j)).toNat) size) 0

end Cuckoo

/-! ## The table as a store of cells -/

/-- (index, slot). -/
abbrev Cell := Nat × Nat

/-- The home of a node: any slot of the two buckets its key hashes to. -/
def home (buckets : Nat) (element : Node) (cell : Cell) : Prop :=
  (cell.1 = hash buckets element.key .one ∨ cell.1 = hash buckets element.key .two) ∧
    cell.2 < entryWidth

def cells (buckets : Nat) : Finset Cell := Finset.range buckets ×ˢ Finset.range entryWidth

namespace Cuckoo

def content (c : Cuckoo) : Cell → Option Node := fun (idx, slot) =>
  if idx < c.buckets ∧ slot < entryWidth ∧ (c.table.getElement idx slot).key ≠ 0 then
    some (c.table.getElement idx slot)
  else none

/-- A positive bucket count, and every stored node in one of its two buckets. -/
structure WellPlaced (c : Cuckoo) : Prop where
  pos : 0 < c.buckets
  placed : Placed (home c.buckets) c.content

/-- Well placed, and no key stored twice. -/
structure WellFormed (c : Cuckoo) : Prop extends c.WellPlaced where
  unique : Unique Node.key c.content

end Cuckoo

theorem hash_lt {buckets : Nat} (h : 0 < buckets) (key : Word) (side : Side) :
    hash buckets key side < buckets := by
  cases side <;> exact Nat.mod_lt _ h

theorem entryWidth_pos : 0 < entryWidth := Nat.succ_pos 7

/-- What the search finds is a path of the table. -/
theorem Cuckoo.path_good {c : Cuckoo} {reads : Reads Word} {rand : Nat → Nat} {idx1 idx2 : Nat}
    {path : List Hop} (hpos : 0 < c.buckets) (h1 : idx1 < c.buckets) (h2 : idx2 < c.buckets)
    (h : findPath c.scheme reads rand idx1 idx2 = some path) :
    GoodPath c.scheme c.buckets idx1 idx2 path :=
  findPath_good entryWidth_pos (fun key side => hash_lt hpos key side) h1 h2 h

theorem mem_cells {buckets : Nat} {cell : Cell} :
    cell ∈ cells buckets ↔ cell.1 < buckets ∧ cell.2 < entryWidth := by
  simp [cells]

theorem home_mem_cells {buckets : Nat} (h : 0 < buckets) {element : Node} {cell : Cell}
    (hh : home buckets element cell) : cell ∈ cells buckets := by
  refine mem_cells.mpr ⟨?_, hh.2⟩
  rcases hh.1 with he | he <;> rw [he] <;> exact hash_lt h _ _

/-- `hash(key, 1)` or `hash(key, 2)`. -/
def Bucket (idx1 idx2 idx : Nat) : Prop := idx = idx1 ∨ idx = idx2

theorem Bucket.lt {buckets idx1 idx2 idx : Nat} (h : Bucket idx1 idx2 idx) (h1 : idx1 < buckets)
    (h2 : idx2 < buckets) : idx < buckets := by
  rcases h with rfl | rfl <;> assumption

namespace Table

theorem isOccupied_iff {element : Node} : isOccupied element = true ↔ element.key ≠ 0 := by
  simp [isOccupied]

theorem isOccupied_eq_false {element : Node} : isOccupied element = false ↔ element.key = 0 := by
  simp [isOccupied]

/-- Slots of the block do not overlap. -/
theorem getElement_setElement (t : Table) (element : Node) {idx slot i j : Nat}
    (hs : slot < entryWidth) (hj : j < entryWidth) :
    (t.setElement idx slot element).getElement i j =
      if i = idx ∧ j = slot then element else t.getElement i j := by
  have hflat : i * entryWidth + j = idx * entryWidth + slot ↔ i = idx ∧ j = slot := by
    simp only [entryWidth] at *
    omega
  simp only [getElement, setElement, Function.update_apply, hflat]

theorem find_iff {t : Table} {key : Word} {idx : Nat} :
    t.find key idx = true ↔ ∃ i < entryWidth, (t.getElement idx i).key = key := by
  simp [find]

theorem findSlot_some {t : Table} {key : Word} {idx slot : Nat}
    (h : t.findSlot key idx = some slot) :
    slot < entryWidth ∧ (t.getElement idx slot).key = key := by
  have hm := List.mem_of_find?_eq_some h
  have hp := List.find?_some h
  exact ⟨List.mem_range.mp hm, by simpa using hp⟩

theorem findSlot_none {t : Table} {key : Word} {idx : Nat} (h : t.findSlot key idx = none) :
    ∀ i < entryWidth, (t.getElement idx i).key ≠ key := by
  intro i hi
  have := List.find?_eq_none.mp h i (List.mem_range.mpr hi)
  simpa using this

theorem isAvailable_some {t : Table} {idx slot : Nat} (h : t.isAvailable idx = some slot) :
    slot < entryWidth ∧ (t.getElement idx slot).key = 0 := by
  have hm := List.mem_of_find?_eq_some h
  have hp := List.find?_some h
  exact ⟨List.mem_range.mp hm, by simpa [isOccupied] using hp⟩

theorem isAvailable_none {t : Table} {idx : Nat} (h : t.isAvailable idx = none) :
    ∀ i < entryWidth, (t.getElement idx i).key ≠ 0 := by
  intro i hi
  have := List.find?_eq_none.mp h i (List.mem_range.mpr hi)
  simpa [isOccupied] using this

end Table

namespace Cuckoo

variable {c : Cuckoo} {idx slot : Nat} {element : Node}

theorem content_eq_some : c.content (idx, slot) = some element ↔
    idx < c.buckets ∧ slot < entryWidth ∧ c.table.getElement idx slot = element ∧
      element.key ≠ 0 := by
  simp only [content, Option.ite_none_right_eq_some, Option.some.injEq]
  refine ⟨?_, ?_⟩
  · intro ⟨⟨hi, hs, hk⟩, he⟩
    exact ⟨hi, hs, he, he ▸ hk⟩
  · intro ⟨hi, hs, he, hk⟩
    exact ⟨⟨hi, hs, by rw [he]; exact hk⟩, he⟩

theorem content_eq_none (hi : idx < c.buckets) (hs : slot < entryWidth) :
    c.content (idx, slot) = none ↔ (c.table.getElement idx slot).key = 0 := by
  simp [content, hi, hs]

theorem content_mem_cells {cell : Cell} (h : c.content cell = some element) :
    cell ∈ cells c.buckets := by
  obtain ⟨idx, slot⟩ := cell
  obtain ⟨hi, hs, _⟩ := content_eq_some.mp h
  exact mem_cells.mpr ⟨hi, hs⟩

/-- Writing a node into a slot of the table writes one cell; a node without a key
empties it. -/
theorem content_setElement (element : Node) (hi : idx < c.buckets) (hs : slot < entryWidth) :
    (⟨c.buckets, c.table.setElement idx slot element⟩ : Cuckoo).content =
      Function.update c.content (idx, slot) (if element.key = 0 then none else some element) := by
  funext ⟨i, j⟩
  by_cases hj : j < entryWidth
  · by_cases h : i = idx ∧ j = slot
    · obtain ⟨rfl, rfl⟩ := h
      by_cases hk : element.key = 0 <;>
        simp [content, Table.getElement_setElement _ _ hs hj, hi, hs, hk]
    · have hne : (i, j) ≠ (idx, slot) := by simpa using h
      rw [Function.update_of_ne hne]
      simp only [content, Table.getElement_setElement _ _ hs hj, if_neg h]
  · have hne : (i, j) ≠ (idx, slot) := fun he => hj (by rw [(Prod.mk.inj he).2]; exact hs)
    rw [Function.update_of_ne hne]
    simp [content, hj]

theorem content_setKey (hi : idx < c.buckets) (hs : slot < entryWidth) :
    (⟨c.buckets, c.table.setKey idx slot 0⟩ : Cuckoo).content =
      Function.update c.content (idx, slot) none := by
  unfold Table.setKey
  rw [content_setElement _ hi hs]
  simp

theorem content_new (buckets : Nat) : (Cuckoo.new buckets).content = fun _ => none := by
  funext ⟨idx, slot⟩
  exact if_neg fun h => h.2.2 rfl

theorem WellFormed.new {buckets : Nat} (h : 0 < buckets) : (Cuckoo.new buckets).WellFormed := by
  refine ⟨⟨h, fun cell a ha => ?_⟩, fun cell _ a _ ha => ?_⟩ <;>
  · rw [content_new] at ha
    cases ha

end Cuckoo

end ConcurrentComputing.Store
