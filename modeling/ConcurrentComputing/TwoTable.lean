import ConcurrentComputing.CuckooPath
import ConcurrentComputing.Placement
import Mathlib.Data.Finset.Prod
import Mathlib.Algebra.BigOperators.Group.Finset.Sigma

/-! # The two-table cuckoo set

`CuckooHash/Cuckoo.hpp` at `T = int`. An `int` is its 32-bit word: `hash` divides
it by an `unsigned int`, which converts it to unsigned first. Every index is a
hash, so it is below the bucket count, and tables are functions of index and slot
that are only read below their bounds. -/

namespace ConcurrentComputing.TwoTable

open CuckooPath Placement

abbrev Val := BitVec 32

def width : Nat := 6
def maxSearchDepth : Nat := 7

/-- `Table<int>`; `EMPTY` is 0. -/
structure Table where
  elements : Nat → Nat → Val

namespace Table

def isOccupied (val : Val) : Bool := val != 0

/-- The constructor: every slot value-initialised. -/
def new : Table := ⟨fun _ _ => 0⟩

def find (t : Table) (val : Val) (idx : Nat) : Bool :=
  (List.range width).any fun i => t.elements idx i == val

def findSlot (t : Table) (val : Val) (idx : Nat) : Option Nat :=
  (List.range width).find? fun i => t.elements idx i == val

def isAvailable (t : Table) (idx : Nat) : Option Nat :=
  (List.range width).find? fun i => !isOccupied (t.elements idx i)

def set (t : Table) (idx slot : Nat) (val : Val) : Table :=
  ⟨fun i j => if i = idx ∧ j = slot then val else t.elements i j⟩

end Table

/-- `hash(val, function)` under a bucket count. -/
def hash (buckets : Nat) (val : Val) : Side → Nat
  | .one => val.toNat % buckets
  | .two => val.toNat / buckets % buckets

/-- `Result`; only a success carries a place. -/
inductive Result where
  | resize
  | retry
  | duplicate
  | success (table : Side) (index slot : Nat)
  deriving DecidableEq, Repr

structure Cuckoo where
  buckets : Nat
  table1 : Table
  table2 : Table

namespace Cuckoo

def new (buckets : Nat) : Cuckoo := ⟨buckets, .new, .new⟩

def view (c : Cuckoo) : View Val
  | .one, idx, slot => c.table1.elements idx slot
  | .two, idx, slot => c.table2.elements idx slot

def write (c : Cuckoo) : Side → Nat → Nat → Val → Cuckoo
  | .one, idx, slot, val => { c with table1 := c.table1.set idx slot val }
  | .two, idx, slot, val => { c with table2 := c.table2.set idx slot val }

def scheme (c : Cuckoo) : Scheme Val := ⟨width, maxSearchDepth, 0, hash c.buckets⟩

/-! ## The locked sections -/

/-- The first section of the private `insert`; `none` when both buckets are full
and the locks are dropped for the search. -/
def firstCheck (c : Cuckoo) (val : Val) (idx1 idx2 : Nat) : Option Result :=
  if c.table1.find val idx1 || c.table2.find val idx2 then some .duplicate
  else match c.table1.isAvailable idx1 with
    | some slot => some (.success .one idx1 slot)
    | none => match c.table2.isAvailable idx2 with
      | some slot => some (.success .two idx2 slot)
      | none => none

/-- The section for a path of depth 0. -/
def claim (c : Cuckoo) (hop : Hop) : Result :=
  if !Table.isOccupied (c.view hop.table hop.index hop.slot) then
    .success hop.table hop.index hop.slot
  else .retry

/-- One displacement: `path[depth - 1]` to `path[depth]`, `none` when one of the
three validations fails. -/
def displace (c : Cuckoo) (dst src : Hop) : Option Cuckoo :=
  let side := src.table.other
  let val := c.view src.table src.index src.slot
  if Table.isOccupied (c.view side dst.index dst.slot) || !Table.isOccupied val ||
      hash c.buckets val side != dst.index then none
  else some ((c.write side dst.index dst.slot val).write src.table src.index src.slot 0)

/-! ## Single-threaded calls -/

/-- The displacement loop run to its end. -/
def displaceAll : Cuckoo → List Hop → Result × Cuckoo
  | c, [] => (.retry, c)
  | c, [hop] => (.success hop.table hop.index hop.slot, c)
  | c, dst :: src :: path =>
    match c.displace dst src with
    | none => (.retry, c)
    | some c' => c'.displaceAll (src :: path)

/-- The private `insert(val, idx1, idx2)`. -/
def insertAt (c : Cuckoo) (val : Val) (idx1 idx2 : Nat) (rand : Nat → Nat) : Result × Cuckoo :=
  match c.firstCheck val idx1 idx2 with
  | some r => (r, c)
  | none =>
    match findPath c.scheme (.still c.view) rand idx1 idx2 with
    | none => (.resize, c)
    | some [hop] => (c.claim hop, c)
    | some path => c.displaceAll path

/-- The body of the copy loop of `resize` for one table. `isAvailable` may answer
-1, and the write then goes outside the bucket: the element is in no slot. -/
def copySlot (buckets : Nat) (side : Side) (t : Table) (val : Val) : Table :=
  if Table.isOccupied val then
    let idx := hash buckets val side
    match t.isAvailable idx with
    | some slot => t.set idx slot val
    | none => t
  else t

def copyLoop (c : Cuckoo) (buckets : Nat) (side : Side) : Table :=
  (List.range (buckets / 4)).foldl (fun t i =>
    (List.range width).foldl (fun t j => copySlot buckets side t (c.view side i j)) t) .new

/-- The bucket count after a resize, an `unsigned int`. -/
def doubled (buckets : Nat) : Nat := buckets * 2 % 2 ^ 32

/-- The two tables are filled in one loop, but neither side reads the other. -/
def resize (c : Cuckoo) : Cuckoo :=
  let buckets := doubled c.buckets
  ⟨buckets, c.copyLoop buckets .one, c.copyLoop buckets .two⟩

/-- The `while (true)` of the public `insert`, for at most the given number of
rounds; `rands n` are the start slots drawn by the search of round `n`. -/
def insertLoop (val : Val) (idx1 idx2 : Nat) (rands : Nat → Nat → Nat) :
    Nat → Nat → Cuckoo → Option (Bool × Cuckoo)
  | 0, _, _ => none
  | fuel + 1, n, c =>
    match c.insertAt val idx1 idx2 (rands n) with
    | (.duplicate, c') => some (false, c')
    | (.resize, c') => insertLoop val idx1 idx2 rands fuel (n + 1) c'.resize
    | (.retry, c') => insertLoop val idx1 idx2 rands fuel (n + 1) c'
    | (.success table index slot, c') => some (true, c'.write table index slot val)

/-- The public `insert`; `none` when it has not returned within `fuel` rounds. -/
def insert (c : Cuckoo) (val : Val) (rands : Nat → Nat → Nat) (fuel : Nat) :
    Option (Bool × Cuckoo) :=
  insertLoop val (hash c.buckets val .one) (hash c.buckets val .two) rands fuel 0 c

def remove (c : Cuckoo) (val : Val) : Bool × Cuckoo :=
  let idx1 := hash c.buckets val .one
  let idx2 := hash c.buckets val .two
  match c.table1.findSlot val idx1 with
  | some slot => (true, c.write .one idx1 slot 0)
  | none => match c.table2.findSlot val idx2 with
    | some slot => (true, c.write .two idx2 slot 0)
    | none => (false, c)

def contains (c : Cuckoo) (val : Val) : Bool :=
  c.table1.find val (hash c.buckets val .one) || c.table2.find val (hash c.buckets val .two)

def size (c : Cuckoo) : Nat :=
  (List.range c.buckets).foldl (fun size i => (List.range width).foldl (fun size j =>
    size + (Table.isOccupied (c.table1.elements i j)).toNat +
      (Table.isOccupied (c.table2.elements i j)).toNat) size) 0

end Cuckoo

/-- The public calls. -/
inductive Op where
  | insert (val : Val)
  | remove (val : Val)
  | contains (val : Val)
  deriving DecidableEq, Repr

def Op.val : Op → Val
  | .insert val | .remove val | .contains val => val

/-! ## The tables as a store of cells -/

/-- (table, index, slot). -/
abbrev Cell := Side × Nat × Nat

/-- The home of a value: any slot of table 1 at `hash(val, 1)` or of table 2 at
`hash(val, 2)`. -/
def home (buckets : Nat) (val : Val) (cell : Cell) : Prop :=
  cell.2.1 = hash buckets val cell.1 ∧ cell.2.2 < width

def cells (buckets : Nat) : Finset Cell :=
  {.one, .two} ×ˢ Finset.range buckets ×ˢ Finset.range width

namespace Cuckoo

def content (c : Cuckoo) : Cell → Option Val := fun (side, idx, slot) =>
  if idx < c.buckets ∧ slot < width ∧ c.view side idx slot ≠ 0 then some (c.view side idx slot)
  else none

/-- A table state as the class means it: a positive bucket count, every value at
its own hash index. -/
structure WellPlaced (c : Cuckoo) : Prop where
  pos : 0 < c.buckets
  placed : Placed (home c.buckets) c.content

end Cuckoo

theorem hash_lt {buckets : Nat} (h : 0 < buckets) (val : Val) (side : Side) :
    hash buckets val side < buckets := by
  cases side <;> exact Nat.mod_lt _ h

theorem width_pos : 0 < width := Nat.succ_pos 5

/-- What the search finds is a path of the table. -/
theorem Cuckoo.path_good {c : Cuckoo} {reads : Reads Val} {rand : Nat → Nat} {idx1 idx2 : Nat}
    {path : List Hop} (hpos : 0 < c.buckets) (h1 : idx1 < c.buckets) (h2 : idx2 < c.buckets)
    (h : findPath c.scheme reads rand idx1 idx2 = some path) :
    GoodPath c.scheme c.buckets idx1 idx2 path :=
  findPath_good width_pos (fun val side => hash_lt hpos val side) h1 h2 h

theorem mem_cells {buckets : Nat} {cell : Cell} :
    cell ∈ cells buckets ↔ cell.2.1 < buckets ∧ cell.2.2 < width := by
  obtain ⟨side, idx, slot⟩ := cell
  cases side <;> simp [cells]

theorem home_mem_cells {buckets : Nat} (h : 0 < buckets) {val : Val} {cell : Cell}
    (hh : home buckets val cell) : cell ∈ cells buckets := by
  refine mem_cells.mpr ⟨?_, hh.2⟩
  rw [hh.1]
  exact hash_lt h val cell.1

namespace Table

theorem isOccupied_iff {val : Val} : isOccupied val = true ↔ val ≠ 0 := by
  simp [isOccupied]

theorem isOccupied_eq_false {val : Val} : isOccupied val = false ↔ val = 0 := by
  simp [isOccupied]

theorem elements_set (t : Table) (idx slot : Nat) (val : Val) (i j : Nat) :
    (t.set idx slot val).elements i j = if i = idx ∧ j = slot then val else t.elements i j := rfl

theorem find_iff {t : Table} {val : Val} {idx : Nat} :
    t.find val idx = true ↔ ∃ i < width, t.elements idx i = val := by
  simp [find]

theorem findSlot_some {t : Table} {val : Val} {idx slot : Nat}
    (h : t.findSlot val idx = some slot) : slot < width ∧ t.elements idx slot = val := by
  have hm := List.mem_of_find?_eq_some h
  have hp := List.find?_some h
  exact ⟨List.mem_range.mp hm, by simpa using hp⟩

theorem findSlot_none {t : Table} {val : Val} {idx : Nat} (h : t.findSlot val idx = none) :
    ∀ i < width, t.elements idx i ≠ val := by
  intro i hi
  have := List.find?_eq_none.mp h i (List.mem_range.mpr hi)
  simpa using this

theorem isAvailable_some {t : Table} {idx slot : Nat} (h : t.isAvailable idx = some slot) :
    slot < width ∧ t.elements idx slot = 0 := by
  have hm := List.mem_of_find?_eq_some h
  have hp := List.find?_some h
  exact ⟨List.mem_range.mp hm, by simpa [isOccupied] using hp⟩

theorem isAvailable_none {t : Table} {idx : Nat} (h : t.isAvailable idx = none) :
    ∀ i < width, t.elements idx i ≠ 0 := by
  intro i hi
  have := List.find?_eq_none.mp h i (List.mem_range.mpr hi)
  simpa [isOccupied] using this

end Table

namespace Cuckoo

@[simp] theorem write_buckets (c : Cuckoo) (side : Side) (idx slot : Nat) (val : Val) :
    (c.write side idx slot val).buckets = c.buckets := by cases side <;> rfl

theorem view_write (c : Cuckoo) (side : Side) (idx slot : Nat) (val : Val) (s : Side)
    (i j : Nat) : (c.write side idx slot val).view s i j =
      if s = side ∧ i = idx ∧ j = slot then val else c.view s i j := by
  cases side <;> cases s <;> simp [write, view, Table.set]

theorem content_eq_some {c : Cuckoo} {side : Side} {idx slot : Nat} {val : Val} :
    c.content (side, idx, slot) = some val ↔
      idx < c.buckets ∧ slot < width ∧ c.view side idx slot = val ∧ val ≠ 0 := by
  simp only [content, Option.ite_none_right_eq_some, Option.some.injEq, ne_eq]
  constructor
  · rintro ⟨⟨hi, hs, hv⟩, rfl⟩; exact ⟨hi, hs, rfl, hv⟩
  · rintro ⟨hi, hs, rfl, hv⟩; exact ⟨⟨hi, hs, hv⟩, rfl⟩

theorem content_eq_none {c : Cuckoo} {side : Side} {idx slot : Nat} (hi : idx < c.buckets)
    (hs : slot < width) : c.content (side, idx, slot) = none ↔ c.view side idx slot = 0 := by
  simp [content, hi, hs]

theorem content_mem_cells {c : Cuckoo} {cell : Cell} {val : Val} (h : c.content cell = some val) :
    cell ∈ cells c.buckets := by
  obtain ⟨side, idx, slot⟩ := cell
  obtain ⟨hi, hs, _⟩ := content_eq_some.mp h
  exact mem_cells.mpr ⟨hi, hs⟩

/-- Writing a slot inside the tables writes one cell. -/
theorem content_write {c : Cuckoo} {side : Side} {idx slot : Nat} (val : Val)
    (hi : idx < c.buckets) (hs : slot < width) :
    (c.write side idx slot val).content =
      Function.update c.content (side, idx, slot) (if val = 0 then none else some val) := by
  funext ⟨s, i, j⟩
  by_cases h : s = side ∧ i = idx ∧ j = slot
  · obtain ⟨rfl, rfl, rfl⟩ := h
    by_cases hv : val = 0 <;> simp [content, view_write, hi, hs, hv]
  · have hne : (s, i, j) ≠ (side, idx, slot) := by simpa using h
    rw [Function.update_of_ne hne]
    simp only [content, write_buckets, view_write, if_neg h]

end Cuckoo

end ConcurrentComputing.TwoTable
