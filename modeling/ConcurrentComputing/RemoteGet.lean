import ConcurrentComputing.NodeBytes
import ConcurrentComputing.StoreMap

/-! # The client's one-sided lookup

`Remote::get` reads the server's block of nodes without the server's help: it
computes the two buckets of a key by hash functions of its own and casts the bytes
there to nodes. It agrees with `contains` exactly for the keys whose two buckets,
as the server computes them, are among those it reads. -/

namespace ConcurrentComputing.Remote

open CuckooPath Placement Runs Store

/-- `SIZE`. -/
def size : Nat := 1000000 / entryWidth

/-- The client's `secondary_hash(unsigned int a)`: the shifts to the right are
logical. -/
def secondaryHash (a : Word) : Word :=
  let a := (a + 0x7ed55d16#32) + (a <<< 12)
  let a := (a ^^^ 0xc761c23c#32) ^^^ (a >>> 19)
  let a := (a + 0x165667b1#32) + (a <<< 5)
  let a := (a + 0xd3a2646c#32) ^^^ (a <<< 9)
  let a := (a + 0xfd7046c5#32) + (a <<< 3)
  (a ^^^ 0xb55a4f09#32) ^^^ (a >>> 16)

/-- `Remote::hash(key, func)`: `SIZE` is an `int`, so the primary remainder is a
signed one and takes the sign of the key. -/
def hash (key : Word) : Side → Word
  | .one => key.srem (BitVec.ofNat 32 size)
  | .two => secondaryHash key % BitVec.ofNat 32 size

/-- `findElement` over the `ENTRY_WIDTH` nodes of the read buffer. -/
def findElement (elements : List Node) (key : Word) : Result :=
  if elements.any fun element => element.key == key then .true else .false

/-! ## Remote memory -/

/-- A registered region: its bytes and how many there are. -/
structure Region where
  data : Nat → Byte
  length : Nat

/-- The server registers `getRawData()` for `getStorageSize()` bytes. -/
def Region.of (c : Cuckoo) : Region where
  data := c.table.rawData
  length := (c.buckets * entryWidth + c.buckets) * sizeofNode

/-- What the device returns for a read, `none` when it would leave the region. -/
def Region.read (r : Region) (offset : Int) (length : Nat) : Option (List Byte) :=
  if 0 ≤ offset ∧ offset + length ≤ r.length then
    some ((List.range length).map fun i => r.data (offset.toNat + i))
  else none

/-- `qp->read` of one bucket and the wait for it: whether the queue pair still
works, and the local buffer. A failed read leaves the buffer as it was, and
nothing looks at its status; `recovers` says whether the queue pair serves
requests after one. -/
def read (recovers : Bool) (r : Region) (index : Int) (qp : Bool × List Byte) :
    Bool × List Byte :=
  if qp.1 then
    match r.read (index * entryWidth * sizeofNode) (entryWidth * sizeofNode) with
    | some bytes => (true, bytes)
    | none => (recovers, qp.2)
  else qp

/-- `Remote::get(key)` against the region of the replica it picks. The indices are
`int`s, and `Buffer` is allocated filled with zeros. -/
def get (recovers : Bool) (r : Region) (key : Word) : Result :=
  let qp := read recovers r (hash key .one).toInt
    (true, List.replicate (entryWidth * sizeofNode) 0)
  match findElement (nodesOf qp.2) key with
  | .false => findElement (nodesOf (read recovers r (hash key .two).toInt qp).2) key
  | found => found

/-! ## The buckets it reads -/

/-- The buckets whose nodes reach the client. -/
def readBuckets (recovers : Bool) (key : Word) : List Nat :=
  if 0 ≤ (hash key .one).toInt then [(hash key .one).toNat, (hash key .two).toNat]
  else if recovers then [(hash key .two).toNat] else []

/-- Wherever the server may keep the key, the client reads. -/
def Covers (recovers : Bool) (key : Word) : Prop :=
  ∀ side, Store.hash size key side ∈ readBuckets recovers key

instance (recovers : Bool) (key : Word) : Decidable (Covers recovers key) := by
  unfold Covers
  infer_instance

theorem toInt_of_lt {w : Word} (h : w.toNat < size) : w.toInt = w.toNat := by
  have : size = 125000 := rfl
  exact BitVec.toInt_eq_toNat_of_lt (by omega)

theorem hash_one_lt {key : Word} (h : 0 ≤ (hash key .one).toInt) :
    (hash key .one).toNat < size := by
  have hlt : (hash key .one).toInt < 125000 := by
    have hsize : (BitVec.ofNat 32 size).toInt = 125000 := by decide
    rw [hash, BitVec.toInt_srem, hsize]
    exact Int.tmod_lt_of_pos _ (by decide)
  have hs : size = 125000 := rfl
  rw [BitVec.toInt_eq_toNat_cond] at h hlt
  split at h <;> omega

theorem hash_two_lt (key : Word) : (hash key .two).toNat < size := by
  rw [hash, BitVec.toNat_umod]
  exact Nat.mod_lt _ (by decide)

theorem readBuckets_lt {recovers : Bool} {key : Word} :
    ∀ idx ∈ readBuckets recovers key, idx < size := by
  have h2 := hash_two_lt key
  unfold readBuckets
  split
  · rename_i h
    simpa using ⟨hash_one_lt h, h2⟩
  · cases recovers <;> simp [h2]

theorem findElement_iff {elements : List Node} {key : Word} :
    findElement elements key = .true ↔ ∃ a ∈ elements, a.key = key := by
  unfold findElement
  split <;> simp_all

theorem findElement_false {elements : List Node} {key : Word} :
    findElement elements key = .false ↔ findElement elements key ≠ .true := by
  unfold findElement
  split <;> simp

variable {c : Cuckoo} {recovers : Bool} {key : Word}

/-- Reading a bucket of the table brings its nodes. -/
theorem read_bucket (recovers : Bool) (hb : c.buckets = size) {w : Word} (hw : w.toNat < size)
    {qp : Bool × List Byte} (hqp : qp.1 = true) : 
    (read recovers (.of c) w.toInt qp).1 = true ∧
      nodesOf (read recovers (.of c) w.toInt qp).2 =
        (List.range entryWidth).map fun i => c.table.getElement w.toNat i := by
  have hoff : w.toInt * entryWidth * sizeofNode = ((w.toNat * entryWidth * sizeofNode : Nat) : Int) := by
    rw [toInt_of_lt hw]
    push_cast
    rfl
  have hin : 0 ≤ w.toInt * entryWidth * sizeofNode ∧
      w.toInt * entryWidth * sizeofNode + (entryWidth * sizeofNode : Nat) ≤ (Region.of c).length := by
    rw [hoff]
    simp only [Region.of, hb, entryWidth, sizeofNode]
    simp only [size, entryWidth] at hw ⊢
    omega
  have hread : (Region.of c).read (w.toInt * entryWidth * sizeofNode) (entryWidth * sizeofNode) =
      some (c.table.rawNodes (w.toNat * entryWidth) entryWidth) := by
    rw [Region.read, if_pos hin, hoff, Int.toNat_natCast]
    rfl
  unfold read
  rw [if_pos hqp, hread]
  exact ⟨rfl, c.table.nodesOf_rawNodes _ _⟩

/-- Reading below the region brings nothing. -/
theorem read_outside {index : Int} (h : index < 0) (bytes : List Byte) :
    read recovers (.of c) index (true, bytes) = (recovers, bytes) := by
  have hn : (Region.of c).read (index * entryWidth * sizeofNode) (entryWidth * sizeofNode) =
      none := by
    apply if_neg
    simp only [entryWidth, sizeofNode]
    omega
  unfold read
  rw [if_pos rfl, hn]

theorem find_bucket_iff (c : Cuckoo) (key : Word) (idx : Nat) :
    findElement ((List.range entryWidth).map fun i => c.table.getElement idx i) key = .true ↔
      ∃ i < entryWidth, (c.table.getElement idx i).key = key := by
  simp [findElement_iff]

theorem find_zeros (hk : key ≠ 0) :
    findElement (nodesOf (List.replicate (entryWidth * sizeofNode) 0)) key = .false := by
  have h0 : nodesOf (List.replicate (entryWidth * sizeofNode) 0) =
      List.replicate entryWidth ⟨0, 0⟩ := by decide
  rw [findElement_false, ne_eq, findElement_iff, h0]
  intro ⟨a, ha, he⟩
  rw [List.eq_of_mem_replicate ha] at he
  exact hk he.symm

/-- `get` finds the key exactly when a bucket it reads has it. -/
theorem get_iff (hb : c.buckets = size) (hk : key ≠ 0) :
    get recovers (.of c) key = .true ↔
      ∃ idx ∈ readBuckets recovers key, ∃ i < entryWidth, (c.table.getElement idx i).key = key := by
  have h2 := hash_two_lt key
  unfold get readBuckets
  dsimp only
  by_cases h : 0 ≤ (hash key .one).toInt
  · obtain ⟨hqp, hn⟩ := read_bucket recovers hb (hash_one_lt h)
      (show (true, List.replicate (entryWidth * sizeofNode) (0 : Byte)).1 = true from rfl)
    obtain ⟨_, hn2⟩ := read_bucket recovers hb h2 hqp
    rw [if_pos h, hn, hn2]
    have h1 := find_bucket_iff c key (hash key .one).toNat
    have h2 := find_bucket_iff c key (hash key .two).toNat
    simp only [List.mem_cons, List.not_mem_nil, or_false, exists_eq_or_imp, exists_eq_left]
    rw [← h1, ← h2]
    split
    · rename_i hf
      simp [hf]
    · rename_i hne
      have ht := not_not.mp fun hn => hne (findElement_false.mpr hn)
      simp [ht]
  · rw [read_outside (by omega), if_neg h, find_zeros hk]
    dsimp only
    cases hr : recovers with
    | true =>
      obtain ⟨_, hn2⟩ := read_bucket true hb h2
        (show (true, List.replicate (entryWidth * sizeofNode) (0 : Byte)).1 = true from rfl)
      rw [hn2, find_bucket_iff]
      simp
    | false =>
      have hidle : read false (.of c) (hash key .two).toInt
          (false, List.replicate (entryWidth * sizeofNode) 0) =
            (false, List.replicate (entryWidth * sizeofNode) 0) := rfl
      rw [hidle, find_zeros hk]
      simp

end ConcurrentComputing.Remote
