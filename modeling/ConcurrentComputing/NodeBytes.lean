import ConcurrentComputing.Store

/-! # Nodes as bytes

A `Node<int, int>` is eight bytes, key before value, each little-endian. The
client casts the bytes it has read to nodes, the server those of a message. -/

namespace ConcurrentComputing.Store

abbrev Byte := BitVec 8

/-- `sizeof(Node)`. -/
def sizeofNode : Nat := 8

def wordBytes (w : Word) : List Byte :=
  [BitVec.ofNat 8 w.toNat, BitVec.ofNat 8 (w.toNat / 2 ^ 8), BitVec.ofNat 8 (w.toNat / 2 ^ 16),
    BitVec.ofNat 8 (w.toNat / 2 ^ 24)]

def wordOf (b0 b1 b2 b3 : Byte) : Word :=
  BitVec.ofNat 32 (b0.toNat + b1.toNat * 2 ^ 8 + b2.toNat * 2 ^ 16 + b3.toNat * 2 ^ 24)

def Node.bytes (element : Node) : List Byte := wordBytes element.key ++ wordBytes element.val

/-- The cast of `length / sizeof(Node)` nodes; an incomplete last one is ignored. -/
def nodesOf : List Byte → List Node
  | b0 :: b1 :: b2 :: b3 :: b4 :: b5 :: b6 :: b7 :: rest =>
    ⟨wordOf b0 b1 b2 b3, wordOf b4 b5 b6 b7⟩ :: nodesOf rest
  | _ => []

/-- The bytes of the block of nodes, from its start. -/
def Table.rawData (t : Table) (p : Nat) : Byte :=
  (t.elements (p / sizeofNode)).bytes.getD (p % sizeofNode) 0

/-- A run of the block from the start of a node. -/
def Table.rawNodes (t : Table) (first count : Nat) : List Byte :=
  (List.range (count * sizeofNode)).map fun i => t.rawData (first * sizeofNode + i)

theorem wordOf_wordBytes (w : Word) :
    wordOf (BitVec.ofNat 8 w.toNat) (BitVec.ofNat 8 (w.toNat / 2 ^ 8))
      (BitVec.ofNat 8 (w.toNat / 2 ^ 16)) (BitVec.ofNat 8 (w.toNat / 2 ^ 24)) = w := by
  have hw := w.isLt
  apply BitVec.eq_of_toNat_eq
  simp only [wordOf, BitVec.toNat_ofNat]
  omega

@[simp] theorem Node.length_bytes (element : Node) : element.bytes.length = sizeofNode := rfl

theorem nodesOf_bytes_append (element : Node) (rest : List Byte) :
    nodesOf (element.bytes ++ rest) = element :: nodesOf rest := by
  simp only [Node.bytes, wordBytes, List.cons_append, List.nil_append, nodesOf, wordOf_wordBytes]

@[simp] theorem nodesOf_bytes (element : Node) : nodesOf element.bytes = [element] := by
  have h := nodesOf_bytes_append element []
  rwa [List.append_nil] at h

/-- Casting the bytes of nodes gives the nodes back. -/
theorem nodesOf_flatMap (elements : List Node) (rest : List Byte) :
    nodesOf (elements.flatMap Node.bytes ++ rest) = elements ++ nodesOf rest := by
  induction elements with
  | nil => rfl
  | cons element elements ih =>
    rw [List.flatMap_cons, List.append_assoc, nodesOf_bytes_append, ih]
    rfl

theorem nodesOf_length : ∀ bytes, (nodesOf bytes).length = bytes.length / sizeofNode
  | b0 :: b1 :: b2 :: b3 :: b4 :: b5 :: b6 :: b7 :: rest => by
    simp only [nodesOf, List.length_cons, nodesOf_length rest, sizeofNode]
    omega
  | [] | [_] | [_, _] | [_, _, _] | [_, _, _, _] | [_, _, _, _, _] | [_, _, _, _, _, _]
  | [_, _, _, _, _, _, _] => by simp [nodesOf, sizeofNode]

theorem Table.rawData_node (t : Table) (first : Nat) :
    (List.range sizeofNode).map (fun i => t.rawData (first * sizeofNode + i)) =
      (t.elements first).bytes := by
  apply List.ext_getElem
  · simp
  · intro i hi hi'
    rw [List.length_map, List.length_range] at hi
    have hdiv : (first * sizeofNode + i) / sizeofNode = first := by
      unfold sizeofNode at *
      omega
    have hmod : (first * sizeofNode + i) % sizeofNode = i := by
      unfold sizeofNode at *
      omega
    simp only [List.getElem_map, List.getElem_range, rawData, hdiv, hmod]
    rw [List.getD_eq_getElem?_getD, List.getElem?_eq_getElem hi', Option.getD_some]

theorem Table.rawNodes_eq (t : Table) (first count : Nat) :
    t.rawNodes first count =
      (List.range count).flatMap fun j => (t.elements (first + j)).bytes := by
  induction count with
  | zero => simp [rawNodes]
  | succ count ih =>
    have hstep : t.rawNodes first (count + 1) =
        t.rawNodes first count ++ (t.elements (first + count)).bytes := by
      rw [← t.rawData_node]
      simp only [rawNodes, Nat.succ_mul, List.range_add, List.map_append, List.map_map]
      congr 2
      funext i
      simp only [Function.comp_apply]
      rw [Nat.add_mul, Nat.add_assoc]
    rw [hstep, ih, List.range_succ, List.flatMap_append]
    simp

/-- What a cast of a run of the block sees. -/
theorem Table.nodesOf_rawNodes (t : Table) (first count : Nat) :
    nodesOf (t.rawNodes first count) = (List.range count).map fun j => t.elements (first + j) := by
  have h := nodesOf_flatMap ((List.range count).map fun j => t.elements (first + j)) []
  rw [List.append_nil, List.flatMap_map] at h
  rw [rawNodes_eq, h]
  simp [nodesOf]

end ConcurrentComputing.Store
