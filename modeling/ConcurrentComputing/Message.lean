import ConcurrentComputing.Connection
import ConcurrentComputing.Decimal
import Mathlib.Data.BitVec

/-! # The lines of the TCP store

`sendMessage` of `App/Remote.cpp`, and `getTwoNumbers`, `deserialize` and `verify`
of `Common/Message.cpp`. The decoder's arithmetic is that of 32 bits, a sum that is too large
wrapping around; what it reads beyond the line is memory of the buffer. -/

namespace ConcurrentComputing.Tcp

open Decimal

abbrev Word := BitVec 32

inductive MessageType where
  | get
  | put
  | invalid
  deriving DecidableEq, Repr

structure Message where
  protocol : MessageType
  data : Word × Word
  deriving DecidableEq

def bytes (s : List Char) : List Byte := s.map char

def digitByte (d : Nat) : Byte := BitVec.ofNat 8 (48 + d)

/-- `%d`. -/
def printInt (w : Word) : List Byte :=
  (if w.toInt < 0 then [char '-'] else []) ++ (decimal w.toInt.natAbs).map digitByte

/-- The line of `Remote::sendMessage`. -/
def sendMessage (message : Message) : List Byte :=
  bytes (if message.protocol = .get then ['G', 'E', 'T'] else ['P', 'U', 'T']) ++ [char ' '] ++
    printInt message.data.1 ++ [char ','] ++ printInt message.data.2 ++ [char '\n']

/-! ## Decoding -/

/-- `'0' <= c && c <= '9'`, a `char` being signed. -/
def isDigit (c : Byte) : Bool := decide (48 ≤ c.toInt) && decide (c.toInt ≤ 57)

/-- `val * 10 + data[i] - '0'`, in 32 bits. -/
def nextVal (val : Word) (c : Byte) : Word := val * 10 + c.signExtend 32 - 48

def intMax : Nat := 2 ^ 31 - 1

/-- The first loop of `getTwoNumbers`, from `data[i]` on: the number, `i` after it and
what lies there. `none` where it would read what is not the buffer's or was never
written, or `i` would not be an `int`. -/
def firstLoop (val : Word) (i : Nat) : List (Option Byte) → Option (Word × Nat × List (Option Byte))
  | some c :: rest =>
    if intMax < i then none
    else if isDigit c then firstLoop (nextVal val c) (i + 1) rest
    else some (val, i, some c :: rest)
  | _ => none

/-- The second loop. -/
def secondLoop (val : Word) (i : Nat) : List (Option Byte) → Option Word
  | some c :: rest =>
    if intMax < i then none
    else if c = 0 then some val
    else secondLoop (nextVal val c) (i + 1) rest
  | _ => none

def getTwoNumbers (data : List (Option Byte)) : Option (Word × Word) := do
  let (val_1, i, rest) ← firstLoop 0 0 data
  let val_2 ← secondLoop 0 (i + 1) rest.tail
  return (val_1, val_2)

/-- `strcmp(data, s) == 0`. -/
def equals (data : List (Option Byte)) (s : List Byte) : Bool :=
  data.take (s.length + 1) = s.map some ++ [some 0]

def deserialize (protocol : Buffer) : Option Message :=
  let data := (protocol.data.set (protocol.currentSize - 1) (some 0)).set 3 (some 0)
  (getTwoNumbers (data.drop 4)).map fun numbers =>
    ⟨if equals data (bytes ['G', 'E', 'T']) then .get else .put, numbers⟩

def verify : Option Buffer → Bool
  | none => false
  | some protocol => decide (8 ≤ protocol.currentSize) && decide (protocol.data[3]? = some (some (char ' ')))

/-! ## What the loops read -/

variable {ds : List Nat} {rest : List (Option Byte)}

theorem digitByte_spec {d : Nat} (hd : d < 10) : isDigit (digitByte d) = true ∧
    digitByte d ≠ 0 ∧ (digitByte d).signExtend 32 = BitVec.ofNat 32 (48 + d) ∧
      digitByte d ≠ char '\n' ∧ digitByte d ≠ char ',' := by
  have h : ∀ d < 10, isDigit (digitByte d) = true ∧ digitByte d ≠ 0 ∧
      (digitByte d).signExtend 32 = BitVec.ofNat 32 (48 + d) ∧ digitByte d ≠ char '\n' ∧
        digitByte d ≠ char ',' := by decide
  exact h d hd

theorem nextVal_digit (val : Word) {d : Nat} (hd : d < 10) :
    nextVal val (digitByte d) = val * 10 + (d : Word) := by
  rw [nextVal, (digitByte_spec hd).2.2.1]
  have hsum : (BitVec.ofNat 32 (48 + d) : Word) = 48 + (d : Word) := by
    simp [BitVec.ofNat_add]
  rw [hsum]
  ring

/-- The digits read from a value on. -/
theorem foldl_nextVal (val : Word) (hds : ∀ d ∈ ds, d < 10) :
    (ds.map digitByte).foldl nextVal val = value val ds := by
  induction ds generalizing val with
  | nil => rfl
  | cons d ds ih =>
    rw [List.map_cons, List.foldl_cons, nextVal_digit val (hds d List.mem_cons_self), value_cons]
    exact ih _ fun e he => hds e (List.mem_cons_of_mem _ he)

theorem firstLoop_bytes (val : Word) (i : Nat) {bs : List Byte} {c : Byte}
    (hbs : ∀ b ∈ bs, isDigit b = true) (hc : isDigit c = false) :
    firstLoop val i (bs.map some ++ some c :: rest) =
      if intMax < i + bs.length then none
      else some (bs.foldl nextVal val, i + bs.length, some c :: rest) := by
  induction bs generalizing val i with
  | nil => simp [firstLoop, hc]
  | cons b bs ih =>
    rw [List.map_cons, List.cons_append, firstLoop, hbs b List.mem_cons_self,
      ih _ _ fun d hd => hbs d (List.mem_cons_of_mem _ hd), List.length_cons, List.foldl_cons,
      Nat.add_right_comm, Nat.add_assoc]
    by_cases hi : intMax < i
    · rw [if_pos hi, if_pos (by omega)]
    · rw [if_neg hi, if_pos rfl]

theorem secondLoop_bytes (val : Word) (i : Nat) {bs : List Byte} (hbs : 0 ∉ bs) :
    secondLoop val i (bs.map some ++ some 0 :: rest) =
      if intMax < i + bs.length then none else some (bs.foldl nextVal val) := by
  induction bs generalizing val i with
  | nil => simp [secondLoop]
  | cons b bs ih =>
    rw [List.mem_cons, not_or] at hbs
    rw [List.map_cons, List.cons_append, secondLoop, if_neg (Ne.symm hbs.1), ih _ _ hbs.2,
      List.length_cons, List.foldl_cons, Nat.add_right_comm, Nat.add_assoc]
    by_cases hi : intMax < i
    · rw [if_pos hi, if_pos (by omega)]
    · rw [if_neg hi]

/-- Digits, a separator and what comes after it up to the null character. -/
theorem getTwoNumbers_bytes (rest : List (Option Byte)) {as bs : List Byte} {c : Byte}
    (has : ∀ a ∈ as, isDigit a = true) (hc : isDigit c = false) (hbs : 0 ∉ bs) :
    getTwoNumbers ((as ++ c :: bs).map some ++ some 0 :: rest) =
      if intMax < as.length + 1 + bs.length then none
      else some (as.foldl nextVal 0, bs.foldl nextVal 0) := by
  have hfirst := @firstLoop_bytes (bs.map some ++ some 0 :: rest) 0 0 _ _ has hc
  rw [Nat.zero_add] at hfirst
  rw [List.map_append, List.map_cons, List.append_assoc, List.cons_append, getTwoNumbers, hfirst]
  by_cases hi : intMax < as.length
  · rw [if_pos hi, if_pos (by omega)]
    rfl
  · rw [if_neg hi]
    simp only [Option.bind_eq_bind, Option.bind_some, List.tail_cons, secondLoop_bytes _ _ hbs]
    split <;> rfl

theorem getTwoNumbers_digits (rest : List (Option Byte)) {c : Byte} {bs : List Byte}
    (hds : ∀ d ∈ ds, d < 10) (hc : isDigit c = false) (hbs : 0 ∉ bs) :
    getTwoNumbers ((ds.map digitByte ++ c :: bs).map some ++ some 0 :: rest) =
      if intMax < ds.length + 1 + bs.length then none
      else some (value 0 ds, bs.foldl nextVal 0) := by
  have hdigits : ∀ b ∈ ds.map digitByte, isDigit b = true := by
    intro b hb
    obtain ⟨d, hd, rfl⟩ := List.mem_map.mp hb
    exact (digitByte_spec (hds d hd)).1
  rw [getTwoNumbers_bytes rest hdigits hc hbs, foldl_nextVal 0 hds, List.length_map]

variable {m : Buffer} {line w body : List Byte} {sp last : Byte}

theorem verify_iff {l : List Byte} (h : m.Contains l) :
    verify (some m) = true ↔ 8 ≤ l.length ∧ l[3]? = some (char ' ') := by
  obtain ⟨hsize, rest, hdata⟩ := h
  rw [verify, Bool.and_eq_true, decide_eq_true_iff, decide_eq_true_iff, hsize]
  refine and_congr_right fun hlen => ?_
  rw [hdata, List.getElem?_append_left (by rw [List.length_map]; omega), List.getElem?_map]
  simp

/-- The newline and the space become null characters. -/
theorem set_null (hsize : m.currentSize = (w ++ sp :: body ++ [last]).length)
    (hdata : m.data = (w ++ sp :: body ++ [last]).map some ++ rest) (hw : w.length = 3) :
    (m.data.set (m.currentSize - 1) (some 0)).set 3 (some 0) =
      w.map some ++ some 0 :: (body.map some ++ some 0 :: rest) := by
  have hlast : m.currentSize - 1 = ((w ++ sp :: body).map some).length := by
    rw [hsize, List.length_append, List.length_map, List.length_singleton, Nat.add_sub_cancel]
  rw [hdata, List.map_append, List.append_assoc, hlast, List.set_append_right _ _ le_rfl,
    Nat.sub_self, List.map_append, List.append_assoc, List.set_append_right _ _ (by simp [hw])]
  simp [hw]

theorem drop_verb (hw : w.length = 3) (rest : List (Option Byte)) :
    (w.map some ++ some 0 :: rest).drop 4 = rest := by
  rw [List.drop_append, List.drop_of_length_le (by simp [hw])]
  simp [hw]

theorem deserialize_data (hsize : m.currentSize = (w ++ sp :: body ++ [last]).length)
    (hdata : m.data = (w ++ sp :: body ++ [last]).map some ++ rest) (hw : w.length = 3) :
    deserialize m = (getTwoNumbers (body.map some ++ some 0 :: rest)).map fun numbers =>
      ⟨if w = bytes ['G', 'E', 'T'] then .get else .put, numbers⟩ := by
  have hequals : equals (w.map some ++ some 0 :: (body.map some ++ some 0 :: rest))
      (bytes ['G', 'E', 'T']) = decide (w = bytes ['G', 'E', 'T']) := by
    have htake : (w.map some ++ some 0 :: (body.map some ++ some 0 :: rest)).take 4 =
        w.map some ++ [some 0] := by
      rw [List.take_append, List.take_of_length_le (by simp [hw])]
      simp [hw]
    rw [equals, show (bytes ['G', 'E', 'T']).length + 1 = 4 from rfl, htake, decide_eq_decide,
      List.append_cancel_right_eq]
    exact ⟨fun he => List.map_injective_iff.mpr (fun _ _ => Option.some.inj) he, congrArg _⟩
  simp only [deserialize, set_null hsize hdata hw, drop_verb hw, hequals, decide_eq_true_eq]

theorem deserialize_eq (h : m.Contains (w ++ sp :: body ++ [last])) (hw : w.length = 3) :
    ∃ rest, deserialize m = (getTwoNumbers (body.map some ++ some 0 :: rest)).map fun numbers =>
      ⟨if w = bytes ['G', 'E', 'T'] then .get else .put, numbers⟩ := by
  obtain ⟨hsize, rest, hdata⟩ := h
  exact ⟨rest, deserialize_data hsize hdata hw⟩

end ConcurrentComputing.Tcp
