import Mathlib.Algebra.Group.Nat.Defs
import Mathlib.Data.List.Basic
import Mathlib.Tactic.Common

/-! # Lines from a socket

`Common/Connection.cpp`: a line is read byte by byte into a buffer, which has its
new memory zeroed but for what it grows by. -/

namespace ConcurrentComputing.Tcp

abbrev Byte := BitVec 8

def char (c : Char) : Byte := BitVec.ofNat 8 c.toNat

/-- `BUFFER_SIZE`. -/
def bufferSize : Nat := 8196

/-- `data` has `maxSize` bytes; those never written are `none`. -/
structure Buffer where
  data : List (Option Byte)
  currentSize : Nat
  maxSize : Nat
  length_data : data.length = maxSize

namespace Buffer

/-- `new char[size]()`. -/
def new (size : Nat) : Buffer := ⟨List.replicate size (some 0), 0, size, List.length_replicate⟩

/-- The size it grows to, an `unsigned int`. -/
def newMaxSize (b : Buffer) : Nat := (b.maxSize * 2 + 1) % 2 ^ 32

/-- The buffer doubles when it is full; `none` where the code would write outside of
it, the new size having wrapped around. -/
def add (b : Buffer) (ch : Byte) : Option Buffer :=
  if b.currentSize = b.maxSize then
    if h : b.currentSize < b.newMaxSize then
      some ⟨(b.data.take b.currentSize ++
          List.replicate (b.newMaxSize - (b.data.take b.currentSize).length) none).set
            b.currentSize (some ch), b.currentSize + 1, b.newMaxSize, by
        rw [List.length_set, List.length_append, List.length_replicate]
        have hle := List.length_take_le b.currentSize b.data
        omega⟩
    else none
  else some ⟨b.data.set b.currentSize (some ch), b.currentSize + 1, b.maxSize, by
    rw [List.length_set, b.length_data]⟩

theorem add_room (b : Buffer) (h : b.currentSize ≠ b.maxSize) (ch : Byte) :
    ∃ b', b.add ch = some b' ∧ b'.maxSize = b.maxSize := by
  rw [add, if_neg h]
  exact ⟨_, rfl, rfl⟩

theorem add_full (b : Buffer) (h : b.currentSize = b.maxSize) (hnew : b.currentSize < b.newMaxSize)
    (ch : Byte) : ∃ b', b.add ch = some b' ∧ b'.maxSize = b.newMaxSize := by
  rw [add, if_pos h, dif_pos hnew]
  exact ⟨_, rfl, rfl⟩

/-- The line is what the first bytes are. -/
structure Contains (b : Buffer) (line : List Byte) : Prop where
  size : b.currentSize = line.length
  data : ∃ rest, b.data = line.map some ++ rest

variable {b b' : Buffer} {line : List Byte} {ch : Byte}

theorem Contains.new (size : Nat) : (new size).Contains [] := ⟨rfl, _, rfl⟩

theorem Contains.length_le (h : b.Contains line) : line.length ≤ b.maxSize := by
  obtain ⟨_, rest, hdata⟩ := h
  rw [← b.length_data, hdata, List.length_append, List.length_map]
  exact Nat.le_add_right _ _

theorem Contains.unique {line' : List Byte} (h : b.Contains line) (h' : b.Contains line') :
    line = line' := by
  obtain ⟨hs, rest, hd⟩ := h
  obtain ⟨hs', rest', hd'⟩ := h'
  have hlen := hs.symm.trans hs'
  have hmap := (List.append_inj (hd.symm.trans hd') (by simp [hlen])).1
  exact List.map_injective_iff.mpr (fun _ _ => Option.some.inj) hmap

theorem Contains.add (h : b.Contains line) (ha : b.add ch = some b') : b'.Contains (line ++ [ch]) := by
  have hset : ∀ rest, 0 < rest.length →
      ∃ rest', (line.map some ++ rest).set b.currentSize (some ch) =
        (line ++ [ch]).map some ++ rest' := by
    intro rest hpos
    obtain ⟨x, rest, rfl⟩ := List.exists_cons_of_length_pos hpos
    refine ⟨rest, ?_⟩
    rw [h.size, List.set_append_right _ _ (by simp)]
    simp
  obtain ⟨hsize, rest, hdata⟩ := h
  have hlen := b.length_data
  rw [hdata, List.length_append, List.length_map] at hlen
  unfold Buffer.add at ha
  split at ha
  · split at ha
    · rename_i hfull hroom
      cases ha
      have htake : b.data.take b.currentSize = line.map some := by
        rw [hdata, hsize, List.take_left' (List.length_map _)]
      refine ⟨by simp [hsize], ?_⟩
      dsimp only
      rw [htake]
      refine hset _ ?_
      rw [List.length_replicate, List.length_map]
      omega
    · cases ha
  · rename_i hfree
    cases ha
    refine ⟨by simp [hsize], ?_⟩
    dsimp only
    rw [hdata]
    exact hset rest (by omega)

end Buffer

/-- What `read(socketid, &data, 1)` gives: a byte, an error of `EINTR` or of
another kind, or that the peer has closed. -/
inductive Read where
  | byte (data : Byte)
  | interrupted
  | failed
  | closed
  deriving DecidableEq

/-- The loop of `socket_get_line`, with the reads to come; it returns the message or
`NULL`, and the reads left. `none` while it waits. -/
def getLineLoop (message : Buffer) : List Read → Option (Option Buffer × List Read)
  | [] => none
  | .interrupted :: reads => getLineLoop message reads
  | .failed :: reads => some (none, reads)
  | .closed :: reads => some (if message.currentSize = 0 then none else some message, reads)
  | .byte data :: reads =>
    match message.add data with
    | none => none
    | some message =>
      if data = char '\n' then some (some message, reads) else getLineLoop message reads

def socketGetLine (reads : List Read) : Option (Option Buffer × List Read) :=
  getLineLoop (.new bufferSize) reads

/-- A line: not empty, and with no newline but at its end. -/
structure IsLine (line : List Byte) : Prop where
  ne_nil : line ≠ []
  newline : char '\n' ∉ line.dropLast

/-- A message that is returned holds a line. -/
theorem getLineLoop_line {message m : Buffer} {line : List Byte} {reads rest : List Read}
    (h : message.Contains line) (hn : char '\n' ∉ line)
    (hg : getLineLoop message reads = some (some m, rest)) :
    ∃ line', m.Contains line' ∧ IsLine line' := by
  induction reads generalizing message line with
  | nil => cases hg
  | cons r reads ih =>
    cases r with
    | interrupted => exact ih h hn hg
    | failed => cases hg
    | closed =>
      simp only [getLineLoop, Option.some.injEq, Prod.mk.injEq] at hg
      obtain ⟨hm, _⟩ := hg
      split at hm
      · cases hm
      · rename_i hpos
        cases hm
        refine ⟨line, h, ?_, fun hmem => hn (List.dropLast_subset line hmem)⟩
        rintro rfl
        exact hpos h.size
    | byte data =>
      simp only [getLineLoop] at hg
      split at hg
      · cases hg
      · rename_i message' hadd
        have h' := h.add hadd
        split at hg
        · cases hg
          exact ⟨_, h', by simp, by simpa using hn⟩
        · rename_i hne
          refine ih h' (fun hmem => ?_) hg
          rcases List.mem_append.mp hmem with hmem | hmem
          · exact hn hmem
          · exact hne (List.mem_singleton.mp hmem).symm

theorem socketGetLine_line {m : Buffer} {reads rest : List Read}
    (h : socketGetLine reads = some (some m, rest)) : ∃ line, m.Contains line ∧ IsLine line :=
  getLineLoop_line (.new _) (by simp) h

/-- A line that fits into the buffer is read, and no more. -/
theorem getLineLoop_read {message : Buffer} {line line' : List Byte} {reads : List Read}
    (h : message.Contains line) (hn : char '\n' ∉ line')
    (hfit : line.length + line'.length < message.maxSize) :
    ∃ m, m.Contains (line ++ line' ++ [char '\n']) ∧ getLineLoop message
      ((line' ++ [char '\n']).map .byte ++ reads) = some (some m, reads) := by
  induction line' generalizing message line with
  | nil =>
    obtain ⟨m, hm, _⟩ := message.add_room (h.size ▸ Nat.ne_of_lt (by simpa using hfit)) (char '\n')
    refine ⟨m, ?_, ?_⟩
    · rw [List.append_nil]
      exact h.add hm
    · simp [getLineLoop, hm]
  | cons c line' ih =>
    rw [List.mem_cons, not_or] at hn
    rw [List.length_cons] at hfit
    obtain ⟨m, hm, hmax⟩ := message.add_room (h.size ▸ Nat.ne_of_lt (by omega)) c
    obtain ⟨m', hc, hg⟩ := ih (h.add hm) hn.2 (by
      rw [hmax, List.length_append, List.length_singleton]
      omega)
    refine ⟨m', by simpa using hc, ?_⟩
    simp only [List.cons_append, List.map_cons, getLineLoop, hm, if_neg (Ne.symm hn.1)]
    exact hg

theorem socketGetLine_read (line : List Byte) (reads : List Read) (hn : char '\n' ∉ line)
    (hfit : line.length < bufferSize) : ∃ m, m.Contains (line ++ [char '\n']) ∧
      socketGetLine ((line ++ [char '\n']).map .byte ++ reads) = some (some m, reads) :=
  getLineLoop_read (Buffer.Contains.new bufferSize) hn ((Nat.zero_add _).symm ▸ hfit)

end ConcurrentComputing.Tcp
