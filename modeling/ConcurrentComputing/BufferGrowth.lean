import ConcurrentComputing.Connection
import Mathlib.Data.List.Induction
import Mathlib.Algebra.Order.Group.Nat

/-! # How long a line may get

A buffer grows to twice its size and one more, which passes through an `unsigned int`. -/

namespace ConcurrentComputing.Tcp

/-- `add` for one byte after the other, from a new buffer. -/
def fill (bytes : List Byte) : Option Buffer := bytes.foldlM Buffer.add (.new bufferSize)

/-- The size after 18 doublings, the last that an `unsigned int` can hold. -/
def lastSize : Nat := 8197 * 2 ^ 18 - 1

/-- The sizes it may have. -/
def Buffer.Doubled (b : Buffer) : Prop := ∃ n ≤ 18, b.maxSize + 1 = 8197 * 2 ^ n

variable {b : Buffer} {line bytes : List Byte}

theorem doubled_new : (Buffer.new bufferSize).Doubled := ⟨0, by decide, by decide⟩

theorem Buffer.Doubled.le (h : b.Doubled) : b.maxSize ≤ lastSize := by
  obtain ⟨n, hn, hsize⟩ := h
  have hpow := Nat.pow_le_pow_right Nat.two_pos hn
  unfold lastSize
  omega

theorem Buffer.Doubled.newMaxSize (h : b.Doubled) (hlt : b.maxSize < lastSize) :
    b.newMaxSize = b.maxSize * 2 + 1 ∧ ∃ n ≤ 18, b.newMaxSize + 1 = 8197 * 2 ^ n := by
  obtain ⟨n, hn, hsize⟩ := h
  have hne : n ≠ 18 := by
    rintro rfl
    unfold lastSize at hlt
    omega
  have hpow := Nat.pow_le_pow_right Nat.two_pos (show n + 1 ≤ 18 by omega)
  have hsucc : 2 ^ (n + 1) = 2 * 2 ^ n := by rw [Nat.pow_succ, Nat.mul_comm]
  have hsmall : b.maxSize * 2 + 1 < 2 ^ 32 := by omega
  rw [Buffer.newMaxSize, Nat.mod_eq_of_lt hsmall]
  exact ⟨rfl, n + 1, by omega, by omega⟩

/-- As long as the line is not longer than that, there is room for one more byte. -/
theorem Buffer.Doubled.add (h : b.Doubled) (hc : b.Contains line) (hlt : line.length < lastSize)
    (ch : Byte) : ∃ b', b.add ch = some b' ∧ b'.Doubled ∧ b'.Contains (line ++ [ch]) := by
  have hadd : ∃ b', b.add ch = some b' ∧ b'.Doubled := by
    by_cases hfull : b.currentSize = b.maxSize
    · have hmax : b.maxSize < lastSize := by
        rw [← hfull, hc.size]
        exact hlt
      obtain ⟨hnew, hdoubled⟩ := h.newMaxSize hmax
      have hroom : b.currentSize < b.newMaxSize := by
        rw [hfull, hnew]
        exact Nat.lt_succ_of_le (Nat.le_mul_of_pos_right _ Nat.two_pos)
      obtain ⟨b', hb', hsize⟩ := b.add_full hfull hroom ch
      exact ⟨b', hb', by rwa [Buffer.Doubled, hsize]⟩
    · obtain ⟨b', hb', hsize⟩ := b.add_room hfull ch
      exact ⟨b', hb', by rwa [Buffer.Doubled, hsize]⟩
  obtain ⟨b', hb', hdoubled⟩ := hadd
  exact ⟨b', hb', hdoubled, hc.add hb'⟩

/-- Where the last size is full the next copy does not fit. -/
theorem Buffer.Doubled.full (h : b.Doubled) (hc : b.Contains line) (hlen : line.length = lastSize) :
    b.currentSize = b.maxSize ∧ b.newMaxSize < b.currentSize := by
  have hle := hc.length_le
  have hge := h.le
  have hmax : b.maxSize = lastSize := by omega
  rw [hc.size, Buffer.newMaxSize, hmax, hlen]
  exact ⟨rfl, by decide⟩

theorem fill_append (xs ys : List Byte) : fill (xs ++ ys) = (fill xs).bind (ys.foldlM Buffer.add) :=
  List.foldlM_append

theorem fill_concat (xs : List Byte) (ch : Byte) :
    fill (xs ++ [ch]) = (fill xs).bind fun b => b.add ch := by
  rw [fill_append]
  simp

theorem fill_short (h : bytes.length ≤ lastSize) :
    ∃ b, fill bytes = some b ∧ b.Doubled ∧ b.Contains bytes := by
  induction bytes using List.reverseRecOn with
  | nil => exact ⟨_, rfl, doubled_new, .new _⟩
  | append_singleton bytes ch ih =>
    rw [List.length_append, List.length_singleton] at h
    obtain ⟨b, hb, hdoubled, hc⟩ := ih (by omega)
    obtain ⟨b', hb', hdoubled', hc'⟩ := hdoubled.add hc (by omega) ch
    exact ⟨b', by rw [fill_concat, hb, Option.bind_some, hb'], hdoubled', hc'⟩

theorem fill_long (h : bytes.length = lastSize + 1) : ∃ b, fill bytes.dropLast = some b ∧
    b.currentSize = b.maxSize ∧ b.newMaxSize < b.currentSize ∧ fill bytes = none := by
  have hne : bytes ≠ [] := by
    rintro rfl
    cases h
  have hlen : bytes.dropLast.length = lastSize := by rw [List.length_dropLast, h, Nat.add_sub_cancel]
  obtain ⟨b, hb, hdoubled, hc⟩ := fill_short hlen.le
  obtain ⟨hfull, hnew⟩ := hdoubled.full hc hlen
  refine ⟨b, hb, hfull, hnew, ?_⟩
  rw [← List.dropLast_append_getLast hne, fill_concat, hb, Option.bind_some, Buffer.add, if_pos hfull,
    dif_neg (not_lt.mpr hnew.le)]

/-- Every call of `add` keeps the line, with room for each copy and each byte, exactly as
long as the line fits into the last size. -/
theorem fill_iff (bytes : List Byte) : (∀ line, line <+: bytes → ∃ b, fill line = some b ∧
      b.currentSize = line.length ∧ b.currentSize ≤ b.maxSize ∧
        b.data.take b.currentSize = line.map some) ↔
    bytes.length ≤ lastSize := by
  constructor
  · intro h
    by_contra hlong
    obtain ⟨b, hb, _⟩ := h (bytes.take (lastSize + 1)) (List.take_prefix _ _)
    have hlen : (bytes.take (lastSize + 1)).length = lastSize + 1 := by
      rw [List.length_take]
      omega
    obtain ⟨_, _, _, _, hnone⟩ := fill_long hlen
    rw [hb] at hnone
    cases hnone
  · intro h line hline
    obtain ⟨b, hb, _, hc⟩ := fill_short (hline.length_le.trans h)
    obtain ⟨rest, hdata⟩ := hc.data
    refine ⟨b, hb, hc.size, hc.size ▸ hc.length_le, ?_⟩
    rw [hdata, hc.size, List.take_left' (List.length_map _)]

/-- The memory for the byte after that is too small for the bytes before. -/
theorem fill_overflows : ∃ bytes b, bytes = List.replicate (lastSize + 1) (char 'a') ∧
    fill bytes.dropLast = some b ∧ b.newMaxSize < b.currentSize ∧ fill bytes = none := by
  have hlen : (List.replicate (lastSize + 1) (char 'a')).length = lastSize + 1 :=
    List.length_replicate
  obtain ⟨b, hb, _, hnew, hnone⟩ := fill_long hlen
  exact ⟨_, b, rfl, hb, hnew, hnone⟩

end ConcurrentComputing.Tcp
