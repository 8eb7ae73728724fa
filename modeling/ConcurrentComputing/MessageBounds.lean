import ConcurrentComputing.RoundTrip
import ConcurrentComputing.TruncatedSum
import Mathlib.Data.List.TakeWhile

/-! # What the decoder may run into

It has no length to go by, and no bound on the numbers: when it stays inside of the
line, and when its sums stay inside of an `int`. -/

namespace ConcurrentComputing.Tcp

open Decimal TruncatedSum

/-! ## The line -/

/-- The buffer with nothing behind the line. -/
def Buffer.cut (b : Buffer) : Buffer :=
  ⟨b.data.take b.currentSize, b.currentSize, (b.data.take b.currentSize).length, rfl⟩

/-- Between the space and the last byte there is one that is no digit, and the null
character after it comes before `i` gets too large. -/
def Separated (line : List Byte) : Prop :=
  let body := (line.drop 4).dropLast
  body.dropWhile isDigit ≠ [] ∧ (body.takeWhile isDigit).length + 1 +
    ((body.dropWhile isDigit).tail.takeWhile fun c => c ≠ 0).length ≤ intMax

instance (line : List Byte) : Decidable (Separated line) := instDecidableAnd

variable {b m : Buffer} {line body : List Byte} {reads rest : List Read}

theorem Buffer.Contains.cut (h : b.Contains line) :
    b.cut.currentSize = line.length ∧ b.cut.data = line.map some ++ [] := by
  obtain ⟨hsize, rest, hdata⟩ := h
  refine ⟨hsize, ?_⟩
  have hcut : b.cut.data = b.data.take b.currentSize := rfl
  rw [hcut, hdata, hsize, List.take_left' (List.length_map _), List.append_nil]

/-- The first null character, which is the last byte if no other. -/
theorem exists_null (bs : List Byte) : ∃ rest, bs.map some ++ [some 0] =
    (bs.takeWhile fun c => c ≠ 0).map some ++ some 0 :: rest := by
  induction bs with
  | nil => exact ⟨[], rfl⟩
  | cons b bs ih =>
    by_cases hb : b = 0
    · subst hb
      exact ⟨bs.map some ++ [some 0], by simp⟩
    · obtain ⟨rest, hrest⟩ := ih
      refine ⟨rest, ?_⟩
      rw [List.map_cons, List.cons_append, hrest, List.takeWhile_cons_of_pos (by simpa using hb),
        List.map_cons, List.cons_append]

theorem getTwoNumbers_isSome (body : List Byte) :
    (getTwoNumbers (body.map some ++ [some 0])).isSome ↔
      body.dropWhile isDigit ≠ [] ∧ (body.takeWhile isDigit).length + 1 +
        ((body.dropWhile isDigit).tail.takeWhile fun c => c ≠ 0).length ≤ intMax := by
  have hsplit := List.takeWhile_append_dropWhile (p := isDigit) (l := body)
  have hdigits : ∀ a ∈ body.takeWhile isDigit, isDigit a = true := fun a => List.mem_takeWhile_imp
  cases hrest : body.dropWhile isDigit with
  | nil =>
    -- the first loop ends at the last byte, and the second starts behind it
    rw [hrest, List.append_nil] at hsplit
    have hfirst := @firstLoop_bytes [] 0 0 _ 0 hdigits rfl
    rw [hsplit] at hfirst
    refine iff_of_false ?_ fun he => he.1 rfl
    rw [getTwoNumbers, hfirst]
    split
    · simp
    · simp [secondLoop]
  | cons c bs =>
    have hc : isDigit c = false := by
      have hhead := List.head?_dropWhile_not isDigit body
      rw [hrest] at hhead
      simpa using hhead
    have hnz : (0 : Byte) ∉ bs.takeWhile fun c => c ≠ 0 := fun hmem => by
      simpa using List.mem_takeWhile_imp hmem
    obtain ⟨rest, hnull⟩ := exists_null bs
    have hdata : body.map some ++ [some 0] = (body.takeWhile isDigit ++ c ::
        bs.takeWhile fun c => c ≠ 0).map some ++ some 0 :: rest := by
      rw [List.map_append, List.map_cons, List.append_assoc, List.cons_append, ← hnull]
      nth_rewrite 1 [← hsplit]
      rw [hrest, List.map_append, List.map_cons, List.append_assoc, List.cons_append]
    rw [hdata, getTwoNumbers_bytes rest hdigits hc hnz, List.tail_cons]
    split
    · rename_i hlong
      exact iff_of_false (by simp) fun he => absurd he.2 (not_le.mpr hlong)
    · rename_i hfits
      exact iff_of_true rfl ⟨List.cons_ne_nil _ _, not_lt.mp hfits⟩

theorem Buffer.Contains.deserialize_cut {l : List Byte} (h : m.Contains l)
    (hv : verify (some m) = true) :
    (deserialize m.cut).isSome ↔ Separated l := by
  obtain ⟨hlen, _⟩ := (verify_iff h).mp hv
  obtain ⟨hsize, hdata⟩ := h.cut
  have hparts : l = l.take 3 ++ l[3] :: (l.drop 4).dropLast ++ [l.getLast (by
      rintro rfl
      cases hlen)] := by
    have hne : l.drop 4 ≠ [] := fun he => by
      have hdrop := List.drop_eq_nil_iff.mp he
      omega
    have hlast : (l.drop 4).getLast hne = l.getLast (fun he => hne (by simp [he])) :=
      List.getLast_drop _
    rw [List.append_assoc, List.cons_append, ← hlast, List.dropLast_append_getLast hne,
      ← List.drop_eq_getElem_cons, List.take_append_drop]
  have hw : (l.take 3).length = 3 := by
    rw [List.length_take]
    omega
  rw [hparts] at hsize hdata
  rw [deserialize_data hsize hdata hw, Option.isSome_map, getTwoNumbers_isSome, Separated]

/-- Whatever the peer sends: a request that is accepted is decoded without a look behind
its line, exactly when the numbers in it are separated. -/
theorem deserialize_inside (hget : socketGetLine reads = some (some m, rest))
    (hv : verify (some m) = true) : ∃ line, m.Contains line ∧ IsLine line ∧
      ((deserialize m.cut).isSome ↔ Separated line) := by
  obtain ⟨line, hc, hline⟩ := socketGetLine_line hget
  exact ⟨line, hc, hline, hc.deserialize_cut hv⟩

theorem deserialize_inside_put : ∃ m, socketGetLine
      ((bytes "PUT 17,5".toList ++ [char '\n']).map .byte ++ []) = some (some m, []) ∧
    (deserialize m.cut).isSome := by
  obtain ⟨m, hc, hget⟩ := socketGetLine_read (bytes "PUT 17,5".toList) [] (by decide) (by decide)
  have hv : verify (some m) = true := (verify_iff hc).mpr (by decide)
  obtain ⟨line, hc', _, hiff⟩ := deserialize_inside hget hv
  rw [hc'.unique hc] at hiff
  exact ⟨m, hget, hiff.mpr (by decide)⟩

/-- `GET 1234`: the first loop ends at the last byte, and the second goes on behind it. -/
theorem deserialize_outside : ∃ m, socketGetLine
      ((bytes "GET 1234".toList ++ [char '\n']).map .byte ++ []) = some (some m, []) ∧
    verify (some m) = true ∧ deserialize m.cut = none := by
  obtain ⟨m, hc, hget⟩ := socketGetLine_read (bytes "GET 1234".toList) [] (by decide) (by decide)
  have hv : verify (some m) = true := (verify_iff hc).mpr (by decide)
  refine ⟨m, hget, hv, ?_⟩
  rw [← Option.not_isSome_iff_eq_none, hc.deserialize_cut hv]
  decide

/-! ## The sums -/

def checkedInt (n : Int) : Option Int := checked (-2 ^ 31) (2 ^ 31 - 1) n

/-- `val * 10 + data[i] - '0'`, from the left, with no result where one does not fit. -/
def nextValExact (val : Int) (c : Byte) : Option Int := do
  let product ← checkedInt (val * 10)
  let sum ← checkedInt (product + c.toInt)
  checkedInt (sum - 48)

/-- The loops of `getTwoNumbers` with these. -/
def firstLoopExact (val : Int) (i : Nat) :
    List (Option Byte) → Option (Int × Nat × List (Option Byte))
  | some c :: rest =>
    if intMax < i then none
    else if isDigit c then (nextValExact val c).bind fun val => firstLoopExact val (i + 1) rest
    else some (val, i, some c :: rest)
  | _ => none

def secondLoopExact (val : Int) (i : Nat) : List (Option Byte) → Option Int
  | some c :: rest =>
    if intMax < i then none
    else if c = 0 then some val
    else (nextValExact val c).bind fun val => secondLoopExact val (i + 1) rest
  | _ => none

def getTwoNumbersExact (data : List (Option Byte)) : Option (Int × Int) := do
  let (val_1, i, rest) ← firstLoopExact 0 0 data
  let val_2 ← secondLoopExact 0 (i + 1) rest.tail
  return (val_1, val_2)

/-- `deserialize` as far as it has a meaning: no sum overflows. -/
def deserializeExact (protocol : Buffer) : Option Message :=
  let data := (protocol.data.set (protocol.currentSize - 1) (some 0)).set 3 (some 0)
  (getTwoNumbersExact (data.drop 4)).bind fun _ => deserialize protocol

variable {val v : Int} {c : Byte} {data : List (Option Byte)} {ds es : List Nat}

/-- As long as they fit, the numbers are those of 32 bits. -/
theorem nextVal_of_exact (h : nextValExact val c = some v) :
    nextVal (BitVec.ofInt 32 val) c = BitVec.ofInt 32 v := by
  obtain ⟨product, hproduct, h⟩ := Option.bind_eq_some_iff.mp h
  obtain ⟨sum, hsum, h⟩ := Option.bind_eq_some_iff.mp h
  obtain ⟨-, rfl⟩ := checked_eq_some.mp hproduct
  obtain ⟨-, rfl⟩ := checked_eq_some.mp hsum
  obtain ⟨-, rfl⟩ := checked_eq_some.mp h
  have hsigned : c.signExtend 32 = BitVec.ofInt 32 c.toInt := rfl
  rw [nextVal, hsigned, Int.sub_eq_add_neg, BitVec.ofInt_add, BitVec.ofInt_add, BitVec.ofInt_mul,
    BitVec.ofInt_neg, BitVec.sub_eq_add_neg]
  rfl

theorem firstLoop_of_exact {i j : Nat} {rest : List (Option Byte)}
    (h : firstLoopExact val i data = some (v, j, rest)) :
    firstLoop (BitVec.ofInt 32 val) i data = some (BitVec.ofInt 32 v, j, rest) := by
  induction data generalizing val i with
  | nil => cases h
  | cons x data ih =>
    cases x with
    | none => cases h
    | some c =>
      rw [firstLoopExact] at h
      rw [firstLoop]
      split
      · rename_i hi
        rw [if_pos hi] at h
        cases h
      · rename_i hi
        rw [if_neg hi] at h
        split
        · rename_i hc
          rw [if_pos hc] at h
          obtain ⟨next, hnext, hrest⟩ := Option.bind_eq_some_iff.mp h
          rw [nextVal_of_exact hnext]
          exact ih hrest
        · rename_i hc
          rw [if_neg hc] at h
          cases h
          rfl

theorem secondLoop_of_exact {i : Nat} (h : secondLoopExact val i data = some v) :
    secondLoop (BitVec.ofInt 32 val) i data = some (BitVec.ofInt 32 v) := by
  induction data generalizing val i with
  | nil => cases h
  | cons x data ih =>
    cases x with
    | none => cases h
    | some c =>
      rw [secondLoopExact] at h
      rw [secondLoop]
      split
      · rename_i hi
        rw [if_pos hi] at h
        cases h
      · rename_i hi
        rw [if_neg hi] at h
        split
        · rename_i hc
          rw [if_pos hc] at h
          cases h
          rfl
        · rename_i hc
          rw [if_neg hc] at h
          obtain ⟨next, hnext, hrest⟩ := Option.bind_eq_some_iff.mp h
          rw [nextVal_of_exact hnext]
          exact ih hrest

theorem getTwoNumbers_of_exact {a b : Int} (h : getTwoNumbersExact data = some (a, b)) :
    getTwoNumbers data = some (BitVec.ofInt 32 a, BitVec.ofInt 32 b) := by
  obtain ⟨⟨val_1, i, rest⟩, hfirst, h⟩ := Option.bind_eq_some_iff.mp h
  obtain ⟨val_2, hsecond, h⟩ := Option.bind_eq_some_iff.mp h
  cases h
  have hfirst' := firstLoop_of_exact hfirst
  have hsecond' := secondLoop_of_exact hsecond
  have hzero : BitVec.ofInt 32 0 = 0 := rfl
  rw [hzero] at hfirst' hsecond'
  simp only [getTwoNumbers, hfirst', hsecond', Option.bind_eq_bind, Option.bind_some,
    Option.pure_def]

/-- The largest number whose last digit can be added as a character. -/
def lastFit : Nat := intMax - 48

theorem digitByte_toInt {d : Nat} (hd : d < 10) : (digitByte d).toInt = 48 + d := by
  have h : ∀ d < 10, (digitByte d).toInt = 48 + d := by decide
  exact h d hd

theorem checkedInt_eq {n : Int} (hlo : 0 ≤ n) (hhi : n ≤ 2 ^ 31 - 1) : checkedInt n = some n :=
  checked_eq (le_trans (by decide) hlo) hhi

theorem nextValExact_digit (n : Nat) {d : Nat} (hd : d < 10) : nextValExact n (digitByte d) =
    if n * 10 + d ≤ lastFit then some ((n * 10 + d : Nat) : Int) else none := by
  rw [nextValExact, digitByte_toInt hd]
  simp only [Option.bind_eq_bind]
  split
  · rename_i hfits
    rw [lastFit, intMax] at hfits
    rw [checkedInt_eq (by omega) (by omega), Option.bind_some, checkedInt_eq (by omega) (by omega),
      Option.bind_some, checkedInt_eq (by omega) (by omega)]
    refine congrArg some ?_
    push_cast
    ring
  · rename_i hlarge
    rw [lastFit, intMax] at hlarge
    refine Option.bind_eq_none_iff.mpr fun product hproduct => ?_
    obtain ⟨-, rfl⟩ := checked_eq_some.mp hproduct
    have hsum : checkedInt (n * 10 + (48 + d)) = none := if_neg (by omega)
    rw [hsum, Option.bind_none]

theorem le_value (n : Nat) (ds : List Nat) : n ≤ value n ds := by
  rw [value_eq]
  exact (Nat.le_mul_of_pos_right n (Nat.pow_pos (Nat.succ_pos 9))).trans (Nat.le_add_right _ _)

/-- All sums of a number fit if the last one does. -/
theorem foldlM_nextValExact {n : Nat} (hn : n ≤ lastFit) (hds : ∀ d ∈ ds, d < 10) :
    (ds.map digitByte).foldlM nextValExact (n : Int) =
      if value n ds ≤ lastFit then some ((value n ds : Nat) : Int) else none := by
  induction ds generalizing n with
  | nil => exact (if_pos hn).symm
  | cons d ds ih =>
    rw [List.map_cons, List.foldlM_cons, nextValExact_digit n (hds d List.mem_cons_self), value_cons]
    simp only [Nat.cast_id]
    split
    · rename_i hfits
      exact ih hfits fun e he => hds e (List.mem_cons_of_mem _ he)
    · rename_i hlarge
      exact (if_neg fun hle => hlarge ((le_value _ _).trans hle)).symm

theorem firstLoopExact_bytes {i : Nat} {bs : List Byte} {rest : List (Option Byte)}
    (hbs : ∀ b ∈ bs, isDigit b = true) (hc : isDigit c = false) (hi : i + bs.length ≤ intMax) :
    firstLoopExact val i (bs.map some ++ some c :: rest) =
      (bs.foldlM nextValExact val).map fun val => (val, i + bs.length, some c :: rest) := by
  induction bs generalizing val i with
  | nil =>
    rw [List.length_nil, Nat.add_zero] at hi
    simp [firstLoopExact, hc, hi]
  | cons b bs ih =>
    rw [List.length_cons] at hi ⊢
    rw [List.map_cons, List.cons_append, firstLoopExact, if_neg (by omega),
      hbs b List.mem_cons_self, if_pos rfl, List.foldlM_cons]
    cases nextValExact val b with
    | none => rfl
    | some next =>
      rw [Option.bind_some, ih (fun d hd => hbs d (List.mem_cons_of_mem _ hd)) (by omega),
        Nat.add_right_comm, Nat.add_assoc]
      rfl

theorem secondLoopExact_bytes {i : Nat} {bs : List Byte} {rest : List (Option Byte)} (hbs : 0 ∉ bs)
    (hi : i + bs.length ≤ intMax) :
    secondLoopExact val i (bs.map some ++ some 0 :: rest) = bs.foldlM nextValExact val := by
  induction bs generalizing val i with
  | nil =>
    rw [List.length_nil, Nat.add_zero] at hi
    simp [secondLoopExact, hi]
  | cons b bs ih =>
    rw [List.mem_cons, not_or] at hbs
    rw [List.length_cons] at hi
    rw [List.map_cons, List.cons_append, secondLoopExact, if_neg (by omega), if_neg (Ne.symm hbs.1),
      List.foldlM_cons]
    cases nextValExact val b with
    | none => rfl
    | some next => exact ih hbs.2 (by omega)

/-- Digits, a separator and digits come out, unless a number is too close to the largest
`int`. -/
theorem getTwoNumbersExact_digits (rest : List (Option Byte)) (hds : ∀ d ∈ ds, d < 10)
    (hes : ∀ d ∈ es, d < 10) (hc : isDigit c = false)
    (hlen : ds.length + 1 + es.length ≤ intMax) :
    getTwoNumbersExact ((ds.map digitByte ++ c :: es.map digitByte).map some ++ some 0 :: rest) =
      if (value 0 ds : Nat) ≤ lastFit ∧ (value 0 es : Nat) ≤ lastFit then
        some (((value 0 ds : Nat) : Int), ((value 0 es : Nat) : Int))
      else none := by
  have hdigits : ∀ b ∈ ds.map digitByte, isDigit b = true := by
    intro b hb
    obtain ⟨d, hd, rfl⟩ := List.mem_map.mp hb
    exact (digitByte_spec (hds d hd)).1
  have hnz : (0 : Byte) ∉ es.map digitByte := by
    intro hmem
    obtain ⟨d, hd, he⟩ := List.mem_map.mp hmem
    exact (digitByte_spec (hes d hd)).2.1 he
  have hfirst := foldlM_nextValExact (Nat.zero_le _) hds
  have hsecond := foldlM_nextValExact (Nat.zero_le _) hes
  rw [Nat.cast_zero] at hfirst hsecond
  rw [getTwoNumbersExact, List.map_append, List.map_cons, List.append_assoc, List.cons_append,
    firstLoopExact_bytes hdigits hc (by rw [List.length_map]; omega), hfirst]
  by_cases hfits : value 0 ds ≤ lastFit
  · rw [if_pos hfits]
    simp only [Option.map_some, Option.bind_eq_bind, Option.bind_some, List.tail_cons]
    rw [secondLoopExact_bytes hnz (by simp only [List.length_map]; omega), hsecond]
    by_cases hfits' : value 0 es ≤ lastFit
    · rw [if_pos hfits', if_pos ⟨hfits, hfits'⟩]
      rfl
    · rw [if_neg hfits', if_neg fun h => hfits' h.2]
      rfl
  · rw [if_neg hfits, if_neg fun h => hfits h.1]
    rfl

/-- The numbers of a request come out, unless one is too close to the largest `int`. -/
theorem getTwoNumbersExact_numbers {k v : Word} (rest : List (Option Byte)) (hk : 0 ≤ k.toInt)
    (hv : 0 ≤ v.toInt) : getTwoNumbersExact ((numbers (k, v)).map some ++ some 0 :: rest) =
      if k.toInt ≤ lastFit ∧ v.toInt ≤ lastFit then some (k.toInt, v.toInt) else none := by
  have hlen := decimal_length_le k
  have hlen' := decimal_length_le v
  have hread := getTwoNumbersExact_digits rest (fun d hd => decimal_lt (n := k.toInt.natAbs) hd)
    (fun d hd => decimal_lt (n := v.toInt.natAbs) hd) (c := char ',') (by decide)
    (by unfold intMax; omega)
  rw [← (printInt_nonneg hk).1, ← (printInt_nonneg hv).1, value_decimal, value_decimal,
    Int.natAbs_of_nonneg hk, Int.natAbs_of_nonneg hv] at hread
  refine hread.trans (if_congr ?_ rfl rfl)
  omega

theorem Buffer.Contains.deserialize_exact {w : List Byte} {sp last : Byte}
    (h : m.Contains (w ++ sp :: body ++ [last])) (hw : w.length = 3) : ∃ rest,
      (deserializeExact m =
        (getTwoNumbersExact (body.map some ++ some 0 :: rest)).bind fun _ => deserialize m) ∧
      deserialize m = (getTwoNumbers (body.map some ++ some 0 :: rest)).map fun numbers =>
        ⟨if w = bytes ['G', 'E', 'T'] then .get else .put, numbers⟩ := by
  obtain ⟨hsize, rest, hdata⟩ := h
  refine ⟨rest, ?_, deserialize_data hsize hdata hw⟩
  simp only [deserializeExact, set_null hsize hdata hw, drop_verb hw]

/-- No sum overflows while the decoder reads a request, exactly when both of its numbers
are at most that far from the largest `int`. -/
theorem no_overflow_iff {k v : Word} (rest : List (Option Byte)) (hk : 0 ≤ k.toInt)
    (hv : 0 ≤ v.toInt) :
    (getTwoNumbersExact ((numbers (k, v)).map some ++ some 0 :: rest)).isSome ↔
      k.toInt ≤ 2147483599 ∧ v.toInt ≤ 2147483599 := by
  rw [getTwoNumbersExact_numbers rest hk hv]
  split
  · rename_i hfits
    exact iff_of_true rfl hfits
  · rename_i hlarge
    exact iff_of_false (by simp) hlarge

theorem no_overflow_small :
    (getTwoNumbersExact ((numbers (17, 5)).map some ++ [some 0])).isSome :=
  (no_overflow_iff [] (by decide) (by decide)).mpr (by decide)

/-- The key `0x7FFFFFFF`. -/
theorem largest_key_overflows :
    getTwoNumbersExact ((numbers (2147483647, 0)).map some ++ [some 0]) = none := by
  rw [getTwoNumbersExact_numbers [] (by decide) (by decide)]
  decide

end ConcurrentComputing.Tcp
