import ConcurrentComputing.Message

/-! # From the client's line to the server's message

The encoder writes any `int`, with its sign; the decoder knows no sign. -/

namespace ConcurrentComputing.Tcp

open Decimal

variable {w : Word}

theorem natAbs_le (w : Word) : w.toInt.natAbs ≤ 2 ^ 31 := by
  have hlt := BitVec.toInt_lt (x := w)
  have hle := BitVec.le_toInt (x := w)
  omega

theorem natCast_natAbs (h : 0 ≤ w.toInt) : ((w.toInt.natAbs : Nat) : Word) = w := by
  have hcast : ((w.toInt.natAbs : Int) : Word) = BitVec.ofInt 32 w.toInt := by
    rw [Int.natAbs_of_nonneg h]
    rfl
  rw [BitVec.ofInt_toInt] at hcast
  exact hcast

theorem value_decimal_word (n : Nat) : value (0 : Word) (decimal n) = (n : Word) := by
  have h := value_natCast (R := Word) 0 (decimal n)
  rwa [value_decimal, Nat.cast_zero] at h

theorem decimal_length_le (w : Word) : (decimal w.toInt.natAbs).length ≤ 10 := by
  rcases Nat.eq_zero_or_pos w.toInt.natAbs with h | h
  · rw [h]
    decide
  · by_contra hlen
    have hle := (pow_length_le h).trans (natAbs_le w)
    have hpow := Nat.pow_le_pow_right (show 0 < 10 by decide)
      (show 10 ≤ (decimal w.toInt.natAbs).length - 1 by omega)
    exact absurd (hpow.trans hle) (by decide)

/-- What `%d` writes. -/
theorem mem_printInt {c : Byte} (h : c ∈ printInt w) : c = char '-' ∨ ∃ d < 10, c = digitByte d := by
  rcases List.mem_append.mp h with h | h
  · split at h
    · exact Or.inl (List.mem_singleton.mp h)
    · cases h
  · obtain ⟨d, hd, rfl⟩ := List.mem_map.mp h
    exact Or.inr ⟨d, decimal_lt hd, rfl⟩

theorem printInt_spec {c : Byte} (h : c ∈ printInt w) : c ≠ 0 ∧ c ≠ char '\n' := by
  rcases mem_printInt h with rfl | ⟨d, hd, rfl⟩
  · decide
  · exact ⟨(digitByte_spec hd).2.1, (digitByte_spec hd).2.2.2.1⟩

theorem printInt_length (w : Word) : 1 ≤ (printInt w).length ∧ (printInt w).length ≤ 11 := by
  have hpos := List.length_pos_iff.mpr (decimal_ne_nil w.toInt.natAbs)
  have hle := decimal_length_le w
  rw [printInt, List.length_append, List.length_map]
  split
  · rw [List.length_singleton]
    omega
  · rw [List.length_nil]
    omega

/-- A number that is not negative is read as it was written. -/
theorem printInt_nonneg (h : 0 ≤ w.toInt) :
    printInt w = (decimal w.toInt.natAbs).map digitByte ∧
      value (0 : Word) (decimal w.toInt.natAbs) = w := by
  refine ⟨?_, ?_⟩
  · rw [printInt, if_neg (not_lt.mpr h), List.nil_append]
  · rw [value_decimal_word, natCast_natAbs h]

/-- The minus sign is read as the digit −3: one negative number is read back all the
same. -/
theorem printInt_neg (h : w.toInt < 0) :
    (printInt w).foldl nextVal 0 = w ↔ w.toInt = -2115098112 := by
  obtain ⟨n, hn⟩ : ∃ n, n = w.toInt.natAbs := ⟨_, rfl⟩
  obtain ⟨k, hk⟩ : ∃ k, k = (decimal n).length := ⟨_, rfl⟩
  have hread : (printInt w).foldl nextVal 0 = BitVec.ofInt 32 (-3 * 10 ^ k + n) := by
    have hminus : nextVal 0 (char '-') = (-3 : Word) := by decide
    have hcast : BitVec.ofInt 32 (-3 * 10 ^ k + n) = ((-3 * 10 ^ k + n : Int) : Word) := rfl
    rw [printInt, if_pos h, ← hn, List.singleton_append, List.foldl_cons, hminus,
      foldl_nextVal _ fun d hd => decimal_lt hd, value_eq, value_decimal_word, ← hk, hcast]
    push_cast
    rfl
  have hneg : w.toInt = -n := by omega
  have hlt := lt_pow_length n
  have hle := pow_length_le (n := n) (by omega)
  have hlen := decimal_length_le w
  have habs := natAbs_le w
  rw [← hn, ← hk] at hlen
  rw [← hn] at habs
  rw [← hk] at hlt hle
  have hk1 : 1 ≤ k := hk ▸ List.length_pos_iff.mpr (decimal_ne_nil n)
  have hiff : (printInt w).foldl nextVal 0 = w ↔ (-3 * 10 ^ k + n : Int).bmod (2 ^ 32) = -n := by
    rw [hread, ← hneg, ← BitVec.toInt_ofInt]
    exact ⟨congrArg _, BitVec.eq_of_toInt_eq⟩
  rw [hiff, hneg, Int.bmod_eq_iff (by decide)]
  interval_cases k <;> norm_num at hlt hle ⊢ <;> omega

/-! ## The line of a message -/

/-- What follows the space, up to the newline. -/
def numbers (data : Word × Word) : List Byte := printInt data.1 ++ char ',' :: printInt data.2

def verb (protocol : MessageType) : List Byte :=
  bytes (if protocol = .get then ['G', 'E', 'T'] else ['P', 'U', 'T'])

variable {message : Message} {k v : Word} {rest : List (Option Byte)}

theorem verb_length (protocol : MessageType) : (verb protocol).length = 3 := by
  unfold verb
  split <;> rfl

theorem sendMessage_eq (message : Message) : sendMessage message =
    verb message.protocol ++ char ' ' :: numbers message.data ++ [char '\n'] := by
  simp [sendMessage, verb, numbers]

theorem numbers_spec {c : Byte} {data : Word × Word} (h : c ∈ numbers data) :
    c ≠ 0 ∧ c ≠ char '\n' := by
  rcases List.mem_append.mp h with h | h
  · exact printInt_spec h
  · rcases List.mem_cons.mp h with rfl | h
    · decide
    · exact printInt_spec h

/-- The server gets the line, and it passes the check. -/
theorem received (message : Message) (reads : List Read) :
    ∃ m, socketGetLine ((sendMessage message).map .byte ++ reads) = some (some m, reads) ∧
      m.Contains (sendMessage message) ∧ verify (some m) = true := by
  obtain ⟨hpos₁, hle₁⟩ := printInt_length message.data.1
  obtain ⟨hpos₂, hle₂⟩ := printInt_length message.data.2
  have hlen : (verb message.protocol ++ char ' ' :: numbers message.data).length =
      3 + (printInt message.data.1).length + 1 + (printInt message.data.2).length + 1 := by
    rw [List.length_append, verb_length, List.length_cons, numbers, List.length_append,
      List.length_cons]
    omega
  have hnl : char '\n' ∉ verb message.protocol ++ char ' ' :: numbers message.data := by
    intro hmem
    rcases List.mem_append.mp hmem with hmem | hmem
    · unfold verb at hmem
      split at hmem <;> exact absurd hmem (by decide)
    · rcases List.mem_cons.mp hmem with hmem | hmem
      · exact absurd hmem (by decide)
      · exact (numbers_spec hmem).2 rfl
  obtain ⟨m, hc, hget⟩ := socketGetLine_read _ reads hnl (by
    rw [hlen, bufferSize]
    omega)
  rw [← sendMessage_eq] at hc hget
  refine ⟨m, hget, hc, (verify_iff hc).mpr ⟨?_, ?_⟩⟩
  · rw [sendMessage_eq, List.length_append, hlen, List.length_singleton]
    omega
  · rw [sendMessage_eq, List.append_assoc, List.getElem?_append_right (verb_length _).le,
      verb_length]
    rfl

theorem deserialize_sent {m : Buffer} (h : m.Contains (sendMessage message))
    (hp : message.protocol ≠ .invalid) : ∃ rest, deserialize m =
      (getTwoNumbers ((numbers message.data).map some ++ some 0 :: rest)).map fun data =>
        ⟨message.protocol, data⟩ := by
  rw [sendMessage_eq] at h
  obtain ⟨rest, hd⟩ := deserialize_eq h (verb_length _)
  refine ⟨rest, hd.trans ?_⟩
  have hverb : (if verb message.protocol = bytes ['G', 'E', 'T'] then MessageType.get else .put) =
      message.protocol := by
    cases hm : message.protocol with
    | get => rfl
    | put => exact if_neg (by decide)
    | invalid => exact absurd hm hp
  rw [hverb]

theorem numbers_nonneg (v : Word) (rest : List (Option Byte)) (hk : 0 ≤ k.toInt) :
    getTwoNumbers ((numbers (k, v)).map some ++ some 0 :: rest) =
      some (k, (printInt v).foldl nextVal 0) := by
  obtain ⟨hprint, hval⟩ := printInt_nonneg hk
  have hle := decimal_length_le k
  have hle' := (printInt_length v).2
  have hnz : (0 : Byte) ∉ printInt v := fun h => (printInt_spec h).1 rfl
  have hread := getTwoNumbers_digits rest (c := char ',')
    (fun d hd => decimal_lt (n := k.toInt.natAbs) hd) (by decide) hnz
  rw [if_neg (by unfold intMax; omega), hval, ← hprint] at hread
  exact hread

/-- A minus sign stops the first loop. -/
theorem numbers_neg (v : Word) (rest : List (Option Byte)) (hk : k.toInt < 0) :
    ∃ x, getTwoNumbers ((numbers (k, v)).map some ++ some 0 :: rest) = some (0, x) := by
  have hle := decimal_length_le k
  have hle' := (printInt_length v).2
  have hprint : numbers (k, v) = [].map digitByte ++ char '-' ::
      ((decimal k.toInt.natAbs).map digitByte ++ char ',' :: printInt v) := by
    rw [numbers, printInt, if_pos hk]
    rfl
  have hnz : (0 : Byte) ∉ (decimal k.toInt.natAbs).map digitByte ++ char ',' :: printInt v := by
    intro hmem
    have hmem' : (0 : Byte) ∈ numbers (k, v) := by
      rw [hprint]
      exact List.mem_cons_of_mem _ hmem
    exact (numbers_spec hmem').1 rfl
  have hnil : ∀ d ∈ ([] : List Nat), d < 10 := nofun
  have hread := getTwoNumbers_digits rest (c := char '-') hnil (by decide) hnz
  rw [← hprint, if_neg] at hread
  · exact ⟨_, hread⟩
  · simp only [List.length_append, List.length_map, List.length_cons, List.length_nil]
    unfold intMax
    omega

/-! ## The round trip -/

/-- The server reads the line of a message, accepts it and has the message back. -/
def RoundTrips (message : Message) : Prop :=
  ∃ m, socketGetLine ((sendMessage message).map .byte) = some (some m, []) ∧
    verify (some m) = true ∧ deserialize m = some message

/-- **The wire format.** A request comes back as it was sent exactly when its key is
not negative, nor its value, but for the one that the decoder hits upon. -/
theorem round_trip_iff (hp : message.protocol ≠ .invalid) : RoundTrips message ↔
    0 ≤ message.data.1.toInt ∧ (0 ≤ message.data.2.toInt ∨ message.data.2.toInt = -2115098112) := by
  obtain ⟨m, hget, hc, hv⟩ := received message []
  obtain ⟨rest, hd⟩ := deserialize_sent hc hp
  rw [List.append_nil] at hget
  have htrip : RoundTrips message ↔ getTwoNumbers ((numbers message.data).map some ++
      some 0 :: rest) = some message.data := by
    have hback : deserialize m = some message ↔ getTwoNumbers ((numbers message.data).map some ++
        some 0 :: rest) = some message.data := by
      rw [hd, Option.map_eq_some_iff]
      constructor
      · intro ⟨data, hdata, he⟩
        rw [hdata, ← he]
      · exact fun hdata => ⟨_, hdata, rfl⟩
    rw [← hback]
    constructor
    · intro ⟨m', hget', _, hd'⟩
      cases hget.symm.trans hget'
      exact hd'
    · exact fun hd' => ⟨m, hget, hv, hd'⟩
  obtain ⟨protocol, k, v⟩ := message
  rw [htrip]
  rcases lt_or_ge k.toInt 0 with hk | hk
  · obtain ⟨x, hx⟩ := numbers_neg v rest hk
    refine iff_of_false (fun he => ?_) fun he => absurd he.1 (not_le.mpr hk)
    obtain ⟨rfl, _⟩ := Prod.mk.inj (Option.some.inj (hx.symm.trans he))
    exact absurd hk (by decide)
  · rw [numbers_nonneg v rest hk, Option.some.injEq, Prod.mk.injEq, eq_self_iff_true, true_and]
    refine Iff.trans ?_ (and_iff_right hk).symm
    rcases lt_or_ge v.toInt 0 with hneg | hnonneg
    · rw [printInt_neg hneg]
      exact (or_iff_right (not_le.mpr hneg)).symm
    · obtain ⟨hprint, hval⟩ := printInt_nonneg hnonneg
      refine iff_of_true ?_ (Or.inl hnonneg)
      rw [hprint, foldl_nextVal _ fun d hd => decimal_lt hd, hval]

theorem round_trip_put : RoundTrips ⟨.put, 17, 2147483647⟩ :=
  (round_trip_iff (by decide)).mpr (by decide)

/-- `GET -1,0` is decoded to the key 0. -/
theorem negative_key_lost : ¬ RoundTrips ⟨.get, -1, 0⟩ := by
  intro ⟨m, hget, _, hback⟩
  obtain ⟨m', hget', hc, _⟩ := received ⟨.get, -1, 0⟩ []
  rw [List.append_nil, hget] at hget'
  cases hget'
  obtain ⟨rest, hd⟩ := deserialize_sent hc (by decide)
  obtain ⟨x, hx⟩ := numbers_neg (k := -1) 0 rest (by decide)
  rw [hd, hx] at hback
  cases hback

end ConcurrentComputing.Tcp
