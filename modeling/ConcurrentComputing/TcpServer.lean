import ConcurrentComputing.ConcurrentHashMap
import ConcurrentComputing.MessageBounds

/-! # The server's answer to a line

`handleMessage` of `Persistence/Server.cpp`: which lines reach the store, and with
what call. -/

namespace ConcurrentComputing.Tcp

open Decimal HashMap LazyList

/-- What a line has led to: the call made on the store, if any, and the store after
it with the result that is sent; no store, if the call does not return. -/
structure Handled where
  asked : Option Op
  outcome : Option (ConcurrentHashMap × Result)

def refuse (store : ConcurrentHashMap) : Handled := ⟨none, some (store, .abortFailure)⟩

def ask (store : ConcurrentHashMap) (op : Op) : Handled := ⟨some op, store.call op⟩

def Message.handle (message : Message) (store : ConcurrentHashMap) : Handled :=
  match message.protocol with
  | .get => ask store (.contains message.data.1.toInt)
  | .put => ask store (.add message.data.1.toInt message.data.2.toInt)
  | .invalid => refuse store

/-- `handleMessage` on what `socket_get_line` returned; `none` where the decoder leaves
the buffer or a sum of it overflows. -/
def handleMessage (store : ConcurrentHashMap) (protocol : Option Buffer) : Option Handled :=
  match protocol with
  | none => some (refuse store)
  | some buffer =>
    if verify (some buffer) then (deserializeExact buffer).map fun message => message.handle store
    else some (refuse store)

/-- `send_response`. -/
def sendResponse (result : Result) : List Byte :=
  printInt (match result with
    | .false => 0
    | .true => 1
    | .abortFailure => -1) ++ [char '\n']

/-! ## The grammar of requests -/

/-- Decimal digits of a value up to a bound. -/
structure IsNumber (max : Nat) (ds : List Nat) : Prop where
  ne_nil : ds ≠ []
  digits : ∀ d ∈ ds, d < 10
  le : value 0 ds ≤ max

def requestLine (verb : List Char) (ds es : List Nat) : List Byte :=
  bytes verb ++ char ' ' :: (ds.map digitByte ++ char ',' :: es.map digitByte) ++ [char '\n']

/-- The lines of the grammar, with the calls they stand for. -/
inductive Request (max : Nat) : List Byte → Op → Prop
  | get {ds es : List Nat} (hds : IsNumber max ds) (hes : IsNumber max es) :
    Request max (requestLine ['G', 'E', 'T'] ds es) (.contains (value 0 ds : Nat))
  | put {ds es : List Nat} (hds : IsNumber max ds) (hes : IsNumber max es) :
    Request max (requestLine ['P', 'U', 'T'] ds es) (.add (value 0 ds : Nat) (value 0 es : Nat))

/-- A request is passed to the store as what it says, any other line refused. -/
structure Obeys (store : ConcurrentHashMap) (m : Buffer) (line : List Byte) : Prop where
  request : ∀ op, Request intMax line op → handleMessage store (some m) = some (ask store op)
  refused : (∀ op, ¬ Request intMax line op) → handleMessage store (some m) = some (refuse store)

/-! ## Which lines are handled so -/

variable {m : Buffer} {line : List Byte} {ds es : List Nat} {verb : List Char} {op : Op}
  {message : Message} {max : Nat}

theorem IsNumber.mono (h : IsNumber max ds) {most : Nat} (hmax : max ≤ most) :
    IsNumber most ds :=
  ⟨h.ne_nil, h.digits, h.le.trans hmax⟩

theorem Request.mono (h : Request max line op) {most : Nat} (hmax : max ≤ most) :
    Request most line op := by
  cases h with
  | get hds hes => exact .get (hds.mono hmax) (hes.mono hmax)
  | put hds hes => exact .put (hds.mono hmax) (hes.mono hmax)

theorem toInt_value (hds : IsNumber intMax ds) : (value (0 : Word) ds).toInt = (value 0 ds : Nat) := by
  have hval := value_natCast (R := Word) 0 ds
  rw [Nat.cast_zero] at hval
  have hle := hds.le
  have hlt : (BitVec.ofNat 32 (value 0 ds)).toNat = value 0 ds := by
    rw [BitVec.toNat_ofNat, Nat.mod_eq_of_lt]
    unfold intMax at hle
    omega
  rw [hval]
  change (BitVec.ofNat 32 (value 0 ds)).toInt = _
  rw [BitVec.toInt_eq_toNat_of_lt, hlt]
  rw [hlt]
  unfold intMax at hle
  omega

theorem requestLine_length (verb : List Char) (ds es : List Nat) :
    (requestLine verb ds es).length = verb.length + ds.length + es.length + 3 := by
  simp only [requestLine, bytes, List.length_append, List.length_cons, List.length_map,
    List.length_nil]
  omega

/-- What the decoder makes of a line of digits; its index and its sums are `int`s. -/
theorem deserializeExact_request (h : m.Contains (requestLine verb ds es))
    (hverb : verb.length = 3) (hds : ∀ d ∈ ds, d < 10) (hes : ∀ d ∈ es, d < 10) :
    deserializeExact m = if (value 0 ds ≤ lastFit ∧ value 0 es ≤ lastFit) ∧
        (requestLine verb ds es).length ≤ 2 ^ 31 + 4 then
      some ⟨if bytes verb = bytes ['G', 'E', 'T'] then .get else .put, value 0 ds, value 0 es⟩
    else none := by
  have hw : (bytes verb).length = 3 := by simpa [bytes] using hverb
  obtain ⟨rest, hd⟩ := h.deserialize_exact hw
  have hnz : (0 : Byte) ∉ es.map digitByte := by
    intro hmem
    obtain ⟨d, hd, he⟩ := List.mem_map.mp hmem
    exact (digitByte_spec (hes d hd)).2.1 he
  have hlength := requestLine_length verb ds es
  have hwrapped := getTwoNumbers_digits rest hds (show isDigit (char ',') = false by decide) hnz
  rw [List.length_map, foldl_nextVal _ hes] at hwrapped
  rw [hd.1, hd.2, hwrapped, hlength, hverb]
  generalize (if bytes verb = bytes ['G', 'E', 'T'] then MessageType.get else .put) = protocol
  by_cases hlen : 3 + ds.length + es.length + 3 ≤ 2 ^ 31 + 4
  · have hindex : ds.length + 1 + es.length ≤ intMax := by
      unfold intMax
      omega
    rw [getTwoNumbersExact_digits rest hds hes (by decide) hindex, if_neg (not_lt.mpr hindex)]
    by_cases hfits : value 0 ds ≤ lastFit ∧ value 0 es ≤ lastFit
    · rw [if_pos hfits, if_pos ⟨hfits, hlen⟩]
      rfl
    · rw [if_neg hfits, if_neg fun hand => hfits hand.1]
      rfl
  · rw [if_pos (show intMax < ds.length + 1 + es.length by unfold intMax; omega),
      if_neg fun hand => hlen hand.2]
    exact Option.bind_eq_none_iff.mpr fun _ _ => rfl

theorem requestLine_verified (h : m.Contains (requestLine verb ds es)) (hverb : verb.length = 3)
    (hds : ds ≠ []) (hes : es ≠ []) : verify (some m) = true := by
  have hpos₁ := List.length_pos_iff.mpr hds
  have hpos₂ := List.length_pos_iff.mpr hes
  refine (verify_iff h).mpr ⟨?_, ?_⟩
  · rw [requestLine_length, hverb]
    omega
  · rw [requestLine, List.append_assoc, List.getElem?_append_right (by simp [bytes, hverb])]
    simp [bytes, hverb]

/-- What a request asks for is what the decoder makes of it, if it makes anything of it. -/
theorem request_handled (store : ConcurrentHashMap) (h : m.Contains line)
    (hr : Request max line op) (hmax : max ≤ intMax) : verify (some m) = true ∧
      (handleMessage store (some m) = none ∧ ¬ (max ≤ lastFit ∧ line.length ≤ 2 ^ 31 + 4) ∨
        handleMessage store (some m) = some (ask store op) ∧ Request lastFit line op ∧
          line.length ≤ 2 ^ 31 + 4) := by
  cases hr with
  | @get ds es hds hes =>
    have hv := requestLine_verified h rfl hds.ne_nil hes.ne_nil
    have hmessage := deserializeExact_request h rfl hds.digits hes.digits
    refine ⟨hv, ?_⟩
    simp only [handleMessage, if_pos hv, hmessage]
    split
    · rename_i hfits
      refine Or.inr ⟨?_, .get ⟨hds.ne_nil, hds.digits, hfits.1.1⟩
        ⟨hes.ne_nil, hes.digits, hfits.1.2⟩, hfits.2⟩
      change some (ask store (.contains (value (0 : Word) ds).toInt)) = _
      rw [toInt_value (hds.mono hmax)]
    · rename_i hlarge
      exact Or.inl ⟨rfl, fun hand =>
        hlarge ⟨⟨hds.le.trans hand.1, hes.le.trans hand.1⟩, hand.2⟩⟩
  | @put ds es hds hes =>
    have hv := requestLine_verified h rfl hds.ne_nil hes.ne_nil
    have hmessage := deserializeExact_request h rfl hds.digits hes.digits
    refine ⟨hv, ?_⟩
    simp only [handleMessage, if_pos hv, hmessage]
    split
    · rename_i hfits
      refine Or.inr ⟨?_, .put ⟨hds.ne_nil, hds.digits, hfits.1.1⟩
        ⟨hes.ne_nil, hes.digits, hfits.1.2⟩, hfits.2⟩
      change some (ask store (.add (value (0 : Word) ds).toInt (value (0 : Word) es).toInt)) = _
      rw [toInt_value (hds.mono hmax), toInt_value (hes.mono hmax)]
    · rename_i hlarge
      exact Or.inl ⟨rfl, fun hand =>
        hlarge ⟨⟨hds.le.trans hand.1, hes.le.trans hand.1⟩, hand.2⟩⟩

/-- Whatever the verb is, it is taken for one of the two. -/
theorem deserializeExact_protocol (h : deserializeExact m = some message) :
    message.protocol ≠ .invalid := by
  obtain ⟨_, _, h⟩ := Option.bind_eq_some_iff.mp h
  obtain ⟨numbers, _, rfl⟩ := Option.map_eq_some_iff.mp h
  dsimp only
  split <;> decide

/-- A line that passes the check is not refused. -/
theorem verified_not_refused (store : ConcurrentHashMap) (hv : verify (some m) = true) :
    handleMessage store (some m) ≠ some (refuse store) := by
  intro h
  rw [handleMessage, if_pos hv] at h
  obtain ⟨message, hm, hh⟩ := Option.map_eq_some_iff.mp h
  have hasked := congrArg Handled.asked hh
  unfold Message.handle at hasked
  split at hasked
  · cases hasked
  · cases hasked
  · rename_i he
    exact deserializeExact_protocol hm he

/-- **The grammar.** A line that `socket_get_line` has returned is handled as the
grammar says exactly when it is a request that an `int` can index and whose numbers an
`int` can hold while they are read, or fails the check of its length and its fourth
byte. -/
theorem lines_obeyed_iff {reads rest : List Read}
    (h : socketGetLine reads = some (some m, rest)) :
    ∃ l, m.Contains l ∧ IsLine l ∧ ∀ store, Obeys store m l ↔
      ((∃ op, Request 2147483599 l op) ∧ l.length ≤ 2 ^ 31 + 4) ∨
        ¬ (8 ≤ l.length ∧ l[3]? = some (char ' ')) := by
  obtain ⟨line, hl, hline⟩ := socketGetLine_line h
  refine ⟨line, hl, hline, fun store => ?_⟩
  rw [← verify_iff hl]
  by_cases hreq : ∃ op, Request intMax line op
  · obtain ⟨op, hop⟩ := hreq
    obtain ⟨hv, hhandled⟩ := request_handled store hl hop le_rfl
    rw [or_iff_left (not_not.mpr hv)]
    constructor
    · intro ho
      rcases hhandled with ⟨hnone, -⟩ | ⟨-, hfits, hlen⟩
      · exact absurd (hnone.symm.trans (ho.request op hop)) (Option.some_ne_none _).symm
      · exact ⟨⟨op, hfits⟩, hlen⟩
    · rintro ⟨⟨op', hop'⟩, hlen⟩
      -- it is handled, and so every reading of the line has numbers that fit
      obtain ⟨hnone, hlarge⟩ | ⟨hsome, -, -⟩ :=
        (request_handled store hl hop' (by decide)).2
      · exact absurd ⟨le_rfl, hlen⟩ hlarge
      refine ⟨fun op'' hop'' => ?_, fun hnone => absurd hop (hnone op)⟩
      obtain ⟨hnone, -⟩ | ⟨hasked, -, -⟩ := (request_handled store hl hop'' le_rfl).2
      · exact absurd (hnone.symm.trans hsome) (Option.some_ne_none _).symm
      · exact hasked
  · have hsmall : ¬ ∃ op, Request 2147483599 line op := fun ⟨op, hop⟩ =>
      hreq ⟨op, hop.mono (by decide)⟩
    rw [or_iff_right fun hand => hsmall hand.1]
    constructor
    · intro ho hv
      exact verified_not_refused store hv (ho.refused fun op hop => hreq ⟨op, hop⟩)
    · intro hv
      refine ⟨fun op hop => absurd ⟨op, hop⟩ hreq, fun _ => ?_⟩
      rw [handleMessage, if_neg hv]

theorem isNumber_twelve : IsNumber 2147483599 [1, 2] := ⟨by decide, by decide, by decide⟩

/-- `PUT 12,12`. -/
theorem put_twelve_obeyed : ∃ m rest, socketGetLine
    ((requestLine ['P', 'U', 'T'] [1, 2] [1, 2]).map .byte) = some (some m, rest) ∧
      Obeys (.new 100) m (requestLine ['P', 'U', 'T'] [1, 2] [1, 2]) := by
  obtain ⟨m, hc, hg⟩ := socketGetLine_read
    (bytes ['P', 'U', 'T', ' ', '1', '2', ',', '1', '2']) [] (by decide) (by decide)
  obtain ⟨line, hl, _, hiff⟩ := lines_obeyed_iff hg
  obtain rfl := hl.unique hc
  rw [List.append_nil] at hg
  refine ⟨m, [], hg, (hiff _).mpr (Or.inl ⟨⟨_, .put isNumber_twelve isNumber_twelve⟩, by decide⟩)⟩

/-- `DEL 1,2` is no request, and is not refused but added. -/
theorem unknown_verb_accepted : ∃ m,
    socketGetLine ((requestLine ['D', 'E', 'L'] [1] [2]).map .byte) = some (some m, []) ∧
      m.Contains (requestLine ['D', 'E', 'L'] [1] [2]) ∧
      handleMessage (.new 100) (some m) = some (ask (.new 100) (.add 1 2)) ∧
      ¬ Obeys (.new 100) m (requestLine ['D', 'E', 'L'] [1] [2]) := by
  obtain ⟨m, hc, hg⟩ := socketGetLine_read
    (bytes ['D', 'E', 'L', ' ', '1', ',', '2']) [] (by decide) (by decide)
  rw [List.append_nil] at hg
  have hv : verify (some m) = true := (verify_iff hc).mpr (by decide)
  have hline : m.Contains (requestLine ['D', 'E', 'L'] [1] [2]) := hc
  have hmessage := deserializeExact_request hline rfl (by decide) (by decide)
  rw [if_pos (by decide), if_neg (by decide)] at hmessage
  refine ⟨m, hg, hc, ?_, fun ho => ?_⟩
  · rw [handleMessage, if_pos hv, hmessage]
    rfl
  · refine verified_not_refused (.new 100) hv (ho.refused fun op hop => ?_)
    have hverb : ∀ l op, Request intMax l op → l[0]? ≠ some (char 'D') := by
      intro l op hop
      cases hop with
      | get => exact show some (char 'G') ≠ some (char 'D') by decide
      | put => exact show some (char 'P') ≠ some (char 'D') by decide
    exact hverb _ op hop rfl

end ConcurrentComputing.Tcp
