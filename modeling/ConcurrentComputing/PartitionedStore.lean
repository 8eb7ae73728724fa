import ConcurrentComputing.TcpServer

/-! # The partitioned store

`App/Remote.cpp` over any number of servers: a key goes to the server that its
value leaves modulo their number, and a call waits for the line that answers it.
Every client has a connection of its own to every server, and its first line, the
`BEGIN` of the master, behind it. -/

namespace ConcurrentComputing.Tcp

open Function Runs Decimal HashMap LazyList

/-! ## The client -/

/-- A call of `Remote`. -/
inductive RemoteCall where
  | get (key : Word)
  | insert (data : Word × Word)
  deriving DecidableEq

namespace RemoteCall

def key : RemoteCall → Word
  | .get key => key
  | .insert data => data.1

def message : RemoteCall → Message
  | .get key => ⟨.get, (key, 0)⟩
  | .insert data => ⟨.put, data⟩

/-- The keys and values whose reading stays within the range of an `int`. -/
def InRange (call : RemoteCall) : Prop :=
  (0 ≤ call.message.data.1.toInt ∧ call.message.data.1.toInt ≤ 2147483599) ∧
    0 ≤ call.message.data.2.toInt ∧ call.message.data.2.toInt ≤ 2147483599

instance (call : RemoteCall) : Decidable call.InRange := inferInstanceAs (Decidable (_ ∧ _))

end RemoteCall

/-- `Remote::hash`: the key is converted to `size_t`, what is left to `unsigned int`. -/
def hash (nodes : Nat) (key : Word) : Nat := (key.toInt % 2 ^ 64).toNat % nodes % 2 ^ 32

def isSpace (c : Byte) : Bool := decide (c = 32) || (decide (9 ≤ c.toNat) && decide (c.toNat ≤ 13))

/-- The digits of `atoi`, up to what is none. -/
def atoiLoop (val : Int) : List (Option Byte) → Option Int
  | some c :: rest => if isDigit c then atoiLoop (val * 10 + (c.toInt - 48)) rest else some val
  | _ => none

/-- `none` where it would read what was never written or is not the buffer's. -/
def atoi : List (Option Byte) → Option Int
  | some c :: rest =>
    if isSpace c then atoi rest
    else if c = char '-' then (atoiLoop 0 rest).map fun val => -val
    else if c = char '+' then atoiLoop 0 rest
    else atoiLoop 0 (some c :: rest)
  | _ => none

/-- `(RESULT)val`, of the values the enumeration has. -/
def resultOf (val : Int) : Option Result :=
  if val = 0 then some .false
  else if val = 1 then some .true
  else if val = -1 then some .abortFailure
  else none

/-- The end of `awaitResponse`, on what `socket_get_line` returned. -/
def awaitResponse : Option Buffer → Option Result
  | none => some .abortFailure
  | some response =>
    (atoi (response.data.set (response.currentSize - 1) (some 0))).bind resultOf

/-! ## The system -/

structure Sent where
  call : RemoteCall
  sent : Nat

/-- A call that a server has made on its store; nothing reads the record. -/
structure Served (κ : Type) where
  client : κ
  call : RemoteCall
  sent : Nat
  result : Result
  served : Nat

structure Answered (κ : Type) where
  client : κ
  call : RemoteCall
  sent : Nat
  answer : Result
  answered : Nat

/-- The servers' stores, what is left to be read on either end of the connection of a
client and a server, and the calls in progress; then the calls so far. -/
structure State (κ : Type) where
  stores : Nat → ConcurrentHashMap
  toServer : κ → Nat → List Read
  toClient : κ → Nat → List Read
  waiting : κ → Option Sent
  clock : Nat
  calls : List Sent
  served : List (Served κ)
  answered : List (Answered κ)

def State.init (κ : Type) : State κ :=
  ⟨fun _ => .new 100, fun _ _ => [], fun _ _ => [], fun _ => none, 0, [], [], []⟩

inductive Event (κ : Type) where
  /-- `get` or `insert`, up to the end of `sendMessage` -/
  | call (client : κ) (call : RemoteCall)
  /-- one `handleMessage` of a server's thread -/
  | handle (client : κ) (node : Nat)
  /-- `awaitResponse` -/
  | receive (client : κ)

variable {κ : Type} [DecidableEq κ]

/-- One end of one connection. -/
def onWire (wires : κ → Nat → List Read) (client : κ) (node : Nat) (reads : List Read) :
    κ → Nat → List Read :=
  update wires client (update (wires client) node reads)

/-- A step over `nodes` servers. -/
def step (nodes : Nat) (s : State κ) : Event κ → Option (State κ)
  | .call c call =>
    match s.waiting c with
    | some _ => none
    | none => some { s with
        toServer := onWire s.toServer c (hash nodes call.key)
          (s.toServer c (hash nodes call.key) ++ (sendMessage call.message).map .byte)
        waiting := update s.waiting c (some ⟨call, s.clock⟩)
        calls := s.calls ++ [⟨call, s.clock⟩]
        clock := s.clock + 1 }
  | .handle c node =>
    if node < nodes then
      match socketGetLine (s.toServer c node) with
      | none => none
      | some (protocol, reads) =>
        match handleMessage (s.stores node) protocol with
        | some ⟨_, some (store, result)⟩ => some { s with
            stores := update s.stores node store
            toServer := onWire s.toServer c node reads
            toClient := onWire s.toClient c node
              (s.toClient c node ++ (sendResponse result).map .byte)
            served := s.served ++
              (s.waiting c).toList.map fun p => ⟨c, p.call, p.sent, result, s.clock⟩
            clock := s.clock + 1 }
        | _ => none
    else none
  | .receive c =>
    match s.waiting c with
    | none => none
    | some p =>
      match socketGetLine (s.toClient c (hash nodes p.call.key)) with
      | none => none
      | some (response, reads) => (awaitResponse response).map fun answer => { s with
          toClient := onWire s.toClient c (hash nodes p.call.key) reads
          waiting := update s.waiting c none
          answered := s.answered ++ [⟨c, p.call, p.sent, answer, s.clock⟩]
          clock := s.clock + 1 }

/-! ## One request, one answer -/

variable {call : RemoteCall} {store : ConcurrentHashMap} {S : Finset Int} {n : Nat}

/-- What a call asks of the store. -/
def RemoteCall.op : RemoteCall → Op
  | .get key => .contains key.toInt
  | .insert data => .add data.1.toInt data.2.toInt

theorem RemoteCall.InRange.key (h : call.InRange) :
    0 ≤ call.key.toInt ∧ call.key.toInt ≤ 2147483599 := by
  cases call <;> exact h.1

theorem hash_eq (h : call.InRange) : hash n call.key = call.key.toInt.toNat % n := by
  obtain ⟨hpos, hle⟩ := h.key
  have hmod : call.key.toInt % 2 ^ 64 = call.key.toInt := Int.emod_eq_of_lt hpos (by omega)
  have hlt := Nat.mod_le call.key.toInt.toNat n
  rw [hash, hmod, Nat.mod_eq_of_lt (by omega)]

theorem hash_lt (hn : 0 < n) (h : call.InRange) : hash n call.key < n :=
  hash_eq h ▸ Nat.mod_lt _ hn

/-- The server reads the line of a call and makes the call. -/
theorem call_handled (h : call.InRange) (store : ConcurrentHashMap) :
    ∃ m, socketGetLine ((sendMessage call.message).map .byte) = some (some m, []) ∧
      handleMessage store (some m) = some (ask store call.op) := by
  obtain ⟨m, hget, hc, hv⟩ := received call.message []
  rw [List.append_nil] at hget
  refine ⟨m, hget, ?_⟩
  obtain ⟨rest, hd⟩ := deserialize_sent hc (by cases call <;> nofun)
  obtain ⟨hprint, hval⟩ := printInt_nonneg h.2.1
  have hread := numbers_nonneg call.message.data.2 rest h.1.1
  rw [hprint, foldl_nextVal _ fun d hd => decimal_lt hd, hval] at hread
  have hexact : deserializeExact m = deserialize m := by
    have hline := hc
    rw [sendMessage_eq] at hline
    obtain ⟨rest, hexact, -⟩ := hline.deserialize_exact (verb_length _)
    rw [hexact, getTwoNumbersExact_numbers rest h.1.1 h.2.1, if_pos ⟨h.1.2, h.2.2⟩, Option.bind_some]
  rw [handleMessage, if_pos hv, hexact, hd, hread]
  cases call <;> rfl

/-- The client reads the result that the server wrote. -/
theorem response_awaited (result : Result) : ∃ m,
    socketGetLine ((sendResponse result).map .byte) = some (some m, []) ∧
      awaitResponse (some m) = some result := by
  have hline : ∀ (line : List Byte) (val : Int), char '\n' ∉ line → line.length < bufferSize →
      (∀ rest, atoi (line.map some ++ some 0 :: rest) = some val) → ∃ m,
        socketGetLine ((line ++ [char '\n']).map .byte) = some (some m, []) ∧
          awaitResponse (some m) = resultOf val := by
    intro line val hn hfit hatoi
    obtain ⟨m, ⟨hsize, rest, hdata⟩, hget⟩ := socketGetLine_read line [] hn hfit
    rw [List.append_nil] at hget
    refine ⟨m, hget, ?_⟩
    have hset : m.data.set (m.currentSize - 1) (some 0) = line.map some ++ some 0 :: rest := by
      rw [hdata, hsize, List.map_append, List.append_assoc, List.length_append,
        List.length_singleton, Nat.add_sub_cancel, List.set_append_right _ _ (by simp)]
      simp
    rw [awaitResponse, hset, hatoi, Option.bind_some]
  cases result with
  | «false» => exact hline [char '0'] 0 (by decide) (by decide) fun _ => rfl
  | «true» => exact hline [char '1'] 1 (by decide) (by decide) fun _ => rfl
  | abortFailure => exact hline [char '-', char '1'] (-1) (by decide) (by decide) fun _ => rfl

/-- A store answers a call as a set does. -/
theorem call_answered (hr : store.Represents S) (hb : store.Countable) (h : call.InRange) :
    ∃ store', store.call call.op = some (store', (Op.answer S call.op).1) ∧ store'.Countable ∧
      store'.Represents (Op.answer S call.op).2 := by
  obtain ⟨hpos, hle⟩ := h.key
  have hk : LazyList.intMin ≤ call.key.toInt ∧ call.key.toInt ≤ LazyList.intMax := by
    unfold LazyList.intMin LazyList.intMax
    omega
  have hmin : call.key.toInt ≠ LazyList.intMin := by
    unfold LazyList.intMin
    omega
  have hmax : call.key.toInt ≠ LazyList.intMax := by
    unfold LazyList.intMax
    omega
  cases call with
  | get key =>
    have hcall := hr.contains hb hk
    simp only [hmin, hmax, false_or] at hcall
    exact ⟨store, hcall, hb, hr⟩
  | insert data =>
    obtain ⟨store', hcall, hb', hr'⟩ := hr.add hb hk data.2.toInt
    simp only [hmax, false_or] at hcall
    exact ⟨store', hcall, hb', hr' hmax⟩

end ConcurrentComputing.Tcp
