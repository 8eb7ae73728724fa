import ConcurrentComputing.PartitionedSet

/-! # The partitioned store byte by byte

What is under the calls and the answers: `stream_data`, whose `write` takes some of the
bytes, and `socket_get_line`, whose `read` takes one, in the threads of all the clients
and servers. Before its first call a client connects to one server after the other and
waits for the line of the master, the first of them, which is kept back until every
client has come. Connections stay up. -/

namespace ConcurrentComputing.Tcp.Wire

open Function Runs HashMap LazyList

/-- What a client does with its `Remote`. -/
inductive ClientPc where
  /-- in the constructor, with so many connections made -/
  | connect (made : Nat)
  | awaitMaster (response : Buffer)
  | idle
  /-- in `stream_data`, with the bytes that remain -/
  | stream (p : Sent) (rest : List Byte)
  | await (p : Sent) (response : Buffer)

/-- A `connection_handler`. -/
inductive HandlerPc where
  | absent
  | barrier
  | stream (rest : List Byte)
  | line (protocol : Buffer)
  | handle (protocol : Buffer)

/-- A client and its connections, by node: the thread at the other end, and what is on its
way to either end. -/
structure Session where
  pc : ClientPc
  handler : Nat → HandlerPc
  toServer : Nat → List Byte
  toClient : Nat → List Byte

def Session.init : Session := ⟨.connect 0, fun _ => .absent, fun _ => [], fun _ => []⟩

/-- `connected` counts the calls of `barrier_cross` on the barrier of the master; what
follows the stores is as in the system of lines. -/
structure State (κ : Type) where
  session : κ → Session
  connected : Nat
  stores : Nat → ConcurrentHashMap
  clock : Nat
  calls : List Sent
  served : List (Served κ)
  answered : List (Answered κ)

def State.init (κ : Type) : State κ := ⟨fun _ => .init, 0, fun _ => .new 100, 0, [], [], []⟩

inductive Event (κ : Type) where
  | connect (client : κ)
  /-- `barrier_cross` returns to the master's handler of the client -/
  | release (client : κ)
  | call (client : κ) (call : RemoteCall)
  /-- a `write` that takes so many bytes; none, if it is interrupted -/
  | clientWrite (client : κ) (n : Nat)
  | clientRead (client : κ)
  | serverRead (client : κ) (node : Nat)
  | serverHandle (client : κ) (node : Nat)
  | serverWrite (client : κ) (node : Nat) (n : Nat)

/-- The line of `send_initialization`. -/
def initialization : List Byte := bytes ['B', 'E', 'G', 'I', 'N'] ++ [char '\n']

/-- One `read` of `socket_get_line`: the message, whether it is complete, and what is left
to be read. -/
def readByte (message : Buffer) : List Byte → Option (Buffer × Bool × List Byte)
  | [] => none
  | data :: wire => (message.add data).map fun message => (message, decide (data = char '\n'), wire)

def ClientPc.sent : ClientPc → Option Sent
  | .stream p _ | .await p _ => some p
  | _ => none

variable {κ : Type} [DecidableEq κ]

def State.put (s : State κ) (c : κ) (r : Session) : State κ :=
  { s with session := update s.session c r }

/-- A step of `clients` clients, each with a connection to each of the `nodes` servers. -/
def step (nodes clients : Nat) (s : State κ) : Event κ → Option (State κ)
  | .connect c =>
    let r := s.session c
    match r.pc with
    | .connect made =>
      if made < nodes then some { s.put c { r with
          pc := if made + 1 < nodes then .connect (made + 1) else .awaitMaster (.new bufferSize)
          handler := update r.handler made
            (if made = 0 then .barrier else .line (.new bufferSize)) } with
        connected := if made = 0 then s.connected + 1 else s.connected }
      else none
    | _ => none
  | .release c =>
    let r := s.session c
    match r.handler 0 with
    | .barrier =>
      if clients ≤ s.connected then
        some (s.put c { r with handler := update r.handler 0 (.stream initialization) })
      else none
    | _ => none
  | .call c call =>
    let r := s.session c
    match r.pc with
    | .idle => some { s.put c { r with
          pc := .stream ⟨call, s.clock⟩ (sendMessage call.message) } with
        calls := s.calls ++ [⟨call, s.clock⟩]
        clock := s.clock + 1 }
    | _ => none
  | .clientWrite c n =>
    let r := s.session c
    match r.pc with
    | .stream p rest =>
      let node := hash nodes p.call.key
      if n ≤ rest.length then some (s.put c { r with
        pc := if n = rest.length then .await p (.new bufferSize) else .stream p (rest.drop n)
        toServer := update r.toServer node (r.toServer node ++ rest.take n) })
      else none
    | _ => none
  | .clientRead c =>
    let r := s.session c
    match r.pc with
    | .awaitMaster response =>
      (readByte response (r.toClient 0)).map fun (response, complete, wire) => s.put c { r with
        pc := if complete then .idle else .awaitMaster response
        toClient := update r.toClient 0 wire }
    | .await p response =>
      let node := hash nodes p.call.key
      (readByte response (r.toClient node)).bind fun (response, complete, wire) =>
        if complete then (awaitResponse (some response)).map fun answer =>
          { s.put c { r with pc := .idle, toClient := update r.toClient node wire } with
            answered := s.answered ++ [⟨c, p.call, p.sent, answer, s.clock⟩]
            clock := s.clock + 1 }
        else some (s.put c { r with
          pc := .await p response
          toClient := update r.toClient node wire })
    | _ => none
  | .serverRead c node =>
    let r := s.session c
    match r.handler node with
    | .line protocol =>
      (readByte protocol (r.toServer node)).map fun (protocol, complete, wire) => s.put c { r with
        handler := update r.handler node (if complete then .handle protocol else .line protocol)
        toServer := update r.toServer node wire }
    | _ => none
  | .serverHandle c node =>
    let r := s.session c
    match r.handler node with
    | .handle protocol =>
      match handleMessage (s.stores node) (some protocol) with
      | some ⟨_, some (store, result)⟩ =>
        some { s.put c { r with
            handler := update r.handler node (.stream (sendResponse result)) } with
          stores := update s.stores node store
          served := s.served ++ r.pc.sent.toList.map fun p => ⟨c, p.call, p.sent, result, s.clock⟩
          clock := s.clock + 1 }
      | _ => none
    | _ => none
  | .serverWrite c node n =>
    let r := s.session c
    match r.handler node with
    | .stream rest =>
      if n ≤ rest.length then some (s.put c { r with
        handler := update r.handler node
          (if n = rest.length then .line (.new bufferSize) else .stream (rest.drop n))
        toClient := update r.toClient node (r.toClient node ++ rest.take n) })
      else none
    | _ => none

/-! ## Lines in the making -/

/-- The buffer of a `socket_get_line` that has read the bytes. -/
def Collects (m : Buffer) (line : List Byte) : Prop :=
  line.foldlM Buffer.add (.new bufferSize) = some m

variable {m m' : Buffer} {line rest wire : List Byte} {b : Byte} {complete : Bool}

theorem Collects.new : Collects (.new bufferSize) [] := rfl

theorem Collects.add (h : Collects m line) (ha : m.add b = some m') :
    Collects m' (line ++ [b]) := by
  rw [Collects, List.foldlM_append, show line.foldlM _ _ = some m from h]
  simp [ha]

theorem Collects.unique (h : Collects m line) (h' : Collects m' line) : m = m' :=
  Option.some.inj (h.symm.trans h')

theorem Collects.maxSize (h : Collects m line) (hlen : line.length ≤ bufferSize) :
    m.Contains line ∧ m.maxSize = bufferSize := by
  induction line using List.reverseRecOn generalizing m with
  | nil =>
    cases h
    exact ⟨.new _, rfl⟩
  | append_singleton line b ih =>
    rw [Collects, List.foldlM_append, Option.bind_eq_bind, Option.bind_eq_some_iff] at h
    obtain ⟨m₀, h₀, hb⟩ := h
    rw [List.length_append, List.length_singleton] at hlen
    obtain ⟨hcontains, hmax⟩ := ih h₀ (by omega)
    have ha : m₀.add b = some m := by simpa using hb
    obtain ⟨m₁, hm₁, hmax₁⟩ := m₀.add_room (by rw [hcontains.size, hmax]; omega) b
    cases ha.symm.trans hm₁
    exact ⟨hcontains.add ha, hmax₁.trans hmax⟩

/-- Within the size of the buffer there is room. -/
theorem Collects.room (h : Collects m line) (hlen : line.length < bufferSize) (b : Byte) :
    ∃ m', m.add b = some m' := by
  obtain ⟨hcontains, hmax⟩ := h.maxSize hlen.le
  obtain ⟨m', hm', -⟩ := m.add_room (by rw [hcontains.size, hmax]; omega) b
  exact ⟨m', hm'⟩

theorem getLineLoop_bytes (m : Buffer) (hn : char '\n' ∉ line) (reads : List Read)
    (h : line.foldlM Buffer.add m = some m') :
    getLineLoop m (line.map .byte ++ reads) = getLineLoop m' reads := by
  induction line generalizing m with
  | nil =>
    cases h
    rfl
  | cons b line ih =>
    rw [List.mem_cons, not_or] at hn
    rw [List.foldlM_cons, Option.bind_eq_bind, Option.bind_eq_some_iff] at h
    obtain ⟨m₀, h₀, hrest⟩ := h
    simp only [List.map_cons, List.cons_append, getLineLoop, h₀, if_neg (Ne.symm hn.1)]
    exact ih m₀ hn.2 hrest

/-- The line that is complete is the one that `socket_get_line` returns on all of the bytes. -/
theorem Collects.socketGetLine (h : Collects m (line ++ [char '\n'])) (hn : char '\n' ∉ line)
    (wire : List Byte) :
    socketGetLine ((line ++ [char '\n'] ++ wire).map .byte) = some (some m, wire.map .byte) := by
  rw [Collects, List.foldlM_append, Option.bind_eq_bind, Option.bind_eq_some_iff] at h
  obtain ⟨m₀, h₀, hb⟩ := h
  have ha : m₀.add (char '\n') = some m := by simpa using hb
  rw [Tcp.socketGetLine, List.append_assoc, List.map_append, getLineLoop_bytes _ hn _ h₀,
    List.singleton_append, List.map_cons]
  simp [getLineLoop, ha]

theorem readByte_eq (h : readByte m wire = some (m', complete, rest)) :
    ∃ b, wire = b :: rest ∧ m.add b = some m' ∧ (complete = true ↔ b = char '\n') := by
  cases wire with
  | nil => cases h
  | cons b wire =>
    obtain ⟨m₁, hm₁, he⟩ := Option.map_eq_some_iff.mp h
    cases he
    exact ⟨b, rfl, hm₁, decide_eq_true_iff⟩

/-! ## The start -/

/-- Where a client may make calls. -/
def ClientPc.begun : ClientPc → Bool
  | .connect _ | .awaitMaster _ => false
  | _ => true

/-- Where a handler reads requests and answers them. -/
def HandlerPc.serves : HandlerPc → Bool
  | .absent | .barrier => false
  | _ => true

theorem HandlerPc.ne_absent {x : HandlerPc} (h : x.serves = true) : x ≠ .absent := by
  rintro rfl
  cases h

/-- What the master's handler has still to write before it serves. -/
def HandlerPc.greets : HandlerPc → List Byte
  | .absent | .barrier => initialization
  | .stream rest => rest
  | .line _ | .handle _ => []

/-- What `awaitMaster` has read. -/
def ClientPc.Greeted : ClientPc → List Byte → Prop
  | .awaitMaster m, line => Collects m line ∧ char '\n' ∉ line
  | _, line => line = []

/-- What holds of a client and its connections while `connected` clients have come. -/
structure Session.Inv (nodes clients connected : Nat) (r : Session) : Prop where
  connecting : ∀ made, r.pc = .connect made → made < nodes
  present : ∀ j, r.handler j ≠ .absent ↔ j < nodes ∧ ∀ made, r.pc = .connect made → j < made
  master : ∀ j, r.handler j = .barrier → j = 0 ∧ r.pc.begun = false
  released : (r.handler 0).serves = true → clients ≤ connected
  /-- Nothing is sent before the first call but the line of the master. -/
  silent : r.pc.begun = false → ∀ j, r.toServer j = [] ∧ (∀ m, r.handler j ≠ .handle m) ∧
    (j ≠ 0 → r.toClient j = [] ∧ ∀ rest, r.handler j ≠ .stream rest)
  greeting : r.pc.begun = false → ∃ line, r.pc.Greeted line ∧
    line ++ r.toClient 0 ++ (r.handler 0).greets = initialization
  unfinished : (∀ p, r.pc ≠ .stream p []) ∧ ∀ j, r.handler j ≠ .stream []

variable {nodes clients connected connected' made j n : Nat} {r r' : Session} {p : Sent}

theorem Session.Inv.init (hn : 0 < nodes) : Session.init.Inv nodes clients connected where
  connecting made h := by
    cases h
    exact hn
  present j := iff_of_false (fun h => h rfl) fun h => Nat.not_lt_zero j (h.2 0 rfl)
  master j h := by cases h
  released h := by cases h
  silent _ j := ⟨rfl, by simp [Session.init], by simp [Session.init]⟩
  greeting _ := ⟨[], rfl, rfl⟩
  unfinished := ⟨by simp [Session.init], by simp [Session.init]⟩

theorem Session.Inv.mono (h : r.Inv nodes clients connected) (hle : connected ≤ connected') :
    r.Inv nodes clients connected' :=
  { h with released := fun hs => (h.released hs).trans hle }

/-- The calls of a client, and what serves them. -/
theorem Session.Inv.call (h : r.Inv nodes clients connected) (hb : r.pc.begun = true)
    (hb' : r'.pc.begun = true) (hpc : ∀ p, r'.pc ≠ .stream p [])
    (hh : ∀ j, r'.handler j = r.handler j ∨
      ((r.handler j).serves = true ∧ (r'.handler j).serves = true ∧ r'.handler j ≠ .stream [])) :
    r'.Inv nodes clients connected where
  connecting made h' := by rw [h'] at hb'; cases hb'
  present j := by
    have hold : r.handler j ≠ .absent ↔ j < nodes := by
      rw [h.present]
      refine and_iff_left fun made h' => ?_
      rw [h'] at hb
      cases hb
    rcases hh j with he | ⟨hs, hs', -⟩
    · rw [he, hold]
      refine (and_iff_left fun made h' => ?_).symm
      rw [h'] at hb'
      cases hb'
    · refine iff_of_true (fun he => ?_) ⟨hold.mp fun he => ?_, fun made h' => ?_⟩
      · rw [he] at hs'
        cases hs'
      · rw [he] at hs
        cases hs
      · rw [h'] at hb'
        cases hb'
  master j h' := by
    rcases hh j with he | ⟨-, hs', -⟩
    · have hf := (h.master j (he ▸ h')).2
      rw [hb] at hf
      cases hf
    · rw [h'] at hs'
      cases hs'
  released h' := (hh 0).elim (fun he => h.released (he ▸ h')) fun hs => h.released hs.1
  silent hf := absurd (hb'.symm.trans hf) nofun
  greeting hf := absurd (hb'.symm.trans hf) nofun
  unfinished := ⟨hpc, fun j => (hh j).elim (fun he => he ▸ h.unfinished.2 j) fun hs => hs.2.2⟩

theorem Session.Inv.connect (h : r.Inv nodes clients connected) (hpc : r.pc = .connect made) :
    Session.Inv nodes clients connected { r with
      pc := if made + 1 < nodes then .connect (made + 1) else .awaitMaster (.new bufferSize)
      handler := update r.handler made
        (if made = 0 then .barrier else .line (.new bufferSize)) } := by
  have hbegun : r.pc.begun = false := by rw [hpc]; rfl
  have habsent : r.handler made = .absent := by
    by_contra hp
    exact Nat.lt_irrefl _ (((h.present made).mp hp).2 made hpc)
  have hmade := h.connecting made hpc
  obtain ⟨line, hline, hgreet⟩ := h.greeting hbegun
  rw [hpc] at hline
  obtain rfl : line = [] := hline
  refine ⟨fun made' h' => ?_, fun j => ?_, fun j h' => ?_, fun hs => ?_, fun _ j => ?_,
    fun _ => ⟨[], ?_, ?_⟩, fun q h' => ?_, fun j h' => ?_⟩
  · dsimp only at h'
    split at h'
    · cases h'
      assumption
    · cases h'
  · dsimp only
    by_cases hj : j = made
    · subst hj
      rw [update_self]
      refine iff_of_true (by split <;> simp) ⟨hmade, fun made' h' => ?_⟩
      split at h' <;> cases h'
      exact Nat.lt_succ_self _
    · rw [update_of_ne hj, h.present]
      refine and_congr_right fun hlt => ?_
      constructor
      · intro h' made' hm
        have hold := h' made hpc
        split at hm <;> cases hm
        omega
      · intro h' made' hm
        cases hpc.symm.trans hm
        by_cases hlast : made + 1 < nodes
        · have hnew := h' (made + 1) (if_pos hlast)
          omega
        · omega
  · dsimp only at h' ⊢
    refine ⟨?_, by split <;> rfl⟩
    by_cases hj : j = made
    · rw [hj, update_self] at h'
      split at h'
      · omega
      · cases h'
    · rw [update_of_ne hj] at h'
      exact (h.master j h').1
  · dsimp only at hs
    by_cases hm : 0 = made
    · rw [← hm, update_self, if_pos rfl] at hs
      cases hs
    · rw [update_of_ne hm] at hs
      exact h.released hs
  · obtain ⟨hserver, hhandle, hrest⟩ := h.silent hbegun j
    dsimp only
    by_cases hj : j = made
    · subst hj
      rw [update_self]
      refine ⟨hserver, fun m => by split <;> simp, fun h0 => ⟨(hrest h0).1, fun rest => ?_⟩⟩
      split <;> simp
    · rw [update_of_ne hj]
      exact ⟨hserver, hhandle, hrest⟩
  · dsimp only
    split
    · rfl
    · exact ⟨rfl, List.not_mem_nil⟩
  · dsimp only
    by_cases hm : 0 = made
    · rw [← hm, update_self, if_pos rfl]
      rw [← hm] at habsent
      rw [habsent] at hgreet
      exact hgreet
    · rw [update_of_ne hm]
      exact hgreet
  · dsimp only at h'
    split at h' <;> cases h'
  · dsimp only at h'
    by_cases hj : j = made
    · rw [hj, update_self] at h'
      split at h' <;> cases h'
    · rw [update_of_ne hj] at h'
      exact h.unfinished.2 j h'

/-- The master's handler of a client that has not begun goes on with its line. -/
theorem Session.Inv.greet (h : r.Inv nodes clients connected) (hbegun : r.pc.begun = false)
    (hpresent : r.handler 0 ≠ .absent) (hle : clients ≤ connected) {x : HandlerPc}
    (hx : (r.handler 0).greets = wire ++ x.greets) (hserves : x.serves = true)
    (hne : x ≠ .stream []) (hhandle : ∀ m, x ≠ .handle m) :
    Session.Inv nodes clients connected { r with
      handler := update r.handler 0 x
      toClient := update r.toClient 0 (r.toClient 0 ++ wire) } := by
  obtain ⟨line, hline, hgreet⟩ := h.greeting hbegun
  refine ⟨h.connecting, fun j => ?_, fun j h' => ⟨?_, hbegun⟩, fun _ => hle, fun _ j => ?_,
    fun _ => ⟨line, hline, ?_⟩, h.unfinished.1, fun j h' => ?_⟩
  · dsimp only
    by_cases hj : j = 0
    · subst hj
      rw [update_self]
      refine iff_of_true (fun he => ?_) ((h.present 0).mp hpresent)
      rw [he] at hserves
      cases hserves
    · rw [update_of_ne hj]
      exact h.present j
  · by_contra hj
    dsimp only at h'
    rw [update_of_ne hj] at h'
    exact hj (h.master j h').1
  · obtain ⟨hserver, hold, hrest⟩ := h.silent hbegun j
    dsimp only
    by_cases hj : j = 0
    · subst hj
      rw [update_self]
      exact ⟨hserver, hhandle, fun h0 => absurd rfl h0⟩
    · rw [update_of_ne hj, update_of_ne hj]
      exact ⟨hserver, hold, hrest⟩
  · dsimp only
    rw [update_self, update_self, ← hgreet, hx]
    simp
  · dsimp only at h'
    by_cases hj : j = 0
    · rw [hj, update_self] at h'
      exact hne h'
    · rw [update_of_ne hj] at h'
      exact h.unfinished.2 j h'

/-- When a newline has come, it is the end of the line. -/
theorem line_complete (line' : List Byte) (hn : char '\n' ∉ line')
    (h : line ++ char '\n' :: rest = line' ++ [char '\n']) : line = line' ∧ rest = [] := by
  obtain ⟨hline, -, hrest⟩ := (List.append_cons_inj_of_notMem hn List.not_mem_nil).mp h.symm
  exact ⟨hline.symm, hrest.symm⟩

/-- The client reads the line of the master, and then begins. -/
theorem Session.Inv.readGreeting (h : r.Inv nodes clients connected) (hpc : r.pc = .awaitMaster m)
    (hread : readByte m (r.toClient 0) = some (m', complete, wire)) :
    Session.Inv nodes clients connected { r with
      pc := if complete then .idle else .awaitMaster m'
      toClient := update r.toClient 0 wire } ∧
    (complete = true → wire = [] ∧ (r.handler 0).greets = []) := by
  have hbegun : r.pc.begun = false := by rw [hpc]; rfl
  obtain ⟨line, hline, hgreet⟩ := h.greeting hbegun
  rw [hpc] at hline
  obtain ⟨hcollects, hn⟩ : Collects m line ∧ char '\n' ∉ line := hline
  obtain ⟨b, hwire, hadd, hcomplete⟩ := readByte_eq hread
  rw [hwire] at hgreet
  have hpresent : ∀ j, r.handler j ≠ .absent ↔ j < nodes := by
    intro j
    rw [h.present]
    exact and_iff_left fun made h' => by rw [hpc] at h'; cases h'
  have hdone : complete = true → wire = [] ∧ (r.handler 0).greets = [] := by
    intro hc
    rw [hcomplete.mp hc, List.append_assoc, List.cons_append] at hgreet
    exact List.append_eq_nil_iff.mp
      (line_complete (bytes ['B', 'E', 'G', 'I', 'N']) (by decide) hgreet).2
  refine ⟨?_, hdone⟩
  cases complete with
  | true =>
    obtain ⟨-, hgreets⟩ := hdone rfl
    refine ⟨nofun, fun j => ?_, fun j h' => ?_, h.released, nofun, nofun,
      ⟨nofun, h.unfinished.2⟩⟩
    · rw [hpresent]
      exact (and_iff_left nofun).symm
    · obtain rfl := (h.master j h').1
      rw [show r.handler 0 = .barrier from h'] at hgreets
      cases hgreets
  | false =>
    refine ⟨nofun, fun j => ?_, fun j h' => ⟨(h.master j h').1, rfl⟩, h.released, fun _ j => ?_,
      fun _ => ⟨line ++ [b], ⟨hcollects.add hadd, ?_⟩, ?_⟩, ⟨nofun, h.unfinished.2⟩⟩
    · rw [hpresent]
      exact (and_iff_left nofun).symm
    · obtain ⟨hserver, hhandle, hrest⟩ := h.silent hbegun j
      refine ⟨hserver, hhandle, fun h0 => ?_⟩
      dsimp only
      rw [update_of_ne h0]
      exact hrest h0
    · intro hmem
      rcases List.mem_append.mp hmem with hmem | hmem
      · exact hn hmem
      · exact Bool.false_ne_true (hcomplete.mpr (List.mem_singleton.mp hmem).symm)
    · dsimp only
      rw [update_self, ← hgreet]
      simp

/-! ## Steps -/

variable {s s' : State κ} {c : κ} {call : RemoteCall} {e : Event κ}

/-- What a step of each kind has found and done. -/
inductive Effect (nodes clients : Nat) (s : State κ) (c : κ) (r : Session) :
    Event κ → State κ → Prop
  | connect {made : Nat} (hpc : r.pc = .connect made) (hlt : made < nodes) :
    Effect nodes clients s c r (.connect c) { s.put c { r with
        pc := if made + 1 < nodes then .connect (made + 1) else .awaitMaster (.new bufferSize)
        handler := update r.handler made (if made = 0 then .barrier else .line (.new bufferSize)) }
      with connected := if made = 0 then s.connected + 1 else s.connected }
  | release (hat : r.handler 0 = .barrier) (hle : clients ≤ s.connected) :
    Effect nodes clients s c r (.release c)
      (s.put c { r with handler := update r.handler 0 (.stream initialization) })
  | call {call : RemoteCall} (hpc : r.pc = .idle) :
    Effect nodes clients s c r (.call c call)
      { s.put c { r with pc := .stream ⟨call, s.clock⟩ (sendMessage call.message) } with
        calls := s.calls ++ [⟨call, s.clock⟩]
        clock := s.clock + 1 }
  | clientWrite {n : Nat} {p : Sent} {rest : List Byte} (hpc : r.pc = .stream p rest)
      (hle : n ≤ rest.length) :
    Effect nodes clients s c r (.clientWrite c n) (s.put c { r with
      pc := if n = rest.length then .await p (.new bufferSize) else .stream p (rest.drop n)
      toServer := update r.toServer (hash nodes p.call.key)
        (r.toServer (hash nodes p.call.key) ++ rest.take n) })
  | readGreeting {m m' : Buffer} {complete : Bool} {wire : List Byte} (hpc : r.pc = .awaitMaster m)
      (hread : readByte m (r.toClient 0) = some (m', complete, wire)) :
    Effect nodes clients s c r (.clientRead c) (s.put c { r with
      pc := if complete then .idle else .awaitMaster m'
      toClient := update r.toClient 0 wire })
  | clientRead {p : Sent} {m m' : Buffer} {wire : List Byte} (hpc : r.pc = .await p m)
      (hread : readByte m (r.toClient (hash nodes p.call.key)) = some (m', false, wire)) :
    Effect nodes clients s c r (.clientRead c) (s.put c { r with
      pc := .await p m'
      toClient := update r.toClient (hash nodes p.call.key) wire })
  | receive {p : Sent} {m m' : Buffer} {wire : List Byte} {answer : Result}
      (hpc : r.pc = .await p m)
      (hread : readByte m (r.toClient (hash nodes p.call.key)) = some (m', true, wire))
      (hanswer : awaitResponse (some m') = some answer) :
    Effect nodes clients s c r (.clientRead c)
      { s.put c { r with pc := .idle, toClient := update r.toClient (hash nodes p.call.key) wire }
        with
        answered := s.answered ++ [⟨c, p.call, p.sent, answer, s.clock⟩]
        clock := s.clock + 1 }
  | serverRead {j : Nat} {m m' : Buffer} {complete : Bool} {wire : List Byte}
      (hat : r.handler j = .line m)
      (hread : readByte m (r.toServer j) = some (m', complete, wire)) :
    Effect nodes clients s c r (.serverRead c j) (s.put c { r with
      handler := update r.handler j (if complete then .handle m' else .line m')
      toServer := update r.toServer j wire })
  | serverHandle {j : Nat} {m : Buffer} {asked : Option Op} {store : ConcurrentHashMap}
      {result : Result} (hat : r.handler j = .handle m)
      (hhandle : handleMessage (s.stores j) (some m) = some ⟨asked, some (store, result)⟩) :
    Effect nodes clients s c r (.serverHandle c j)
      { s.put c { r with handler := update r.handler j (.stream (sendResponse result)) } with
        stores := update s.stores j store
        served := s.served ++ r.pc.sent.toList.map fun p => ⟨c, p.call, p.sent, result, s.clock⟩
        clock := s.clock + 1 }
  | serverWrite {j n : Nat} {rest : List Byte} (hat : r.handler j = .stream rest)
      (hle : n ≤ rest.length) :
    Effect nodes clients s c r (.serverWrite c j n) (s.put c { r with
      handler := update r.handler j
        (if n = rest.length then .line (.new bufferSize) else .stream (rest.drop n))
      toClient := update r.toClient j (r.toClient j ++ rest.take n) })

def Event.client : Event κ → κ
  | .connect c | .release c | .call c _ | .clientWrite c _ | .clientRead c | .serverRead c _
  | .serverHandle c _ | .serverWrite c _ _ => c

theorem step_effect (h : Wire.step nodes clients s e = some s') :
    Effect nodes clients s e.client (s.session e.client) e s' := by
  cases e with
  | connect c =>
    simp only [Wire.step] at h
    split at h
    · rename_i made hpc
      split at h <;> cases h
      exact .connect hpc (by assumption)
    · cases h
  | release c =>
    simp only [Wire.step] at h
    split at h
    · rename_i hat
      split at h <;> cases h
      exact .release hat (by assumption)
    · cases h
  | call c call =>
    simp only [Wire.step] at h
    split at h <;> cases h
    exact .call (by assumption)
  | clientWrite c n =>
    simp only [Wire.step] at h
    split at h
    · rename_i p rest hpc
      split at h <;> cases h
      exact .clientWrite hpc (by assumption)
    · cases h
  | clientRead c =>
    simp only [Wire.step] at h
    split at h
    · rename_i m hpc
      obtain ⟨⟨m', complete, wire⟩, hread, he⟩ := Option.map_eq_some_iff.mp h
      cases he
      exact .readGreeting hpc hread
    · rename_i p m hpc
      obtain ⟨⟨m', complete, wire⟩, hread, he⟩ := Option.bind_eq_some_iff.mp h
      cases complete with
      | true =>
        obtain ⟨answer, hanswer, he⟩ := Option.map_eq_some_iff.mp he
        cases he
        exact .receive hpc hread hanswer
      | false =>
        cases he
        exact .clientRead hpc hread
    · cases h
  | serverRead c j =>
    simp only [Wire.step] at h
    split at h
    · rename_i m hat
      obtain ⟨⟨m', complete, wire⟩, hread, he⟩ := Option.map_eq_some_iff.mp h
      cases he
      exact .serverRead hat hread
    · cases h
  | serverHandle c j =>
    simp only [Wire.step] at h
    split at h
    · rename_i m hat
      split at h
      · rename_i asked store result hhandle
        cases h
        exact .serverHandle hat hhandle
      · cases h
    · cases h
  | serverWrite c j n =>
    simp only [Wire.step] at h
    split at h
    · rename_i rest hat
      split at h <;> cases h
      exact .serverWrite hat (by assumption)
    · cases h

theorem Session.Inv.put (h : ∀ c, (s.session c).Inv nodes clients s.connected)
    (hr : r.Inv nodes clients connected') (hle : s.connected ≤ connected') (c' : κ) :
    ((s.put c r).session c').Inv nodes clients connected' := by
  dsimp only [State.put]
  by_cases hc : c' = c
  · rw [hc, update_self]
    exact hr
  · rw [update_of_ne hc]
    exact (h c').mono hle

theorem Session.Inv.step (h : ∀ c, (s.session c).Inv nodes clients s.connected)
    (hs : Wire.step nodes clients s e = some s') (c' : κ) :
    (s'.session c').Inv nodes clients s'.connected := by
  have heffect := step_effect hs
  have hi := h e.client
  generalize e.client = c at heffect hi
  cases heffect with
  | @connect made hpc hlt =>
    have hle : s.connected ≤ if made = 0 then s.connected + 1 else s.connected := by
      split <;> omega
    exact Session.Inv.put h ((hi.connect hpc).mono hle) hle c'
  | release hat hle =>
    refine Session.Inv.put h ?_ le_rfl c'
    have hrest : ((s.session c).handler 0).greets =
        [] ++ (HandlerPc.stream initialization).greets := by
      rw [hat]
      rfl
    have hgreet := hi.greet (hi.master 0 hat).2 (by simp [hat]) hle hrest rfl
      (by simp [initialization]) (by simp)
    rwa [List.append_nil, update_eq_self] at hgreet
  | call hpc =>
    refine Session.Inv.put h ?_ le_rfl c'
    refine hi.call (by rw [hpc]; rfl) rfl (fun p he => ?_) fun _ => Or.inl rfl
    have hline : sendMessage _ = [] := (ClientPc.stream.inj he).2
    simp [sendMessage] at hline
  | @clientWrite n p rest hpc hle =>
    refine Session.Inv.put h ?_ le_rfl c'
    refine hi.call (by rw [hpc]; rfl) (by dsimp only; split <;> rfl) (fun q => ?_)
      fun _ => Or.inl rfl
    dsimp only
    split
    · simp
    · intro he
      have hnil := List.drop_eq_nil_iff.mp (ClientPc.stream.inj he).2
      omega
  | readGreeting hpc hread => exact Session.Inv.put h (hi.readGreeting hpc hread).1 le_rfl c'
  | clientRead hpc hread =>
    refine Session.Inv.put h ?_ le_rfl c'
    exact hi.call (by rw [hpc]; rfl) rfl (by simp) fun _ => Or.inl rfl
  | receive hpc hread hanswer =>
    refine Session.Inv.put h ?_ le_rfl c'
    exact hi.call (by rw [hpc]; rfl) rfl (by simp) fun _ => Or.inl rfl
  | @serverRead j m m' complete wire hat hread =>
    have hbegun : (s.session c).pc.begun = true := by
      by_contra hf
      rw [((hi.silent (Bool.eq_false_of_not_eq_true hf)) j).1] at hread
      cases hread
    refine Session.Inv.put h ?_ le_rfl c'
    refine hi.call hbegun hbegun hi.unfinished.1 fun j' => ?_
    dsimp only
    by_cases hj : j' = j
    · rw [hj, update_self, hat]
      exact Or.inr ⟨rfl, by split <;> rfl, by split <;> simp⟩
    · exact Or.inl (update_of_ne hj _ _)
  | @serverHandle j m asked store result hat hhandle =>
    have hbegun : (s.session c).pc.begun = true := by
      by_contra hf
      exact (hi.silent (Bool.eq_false_of_not_eq_true hf) j).2.1 m hat
    refine Session.Inv.put h ?_ le_rfl c'
    refine hi.call hbegun hbegun hi.unfinished.1 fun j' => ?_
    dsimp only
    by_cases hj : j' = j
    · rw [hj, update_self, hat]
      exact Or.inr ⟨rfl, rfl, fun he => by simp [sendResponse] at he⟩
    · exact Or.inl (update_of_ne hj _ _)
  | @serverWrite j n rest hat hle =>
    have hnew : (if n = rest.length then HandlerPc.line (.new bufferSize)
        else .stream (rest.drop n)) ≠ .stream [] := by
      split
      · simp
      · intro he
        have hnil := List.drop_eq_nil_iff.mp (HandlerPc.stream.inj he)
        omega
    refine Session.Inv.put h ?_ le_rfl c'
    cases hbegun : (s.session c).pc.begun with
    | true =>
      refine hi.call hbegun hbegun hi.unfinished.1 fun j' => ?_
      dsimp only
      by_cases hj : j' = j
      · rw [hj, update_self, hat]
        exact Or.inr ⟨rfl, by split <;> rfl, hnew⟩
      · exact Or.inl (update_of_ne hj _ _)
    | false =>
      obtain rfl : j = 0 := by
        by_contra hj
        exact ((hi.silent hbegun j).2.2 hj).2 rest hat
      have hserves : ((s.session c).handler 0).serves = true := by rw [hat]; rfl
      refine hi.greet hbegun (HandlerPc.ne_absent hserves) (hi.released hserves) ?_ (by split <;> rfl) hnew
        (by split <;> simp)
      rw [hat]
      split
      · rename_i hn
        rw [hn, List.take_length]
        exact (List.append_nil rest).symm
      · exact (List.take_append_drop n rest).symm

end ConcurrentComputing.Tcp.Wire
