import ConcurrentComputing.WireBytes

/-! # Bytes make up lines

However the bytes of the calls and of the answers are written and read, the system of
bytes does what the system of lines does: a call is made there at once, a request handled
when its handler has got all of it, an answer received with its last byte. -/

namespace ConcurrentComputing.Tcp.Wire

open Function Runs HashMap LazyList

variable {κ : Type} {nodes clients connected made j n : Nat} {r r' : Session} {p : Sent}
  {line rest wire : List Byte} {b : Byte} {m m' : Buffer} {complete : Bool}
  {waiting : Option Sent} {toServer toClient : Nat → List Read}

/-! ## Both ends of a connection -/

/-- What a handler has read of a request. -/
def HandlerPc.Reads : HandlerPc → List Byte → Prop
  | .line m, line => Collects m line ∧ char '\n' ∉ line
  | .handle m, line => Collects m line ∧ ∃ line', line = line' ++ [char '\n'] ∧ char '\n' ∉ line'
  | _, line => line = []

def HandlerPc.unsent : HandlerPc → List Byte
  | .stream rest => rest
  | _ => []

/-- What a client has read of an answer from a node. -/
def ClientPc.Reads (nodes j : Nat) : ClientPc → List Byte → Prop
  | .await p m, line =>
    if hash nodes p.call.key = j then Collects m line ∧ char '\n' ∉ line else line = []
  | _, line => line = []

def ClientPc.unsent (nodes j : Nat) : ClientPc → List Byte
  | .stream p rest => if hash nodes p.call.key = j then rest else []
  | _ => []

/-- The bytes between a client and a node, and what either end has read or has still to
write of them, are what the system of lines has between them. -/
structure Session.Matches (nodes : Nat) (r : Session) (waiting : Option Sent)
    (toServer toClient : Nat → List Read) : Prop where
  sent : waiting = r.pc.sent
  server : ∀ j, ∃ line, (r.handler j).Reads line ∧
    toServer j = (line ++ r.toServer j ++ r.pc.unsent nodes j).map .byte
  client : ∀ j, r.pc.begun = true → ∃ line, r.pc.Reads nodes j line ∧
    toClient j = (line ++ r.toClient j ++ (r.handler j).unsent).map .byte
  silent : r.pc.begun = false → ∀ j, toClient j = []

/-- A state of the system of bytes, and the one of the system of lines that it stands for. -/
structure Refines (nodes : Nat) (s : State κ) (t : Tcp.State κ) : Prop where
  stores : t.stores = s.stores
  clock : t.clock = s.clock
  calls : t.calls = s.calls
  served : t.served = s.served
  answered : t.answered = s.answered
  sessions : ∀ c, (s.session c).Matches nodes (t.waiting c) (t.toServer c) (t.toClient c)

theorem refines_init : Refines nodes (State.init κ) (Tcp.State.init κ) where
  stores := rfl
  clock := rfl
  calls := rfl
  served := rfl
  answered := rfl
  sessions _ :=
    ⟨rfl, fun _ => ⟨[], rfl, rfl⟩, fun _ h => (Bool.false_ne_true h).elim, fun _ _ => rfl⟩

theorem HandlerPc.reads_line (hread : readByte m wire = some (m', complete, rest))
    (hline : (HandlerPc.line m).Reads line) :
    ∃ b, wire = b :: rest ∧
      (if complete then HandlerPc.handle m' else .line m').Reads (line ++ [b]) := by
  obtain ⟨b, hwire, hadd, hcomplete⟩ := readByte_eq hread
  obtain ⟨hcollects, hn⟩ : Collects m line ∧ char '\n' ∉ line := hline
  refine ⟨b, hwire, ?_⟩
  cases complete with
  | true => exact ⟨hcollects.add hadd, line, by rw [hcomplete.mp rfl], hn⟩
  | false =>
    refine ⟨hcollects.add hadd, fun hmem => ?_⟩
    rcases List.mem_append.mp hmem with hmem | hmem
    · exact hn hmem
    · exact Bool.false_ne_true (hcomplete.mpr (List.mem_singleton.mp hmem).symm)

/-- A `stream_data` that has written some of its bytes, or all. -/
theorem take_append_left {x : List Byte} (h : x = if n = rest.length then [] else rest.drop n) :
    rest.take n ++ x = rest := by
  rw [h]
  split
  · rename_i hn
    rw [hn, List.take_length, List.append_nil]
  · exact List.take_append_drop n rest

/-! ## The steps that the system of lines does not take -/

theorem Session.Matches.connect (h : r.Matches nodes waiting toServer toClient)
    (hi : r.Inv nodes clients connected) (hpc : r.pc = .connect made) :
    Session.Matches nodes { r with
      pc := if made + 1 < nodes then .connect (made + 1) else .awaitMaster (.new bufferSize)
      handler := update r.handler made (if made = 0 then .barrier else .line (.new bufferSize)) }
      waiting toServer toClient := by
  have hsilent := h.silent (by rw [hpc]; rfl)
  have habsent : r.handler made = .absent := by
    by_contra hp
    exact Nat.lt_irrefl _ (((hi.present made).mp hp).2 made hpc)
  refine ⟨?_, fun j => ?_, fun j hb => ?_, fun _ => hsilent⟩
  · rw [h.sent, hpc]
    dsimp only
    split <;> rfl
  · obtain ⟨line, hline, hserver⟩ := h.server j
    have hunsent : (if made + 1 < nodes then ClientPc.connect (made + 1)
        else .awaitMaster (.new bufferSize)).unsent nodes j = r.pc.unsent nodes j := by
      rw [hpc]
      split <;> rfl
    refine ⟨line, ?_, hserver.trans (by rw [← hunsent])⟩
    dsimp only
    by_cases hj : j = made
    · rw [hj, habsent] at hline
      obtain rfl : line = [] := hline
      rw [hj, update_self]
      split
      · rfl
      · exact ⟨.new, List.not_mem_nil⟩
    · rwa [update_of_ne hj]
  · dsimp only at hb
    split at hb <;> cases hb

theorem Session.Matches.release (h : r.Matches nodes waiting toServer toClient)
    (hi : r.Inv nodes clients connected) (hat : r.handler 0 = .barrier) :
    Session.Matches nodes { r with handler := update r.handler 0 (.stream initialization) }
      waiting toServer toClient := by
  refine ⟨h.sent, fun j => ?_, fun j hb => ?_, h.silent⟩
  · obtain ⟨line, hline, hserver⟩ := h.server j
    refine ⟨line, ?_, hserver⟩
    dsimp only
    by_cases hj : j = 0
    · rw [hj, hat] at hline
      rwa [hj, update_self]
    · rwa [update_of_ne hj]
  · rw [(hi.master 0 hat).2] at hb
    cases hb

theorem Session.Matches.clientWrite (h : r.Matches nodes waiting toServer toClient)
    (hpc : r.pc = .stream p rest) : Session.Matches nodes { r with
      pc := if n = rest.length then .await p (.new bufferSize) else .stream p (rest.drop n)
      toServer := update r.toServer (hash nodes p.call.key)
        (r.toServer (hash nodes p.call.key) ++ rest.take n) } waiting toServer toClient := by
  have hbegun : r.pc.begun = true := by rw [hpc]; rfl
  have hunsent : ∀ j, (if n = rest.length then ClientPc.await p (.new bufferSize)
      else .stream p (rest.drop n)).unsent nodes j = if hash nodes p.call.key = j then
        (if n = rest.length then [] else rest.drop n) else [] := by
    intro j
    by_cases hn : n = rest.length
    · rw [if_pos hn, if_pos hn, ite_self]
      rfl
    · rw [if_neg hn, if_neg hn]
      rfl
  refine ⟨?_, fun j => ?_, fun j _ => ?_, fun hf => ?_⟩
  · rw [h.sent, hpc]
    dsimp only
    split <;> rfl
  · obtain ⟨line, hline, hserver⟩ := h.server j
    refine ⟨line, hline, ?_⟩
    rw [hserver, hunsent, hpc]
    dsimp only
    by_cases hj : hash nodes p.call.key = j
    · subst hj
      rw [update_self, ClientPc.unsent, if_pos rfl, if_pos rfl, List.append_assoc,
        List.append_assoc, List.append_assoc, take_append_left rfl]
    · rw [update_of_ne (Ne.symm hj), ClientPc.unsent, if_neg hj, if_neg hj]
  · obtain ⟨line, hline, hclient⟩ := h.client j hbegun
    rw [hpc] at hline
    obtain rfl : line = [] := hline
    refine ⟨[], ?_, hclient⟩
    dsimp only
    split
    · rw [ClientPc.Reads]
      split
      · exact ⟨.new, List.not_mem_nil⟩
      · rfl
    · rfl
  · dsimp only at hf
    split at hf <;> cases hf

theorem Session.Matches.readGreeting (h : r.Matches nodes waiting toServer toClient)
    (hi : r.Inv nodes clients connected) (hpc : r.pc = .awaitMaster m)
    (hread : readByte m (r.toClient 0) = some (m', complete, wire)) : Session.Matches nodes { r with
      pc := if complete then .idle else .awaitMaster m'
      toClient := update r.toClient 0 wire } waiting toServer toClient := by
  have hbegun : r.pc.begun = false := by rw [hpc]; rfl
  refine ⟨?_, fun j => ?_, fun j hb => ⟨[], ?_, ?_⟩, fun _ => h.silent hbegun⟩
  · rw [h.sent, hpc]
    cases complete <;> rfl
  · obtain ⟨line, hline, hserver⟩ := h.server j
    refine ⟨line, hline, hserver.trans ?_⟩
    rw [hpc]
    cases complete <;> rfl
  · cases complete with
    | true => rfl
    | false => cases hb
  · cases complete with
    | false => cases hb
    | true =>
      obtain ⟨hwire, hgreets⟩ := (hi.readGreeting hpc hread).2 rfl
      rw [h.silent hbegun]
      dsimp only
      by_cases hj : j = 0
      · subst hj
        rw [update_self, hwire]
        cases hat : r.handler 0 with
        | absent | barrier => rw [hat] at hgreets; cases hgreets
        | stream rest =>
          rw [hat] at hgreets
          obtain rfl : rest = [] := hgreets
          exact absurd hat (hi.unfinished.2 0)
        | line m | handle m => rfl
      · obtain ⟨-, -, hrest⟩ := hi.silent hbegun j
        obtain ⟨hclient, hstream⟩ := hrest hj
        rw [update_of_ne hj, hclient]
        cases hat : r.handler j with
        | stream rest => exact absurd hat (hstream rest)
        | absent | barrier | line m | handle m => rfl

theorem Session.Matches.clientRead (h : r.Matches nodes waiting toServer toClient)
    (hpc : r.pc = .await p m)
    (hread : readByte m (r.toClient (hash nodes p.call.key)) = some (m', false, wire)) :
    Session.Matches nodes { r with
      pc := .await p m'
      toClient := update r.toClient (hash nodes p.call.key) wire } waiting toServer toClient := by
  have hbegun : r.pc.begun = true := by rw [hpc]; rfl
  refine ⟨?_, fun j => ?_, fun j _ => ?_, nofun⟩
  · rw [h.sent, hpc]
    rfl
  · obtain ⟨line, hline, hserver⟩ := h.server j
    rw [hpc] at hserver
    exact ⟨line, hline, hserver⟩
  · obtain ⟨line, hline, hclient⟩ := h.client j hbegun
    rw [hpc, ClientPc.Reads] at hline
    by_cases hj : hash nodes p.call.key = j
    · subst hj
      rw [if_pos rfl] at hline
      obtain ⟨b, hwire, hnext⟩ := HandlerPc.reads_line hread hline
      rw [hwire] at hclient
      refine ⟨line ++ [b], ?_, hclient.trans ?_⟩
      · dsimp only
        rw [ClientPc.Reads, if_pos rfl]
        exact hnext
      · dsimp only
        rw [update_self]
        simp
    · rw [if_neg hj] at hline
      refine ⟨line, ?_, hclient.trans ?_⟩
      · dsimp only
        rwa [ClientPc.Reads, if_neg hj]
      · dsimp only
        rw [update_of_ne (Ne.symm hj)]

theorem Session.Matches.serverRead (h : r.Matches nodes waiting toServer toClient)
    (hat : r.handler j = .line m)
    (hread : readByte m (r.toServer j) = some (m', complete, wire)) : Session.Matches nodes { r with
      handler := update r.handler j (if complete then .handle m' else .line m')
      toServer := update r.toServer j wire } waiting toServer toClient := by
  refine ⟨h.sent, fun j' => ?_, fun j' hb => ?_, h.silent⟩
  · obtain ⟨line, hline, hserver⟩ := h.server j'
    dsimp only
    by_cases hj : j' = j
    · subst hj
      rw [hat] at hline
      obtain ⟨b, hwire, hnext⟩ := HandlerPc.reads_line hread hline
      rw [hwire] at hserver
      refine ⟨line ++ [b], by rwa [update_self], hserver.trans ?_⟩
      rw [update_self]
      simp
    · rw [update_of_ne hj, update_of_ne hj]
      exact ⟨line, hline, hserver⟩
  · obtain ⟨line, hline, hclient⟩ := h.client j' hb
    refine ⟨line, hline, hclient.trans ?_⟩
    dsimp only
    by_cases hj : j' = j
    · rw [hj, update_self, hat]
      cases complete <;> rfl
    · rw [update_of_ne hj]

theorem Session.Matches.serverWrite (h : r.Matches nodes waiting toServer toClient)
    (hat : r.handler j = .stream rest) : Session.Matches nodes { r with
      handler := update r.handler j
        (if n = rest.length then .line (.new bufferSize) else .stream (rest.drop n))
      toClient := update r.toClient j (r.toClient j ++ rest.take n) }
      waiting toServer toClient := by
  have hunsent : (if n = rest.length then HandlerPc.line (.new bufferSize)
      else .stream (rest.drop n)).unsent = if n = rest.length then [] else rest.drop n := by
    split <;> rfl
  refine ⟨h.sent, fun j' => ?_, fun j' hb => ?_, h.silent⟩
  · obtain ⟨line, hline, hserver⟩ := h.server j'
    refine ⟨line, ?_, hserver⟩
    dsimp only
    by_cases hj : j' = j
    · subst hj
      rw [hat] at hline
      obtain rfl : line = [] := hline
      rw [update_self]
      split
      · exact ⟨.new, List.not_mem_nil⟩
      · rfl
    · rwa [update_of_ne hj]
  · obtain ⟨line, hline, hclient⟩ := h.client j' hb
    refine ⟨line, hline, hclient.trans ?_⟩
    dsimp only
    by_cases hj : j' = j
    · subst hj
      rw [update_self, update_self, hunsent, hat, HandlerPc.unsent, List.append_assoc,
        List.append_assoc, List.append_assoc, take_append_left rfl]
    · rw [update_of_ne hj, update_of_ne hj]

/-! ## The steps that it takes -/

theorem Session.Matches.call (h : r.Matches nodes waiting toServer toClient) (hpc : r.pc = .idle) :
    Session.Matches nodes { r with pc := .stream p (sendMessage p.call.message) } (some p)
      (update toServer (hash nodes p.call.key)
        (toServer (hash nodes p.call.key) ++ (sendMessage p.call.message).map .byte)) toClient := by
  have hbegun : r.pc.begun = true := by rw [hpc]; rfl
  refine ⟨rfl, fun j => ?_, fun j _ => ?_, nofun⟩
  · obtain ⟨line, hline, hserver⟩ := h.server j
    rw [hpc, show ClientPc.idle.unsent nodes j = [] from rfl, List.append_nil] at hserver
    refine ⟨line, hline, ?_⟩
    dsimp only
    rw [ClientPc.unsent]
    by_cases hj : hash nodes p.call.key = j
    · subst hj
      rw [update_self, if_pos rfl, hserver, ← List.map_append]
    · rw [update_of_ne (Ne.symm hj), if_neg hj, hserver, List.append_nil]
  · obtain ⟨line, hline, hclient⟩ := h.client j hbegun
    rw [hpc] at hline
    exact ⟨line, hline, hclient⟩

theorem Session.Matches.receive (h : r.Matches nodes waiting toServer toClient)
    (hpc : r.pc = .await p m)
    (hread : readByte m (r.toClient (hash nodes p.call.key)) = some (m', true, wire)) :
    ∃ reads, socketGetLine (toClient (hash nodes p.call.key)) = some (some m', reads) ∧
      Session.Matches nodes { r with
        pc := .idle
        toClient := update r.toClient (hash nodes p.call.key) wire } none toServer
        (update toClient (hash nodes p.call.key) reads) := by
  have hbegun : r.pc.begun = true := by rw [hpc]; rfl
  obtain ⟨line, hline, hclient⟩ := h.client (hash nodes p.call.key) hbegun
  rw [hpc, ClientPc.Reads, if_pos rfl] at hline
  obtain ⟨b, hwire, hadd, hcomplete⟩ := readByte_eq hread
  obtain rfl := hcomplete.mp rfl
  have hline' : Collects m' (line ++ [char '\n']) := hline.1.add hadd
  refine ⟨(wire ++ (r.handler (hash nodes p.call.key)).unsent).map .byte, ?_, rfl, fun j => ?_,
    fun j _ => ⟨[], rfl, ?_⟩, nofun⟩
  · rw [hclient, hwire, ← hline'.socketGetLine hline.2]
    simp
  · obtain ⟨line, hline, hserver⟩ := h.server j
    rw [hpc] at hserver
    exact ⟨line, hline, hserver⟩
  · dsimp only
    by_cases hj : hash nodes p.call.key = j
    · subst hj
      rw [update_self, update_self, List.nil_append]
    · obtain ⟨line, hline, hclient⟩ := h.client j hbegun
      rw [hpc, ClientPc.Reads, if_neg hj] at hline
      rw [update_of_ne (Ne.symm hj), update_of_ne (Ne.symm hj), hclient, hline]

theorem Session.Matches.serverHandle (h : r.Matches nodes waiting toServer toClient)
    (hbegun : r.pc.begun = true) (hat : r.handler j = .handle m) (response : List Byte) :
    ∃ reads, socketGetLine (toServer j) = some (some m, reads) ∧
      Session.Matches nodes { r with handler := update r.handler j (.stream response) } waiting
        (update toServer j reads) (update toClient j (toClient j ++ response.map .byte)) := by
  obtain ⟨line, hline, hserver⟩ := h.server j
  rw [hat] at hline
  obtain ⟨hcollects, line', rfl, hn⟩ := hline
  refine ⟨(r.toServer j ++ r.pc.unsent nodes j).map .byte, ?_, h.sent, fun j' => ?_, fun j' _ => ?_,
    fun hf => absurd (hbegun.symm.trans hf) nofun⟩
  · rw [hserver, ← hcollects.socketGetLine hn, List.append_assoc]
  · dsimp only
    by_cases hj : j' = j
    · subst hj
      rw [update_self, update_self]
      exact ⟨[], rfl, by rw [List.nil_append]⟩
    · rw [update_of_ne hj, update_of_ne hj]
      exact h.server j'
  · obtain ⟨line, hline, hclient⟩ := h.client j' hbegun
    refine ⟨line, hline, ?_⟩
    dsimp only
    by_cases hj : j' = j
    · subst hj
      rw [hat, show (HandlerPc.handle m).unsent = [] from rfl, List.append_nil] at hclient
      rw [update_self, update_self, hclient, ← List.map_append]
      rfl
    · rw [update_of_ne hj, update_of_ne hj]
      exact hclient

/-! ## The simulation -/

variable [DecidableEq κ] {s s' : State κ} {t t' : Tcp.State κ} {c : κ} {e : Event κ}
  {es : List (Event κ)} {clock : Nat}

theorem Refines.put (h : Refines nodes s t)
    (hr : r.Matches nodes (t'.waiting c) (t'.toServer c) (t'.toClient c))
    (hothers : ∀ c' ≠ c, t'.waiting c' = t.waiting c' ∧ t'.toServer c' = t.toServer c' ∧
      t'.toClient c' = t.toClient c') (c' : κ) :
    ((s.put c r).session c').Matches nodes (t'.waiting c') (t'.toServer c') (t'.toClient c') := by
  dsimp only [State.put]
  by_cases hc : c' = c
  · rw [hc, update_self]
    exact hr
  · obtain ⟨hwaiting, hserver, hclient⟩ := hothers c' hc
    rw [update_of_ne hc, hwaiting, hserver, hclient]
    exact h.sessions c'

/-- A step that only moves bytes. -/
theorem Refines.same (h : Refines nodes s t)
    (hr : r.Matches nodes (t.waiting c) (t.toServer c) (t.toClient c)) :
    Refines nodes (s.put c r) t :=
  ⟨h.stores, h.clock, h.calls, h.served, h.answered, h.put hr fun _ _ => ⟨rfl, rfl, rfl⟩⟩

theorem onWire_self {wires : κ → Nat → List Read} {reads : List Read} :
    onWire wires c j reads c = update (wires c) j reads := update_self _ _ _

theorem onWire_of_ne {wires : κ → Nat → List Read} {reads : List Read} {c' : κ} (h : c' ≠ c) :
    onWire wires c j reads c' = wires c' := update_of_ne h _ _

theorem wire_simulates : Simulates (Wire.step nodes clients) (Tcp.step nodes)
    (fun s t => (∀ c : κ, (s.session c).Inv nodes clients s.connected) ∧ Refines nodes s t) := by
  rintro s e s' t ⟨hinv, h⟩ hs
  suffices hsim : ∃ es' t', exec (Tcp.step nodes) t es' = some t' ∧ Refines nodes s' t' by
    obtain ⟨es', t', hrun, h'⟩ := hsim
    exact ⟨es', t', hrun, Session.Inv.step hinv hs, h'⟩
  have heffect := step_effect hs
  have hi := hinv e.client
  have hm := h.sessions e.client
  generalize e.client = c at heffect hi hm
  cases heffect with
  | connect hpc hlt =>
    have hput := h.same (hm.connect hi hpc)
    exact ⟨[], t, rfl, hput.stores, hput.clock, hput.calls, hput.served, hput.answered,
      hput.sessions⟩
  | release hat hle => exact ⟨[], t, rfl, h.same (hm.release hi hat)⟩
  | clientWrite hpc hle => exact ⟨[], t, rfl, h.same (hm.clientWrite hpc)⟩
  | readGreeting hpc hread => exact ⟨[], t, rfl, h.same (hm.readGreeting hi hpc hread)⟩
  | clientRead hpc hread => exact ⟨[], t, rfl, h.same (hm.clientRead hpc hread)⟩
  | serverRead hat hread => exact ⟨[], t, rfl, h.same (hm.serverRead hat hread)⟩
  | serverWrite hat hle => exact ⟨[], t, rfl, h.same (hm.serverWrite hat)⟩
  | @call call hpc =>
    have hwaiting : t.waiting c = none := by rw [hm.sent, hpc]; rfl
    have hstep : Tcp.step nodes t (.call c call) = some { t with
        toServer := onWire t.toServer c (hash nodes call.key)
          (t.toServer c (hash nodes call.key) ++ (sendMessage call.message).map .byte)
        waiting := update t.waiting c (some ⟨call, t.clock⟩)
        calls := t.calls ++ [⟨call, t.clock⟩]
        clock := t.clock + 1 } := by
      rw [Tcp.step, hwaiting]
    refine ⟨[.call c call], _, exec_cons.mpr ⟨_, hstep, rfl⟩, h.stores, ?_, ?_, h.served,
      h.answered, h.put ?_ fun c' hc => ⟨update_of_ne hc _ _, onWire_of_ne hc, rfl⟩⟩
    · exact congrArg (· + 1) h.clock
    · dsimp only
      rw [h.calls, h.clock]
    · dsimp only
      rw [update_self, onWire_self, ← h.clock]
      exact hm.call (p := ⟨call, t.clock⟩) hpc
  | @receive p m m' wire answer hpc hread hanswer =>
    have hwaiting : t.waiting c = some p := by rw [hm.sent, hpc]; rfl
    obtain ⟨reads, hline, hm'⟩ := hm.receive hpc hread
    have hstep : Tcp.step nodes t (.receive c) = some { t with
        toClient := onWire t.toClient c (hash nodes p.call.key) reads
        waiting := update t.waiting c none
        answered := t.answered ++ [⟨c, p.call, p.sent, answer, t.clock⟩]
        clock := t.clock + 1 } := by
      simp only [Tcp.step, hwaiting, hline, hanswer, Option.map_some]
    refine ⟨[.receive c], _, exec_cons.mpr ⟨_, hstep, rfl⟩, h.stores, ?_, h.calls, h.served, ?_,
      h.put ?_ fun c' hc => ⟨update_of_ne hc _ _, rfl, onWire_of_ne hc⟩⟩
    · exact congrArg (· + 1) h.clock
    · dsimp only
      rw [h.answered, h.clock]
    · dsimp only
      rw [update_self, onWire_self]
      exact hm'
  | @serverHandle j m asked store result hat hhandle =>
    have hbegun : (s.session c).pc.begun = true := by
      by_contra hf
      exact (hi.silent (Bool.eq_false_of_not_eq_true hf) j).2.1 m hat
    have hlt : j < nodes := ((hi.present j).mp (HandlerPc.ne_absent (by rw [hat]; rfl))).1
    obtain ⟨reads, hline, hm'⟩ := hm.serverHandle hbegun hat (sendResponse result)
    rw [← h.stores] at hhandle
    have hstep : Tcp.step nodes t (.handle c j) = some { t with
        stores := update t.stores j store
        toServer := onWire t.toServer c j reads
        toClient := onWire t.toClient c j (t.toClient c j ++ (sendResponse result).map .byte)
        served := t.served ++
          (t.waiting c).toList.map fun p => ⟨c, p.call, p.sent, result, t.clock⟩
        clock := t.clock + 1 } := by
      simp only [Tcp.step, if_pos hlt, hline, hhandle]
    refine ⟨[.handle c j], _, exec_cons.mpr ⟨_, hstep, rfl⟩, ?_, ?_, h.calls, ?_, h.answered,
      h.put ?_ fun c' hc => ⟨rfl, onWire_of_ne hc, onWire_of_ne hc⟩⟩
    · dsimp only
      rw [h.stores]
    · exact congrArg (· + 1) h.clock
    · dsimp only
      rw [h.served, h.clock, hm.sent]
    · dsimp only
      rw [onWire_self, onWire_self]
      exact hm'

/-! ## Runs -/

/-- The calls that are recorded are those of the run. -/
theorem step_inRange {ev : Tcp.Event κ} (hs : Tcp.step nodes t ev = some t')
    (hr : ∀ p ∈ t'.calls, p.call.InRange) : (∀ p ∈ t.calls, p.call.InRange) ∧ ev.InRange := by
  cases ev with
  | call c call =>
    simp only [Tcp.step] at hs
    split at hs
    · cases hs
    · cases hs
      exact ⟨fun p hp => hr p (List.mem_append_left _ hp),
        hr _ (List.mem_append_right _ (List.mem_singleton_self _))⟩
  | handle c j =>
    refine ⟨?_, trivial⟩
    simp only [Tcp.step] at hs
    split at hs
    · split at hs
      · cases hs
      · split at hs <;> cases hs
        exact hr
    · cases hs
  | receive c =>
    refine ⟨?_, trivial⟩
    simp only [Tcp.step] at hs
    split at hs
    · cases hs
    · split at hs
      · cases hs
      · obtain ⟨answer, -, rfl⟩ := Option.map_eq_some_iff.mp hs
        exact hr

theorem run_inRange {es : List (Tcp.Event κ)} (h : exec (Tcp.step nodes) t es = some t')
    (hr : ∀ p ∈ t'.calls, p.call.InRange) : ∀ ev ∈ es, ev.InRange := by
  refine exec_induction (motive := fun es u => (∀ p ∈ u.calls, p.call.InRange) →
    ∀ ev ∈ es, ev.InRange) nofun ?_ h hr
  intro es u ev v _ ih hs hv
  obtain ⟨hu, hev⟩ := step_inRange hs hv
  intro ev' hmem
  rcases List.mem_append.mp hmem with hmem | hmem
  · exact ih hu ev' hmem
  · rw [List.mem_singleton.mp hmem]
    exact hev

theorem reachable (hn : 0 < nodes) (h : exec (Wire.step nodes clients) (.init κ) es = some s) :
    (∀ c, (s.session c).Inv nodes clients s.connected) ∧ ∃ es' t,
      exec (Tcp.step nodes) (.init κ) es' = some t ∧ Refines nodes s t := by
  obtain ⟨es', t, hrun, hinv, href⟩ := wire_simulates.run ⟨fun _ => .init hn, refines_init⟩ h
  exact ⟨hinv, es', t, hrun, href⟩

/-- A run of bytes is one of whole lines, and with it one of one set. -/
theorem bytes_refine_lines (hn : 0 < nodes)
    (h : exec (Wire.step nodes clients) (.init κ) es = some s)
    (hr : ∀ p ∈ s.calls, p.call.InRange) : ∃ es' t,
      exec (Tcp.step nodes) (.init κ) es' = some t ∧ Refines nodes s t ∧ OneSet t := by
  obtain ⟨-, es', t, hrun, href⟩ := reachable hn h
  have hinv := reachable_inv hn (run_inRange hrun (href.calls ▸ hr)) hrun
  exact ⟨es', t, hrun, href, hinv.oneSet⟩

end ConcurrentComputing.Tcp.Wire
