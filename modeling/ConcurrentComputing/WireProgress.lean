import ConcurrentComputing.WireLines
import Mathlib.Algebra.Order.BigOperators.Group.Finset
import Mathlib.Data.Fintype.BigOperators

/-! # Every call is answered

Nothing is ever in anybody's way: as long as some thread has not come to the end of what
it does, some thread can go on, and it takes no more steps than there are bytes to be
written and read. Before the first call every client has come. -/

namespace ConcurrentComputing.Tcp.Wire

open Function Runs HashMap LazyList

variable {κ : Type} {nodes clients connected j : Nat} {r r' : Session} {p : Sent}
  {line rest : List Byte} {s s' : State κ} {t t' : Tcp.State κ} {c : κ} {e : Event κ}
  {es more : List (Event κ)}

/-! ## What is left to do -/

/-- A byte is written and read, and a line that is read is handled and answered: the reading
of its newline brings with it what its answer may take. -/
def weight (bs : List Byte) : Nat := bs.length + 7 * bs.count (char '\n')

def ClientPc.left (nodes : Nat) : ClientPc → Nat
  | .connect made => nodes - made + if made = 0 then 13 else 0
  | .stream _ rest => rest.length + weight rest
  | _ => 0

def HandlerPc.left : HandlerPc → Nat
  | .absent | .line _ => 0
  | .barrier => 13
  | .stream rest => 2 * rest.length
  | .handle _ => 7

def Session.link (r : Session) (j : Nat) : Nat :=
  (r.handler j).left + weight (r.toServer j) + (r.toClient j).length

def Session.left (nodes : Nat) (r : Session) : Nat :=
  r.pc.left nodes + ∑ j ∈ Finset.range nodes, r.link j

@[simp] theorem ClientPc.left_stream : (ClientPc.stream p rest).left nodes =
    rest.length + weight rest := rfl

@[simp] theorem ClientPc.left_await {m : Buffer} : (ClientPc.await p m).left nodes = 0 := rfl

@[simp] theorem ClientPc.left_idle : ClientPc.idle.left nodes = 0 := rfl

@[simp] theorem HandlerPc.left_stream : (HandlerPc.stream rest).left = 2 * rest.length := rfl

theorem weight_append (as bs : List Byte) : weight (as ++ bs) = weight as + weight bs := by
  simp only [weight, List.length_append, List.count_append]
  omega

theorem weight_cons (b : Byte) (bs : List Byte) :
    weight (b :: bs) = weight bs + if b = char '\n' then 8 else 1 := by
  simp only [weight, List.length_cons, List.count_cons, beq_iff_eq]
  split <;> omega

theorem Session.left_eq (hj : j < nodes) : r.left nodes =
    r.pc.left nodes + r.link j + ∑ i ∈ (Finset.range nodes).erase j, r.link i := by
  rw [Session.left, ← Finset.add_sum_erase _ _ (Finset.mem_range.mpr hj), Nat.add_assoc]

/-- What one client does for itself or at one of its connections. -/
theorem Session.left_lt (hj : j < nodes) (hothers : ∀ i ≠ j, r'.link i = r.link i)
    (h : r'.pc.left nodes + r'.link j < r.pc.left nodes + r.link j) :
    r'.left nodes < r.left nodes := by
  rw [Session.left_eq hj, Session.left_eq hj, Finset.sum_congr rfl fun i hi => hothers i
    (Finset.ne_of_mem_erase hi)]
  exact Nat.add_lt_add_right h _

theorem hash_lt_nodes (hn : 0 < nodes) (key : Word) : hash nodes key < nodes :=
  (Nat.mod_le _ _).trans_lt (Nat.mod_lt _ hn)

theorem sendResponse_length (result : Result) : (sendResponse result).length ≤ 3 := by
  cases result <;> decide

/-- All but the calls, and the writes that are interrupted. -/
def Event.Proceeds : Event κ → Prop
  | .call _ _ => False
  | .clientWrite _ n | .serverWrite _ _ n => 0 < n
  | _ => True

/-- One for a client that the master has a handler for. -/
def HandlerPc.come : HandlerPc → Nat
  | .absent => 0
  | _ => 1

theorem HandlerPc.come_le (x : HandlerPc) : x.come ≤ 1 := by
  cases x <;> simp [come]

theorem HandlerPc.come_eq {x : HandlerPc} : x.come = 1 ↔ x ≠ .absent := by
  cases x <;> simp [come]

theorem come_update {x : HandlerPc} (hold : r.handler j ≠ .absent) (hnew : x ≠ .absent) :
    (update r.handler j x 0).come = (r.handler 0).come := by
  by_cases hj : 0 = j
  · subst hj
    rw [update_self, HandlerPc.come_eq.mpr hnew, HandlerPc.come_eq.mpr hold]
  · rw [update_of_ne hj]

/-- How much all of the clients and their handlers have to do. -/
def State.left [Fintype κ] (nodes : Nat) (s : State κ) : Nat := ∑ c, (s.session c).left nodes

section

variable [DecidableEq κ]

/-- A step of a client is counted if it comes to the master, and leaves less to do. -/
theorem Effect.session (hn : 0 < nodes) (hi : r.Inv nodes clients s.connected)
    (h : Effect nodes clients s c r e s') : ∃ r', s'.session = (s.put c r').session ∧
      s'.connected + (r.handler 0).come = s.connected + (r'.handler 0).come ∧
      (e.Proceeds → r'.left nodes < r.left nodes) := by
  cases h with
  | @connect made hpc hlt =>
    have habsent : r.handler made = .absent := by
      by_contra hp
      exact Nat.lt_irrefl _ (((hi.present made).mp hp).2 made hpc)
    refine ⟨_, rfl, ?_, fun _ => Session.left_lt hlt (fun i hne => ?_) ?_⟩
    · dsimp only
      by_cases hm : made = 0
      · subst hm
        rw [update_self, if_pos rfl, if_pos rfl, habsent]
        rfl
      · rw [update_of_ne (Ne.symm hm), if_neg hm]
    · simp only [Session.link, update_of_ne hne]
    · have hnext : (if made + 1 < nodes then ClientPc.connect (made + 1)
          else .awaitMaster (.new bufferSize)).left nodes = nodes - made - 1 := by
        by_cases hm : made + 1 < nodes
        · rw [if_pos hm, ClientPc.left, if_neg (Nat.succ_ne_zero made)]
          omega
        · rw [if_neg hm]
          simp only [ClientPc.left]
          omega
      simp only [Session.link, update_self, habsent, hpc, hnext]
      by_cases hm : made = 0
      · simp only [if_pos hm, HandlerPc.left, ClientPc.left]
        omega
      · simp only [if_neg hm, HandlerPc.left, ClientPc.left]
        omega
  | release hat hle =>
    refine ⟨_, rfl, congrArg (s.connected + ·)
      (come_update (x := .stream initialization) (by rw [hat]; nofun) nofun).symm,
      fun _ => Session.left_lt hn (fun i hne => ?_) ?_⟩
    · simp only [Session.link, update_of_ne hne]
    · simp only [Session.link, update_self, hat, HandlerPc.left]
      have hlen : initialization.length = 6 := rfl
      omega
  | call hpc => exact ⟨_, rfl, rfl, False.elim⟩
  | @clientWrite n p rest hpc hle =>
    refine ⟨_, rfl, rfl, fun hpos : 0 < n =>
      Session.left_lt (hash_lt_nodes hn p.call.key) (fun i hne => ?_) ?_⟩
    · simp only [Session.link, update_of_ne hne]
    · have htake : weight (rest.take n) + weight (rest.drop n) = weight rest := by
        rw [← weight_append, List.take_append_drop]
      have hnext : (if n = rest.length then ClientPc.await p (.new bufferSize)
          else .stream p (rest.drop n)).left nodes = rest.length - n + weight (rest.drop n) := by
        by_cases hn : n = rest.length
        · rw [if_pos hn, hn, List.drop_length, Nat.sub_self]
          rfl
        · rw [if_neg hn, ClientPc.left, List.length_drop]
      simp only [Session.link, update_self, hpc, hnext, ClientPc.left_stream, weight_append]
      omega
  | @readGreeting m m' complete wire hpc hread =>
    obtain ⟨b, hwire, -, -⟩ := readByte_eq hread
    refine ⟨_, rfl, rfl, fun _ => Session.left_lt hn (fun i hne => ?_) ?_⟩
    · simp only [Session.link, update_of_ne hne]
    · have hpc' : (if complete then ClientPc.idle else .awaitMaster m').left nodes = 0 := by
        cases complete <;> rfl
      simp only [Session.link, update_self, hpc, hpc', hwire, List.length_cons]
      omega
  | @clientRead p m m' wire hpc hread =>
    obtain ⟨b, hwire, -, -⟩ := readByte_eq hread
    refine ⟨_, rfl, rfl, fun _ =>
      Session.left_lt (hash_lt_nodes hn p.call.key) (fun i hne => ?_) ?_⟩
    · simp only [Session.link, update_of_ne hne]
    · simp only [Session.link, update_self, hpc, ClientPc.left_await, hwire, List.length_cons]
      omega
  | @receive p m m' wire answer hpc hread hanswer =>
    obtain ⟨b, hwire, -, -⟩ := readByte_eq hread
    refine ⟨_, rfl, rfl, fun _ =>
      Session.left_lt (hash_lt_nodes hn p.call.key) (fun i hne => ?_) ?_⟩
    · simp only [Session.link, update_of_ne hne]
    · simp only [Session.link, update_self, hpc, ClientPc.left_await, ClientPc.left_idle, hwire,
        List.length_cons]
      omega
  | @serverRead j m m' complete wire hat hread =>
    obtain ⟨b, hwire, -, hcomplete⟩ := readByte_eq hread
    refine ⟨_, rfl, congrArg (s.connected + ·) (come_update (by rw [hat]; nofun)
      (by split <;> nofun)).symm, fun _ => Session.left_lt
        ((hi.present j).mp (by rw [hat]; nofun)).1 (fun i hne => ?_) ?_⟩
    · simp only [Session.link, update_of_ne hne]
    · simp only [Session.link, update_self, hat, hwire, weight_cons]
      cases complete with
      | true =>
        rw [if_pos rfl, if_pos (hcomplete.mp rfl)]
        simp only [HandlerPc.left]
        omega
      | false =>
        rw [if_neg Bool.false_ne_true, if_neg fun hb => Bool.false_ne_true (hcomplete.mpr hb)]
        simp only [HandlerPc.left]
        omega
  | @serverHandle j m asked store result hat hhandle =>
    refine ⟨_, rfl, congrArg (s.connected + ·)
      (come_update (x := .stream (sendResponse result)) (by rw [hat]; nofun) nofun).symm,
      fun _ => Session.left_lt ((hi.present j).mp (by rw [hat]; nofun)).1 (fun i hne => ?_) ?_⟩
    · simp only [Session.link, update_of_ne hne]
    · have hlen := sendResponse_length result
      simp only [Session.link, update_self, hat, HandlerPc.left]
      omega
  | @serverWrite j n rest hat hle =>
    refine ⟨_, rfl, congrArg (s.connected + ·) (come_update (by rw [hat]; nofun)
      (by split <;> nofun)).symm, fun hpos : 0 < n => Session.left_lt
        ((hi.present j).mp (by rw [hat]; nofun)).1 (fun i hne => ?_) ?_⟩
    · simp only [Session.link, update_of_ne hne]
    · have hnext : (if n = rest.length then HandlerPc.line (.new bufferSize)
          else .stream (rest.drop n)).left = 2 * (rest.length - n) := by
        by_cases hn : n = rest.length
        · rw [if_pos hn, hn, Nat.sub_self]
          rfl
        · rw [if_neg hn, HandlerPc.left, List.length_drop]
      simp only [Session.link, update_self, hat, hnext, HandlerPc.left_stream, List.length_append,
        List.length_take]
      omega

/-! ## Runs -/

variable [Fintype κ]

theorem sum_put (f : Session → Nat) (s : State κ) (c : κ) (r : Session) :
    ∑ c', f ((s.put c r).session c') + f (s.session c) = ∑ c', f (s.session c') + f r := by
  have hput : ∀ c',
      f ((s.put c r).session c') = update (fun c' => f (s.session c')) c (f r) c' := by
    intro c'
    dsimp only [State.put]
    by_cases hc : c' = c
    · rw [hc, update_self, update_self]
    · rw [update_of_ne hc, update_of_ne hc]
  simp only [hput]
  rw [Finset.sum_update_of_mem (Finset.mem_univ c), ← Finset.sum_sdiff (Finset.subset_univ {c}),
    Finset.sum_singleton]
  omega

/-- `connected` counts the clients that have come. -/
theorem run_connected (hn : 0 < nodes)
    (h : exec (Wire.step nodes clients) (.init κ) es = some s) :
    s.connected = ∑ c, ((s.session c).handler 0).come := by
  refine (exec_invariant (I := fun s => (∀ c, (s.session c).Inv nodes clients s.connected) ∧
    s.connected = ∑ c, ((s.session c).handler 0).come) ⟨fun _ => .init hn, ?_⟩ ?_ h).2
  · exact (Finset.sum_eq_zero fun _ _ => rfl).symm
  · intro s e s' ⟨hi, hcount⟩ hs
    obtain ⟨r', hr', hsum, -⟩ := (step_effect hs).session hn (hi e.client)
    have hput := sum_put (fun r => (r.handler 0).come) s e.client r'
    rw [← hr'] at hput
    exact ⟨Session.Inv.step hi hs, by omega⟩

theorem run_left (hn : 0 < nodes) (hi : ∀ c, (s.session c).Inv nodes clients s.connected)
    (hmore : exec (Wire.step nodes clients) s more = some s') (hp : ∀ e ∈ more, e.Proceeds) :
    more.length + s'.left nodes ≤ s.left nodes := by
  induction more generalizing s with
  | nil =>
    cases hmore
    exact (Nat.zero_add _).le
  | cons e more ih =>
    obtain ⟨u, hs, hafter⟩ := exec_cons.mp hmore
    obtain ⟨r', hr', -, hless⟩ := (step_effect hs).session hn (hi e.client)
    have hput := sum_put (Session.left nodes) s e.client r'
    rw [← hr'] at hput
    have hlt := hless (hp e List.mem_cons_self)
    have hrest := ih (Session.Inv.step hi hs) hafter fun e he => hp e (List.mem_cons_of_mem _ he)
    rw [List.length_cons]
    unfold State.left at hrest ⊢
    omega

end

/-! ## How much there can be to do -/

theorem sendMessage_length (message : Message) :
    (sendMessage message).length ≤ 28 ∧ (sendMessage message).count (char '\n') = 1 := by
  have h₁ := (printInt_length message.data.1).2
  have h₂ := (printInt_length message.data.2).2
  have hnl : char '\n' ∉ verb message.protocol ++ char ' ' :: numbers message.data := by
    intro hmem
    rcases List.mem_append.mp hmem with hmem | hmem
    · unfold verb at hmem
      split at hmem <;> exact absurd hmem (by decide)
    · rcases List.mem_cons.mp hmem with hmem | hmem
      · exact absurd hmem (by decide)
      · exact (numbers_spec hmem).2 rfl
  rw [sendMessage_eq]
  refine ⟨?_, ?_⟩
  · rw [List.length_append, List.length_append, verb_length, List.length_cons, numbers,
      List.length_append, List.length_cons, List.length_singleton]
    omega
  · rw [List.count_append, List.count_eq_zero_of_not_mem hnl]
    rfl

theorem HandlerPc.left_le {x : HandlerPc} (h : x.Reads line) (hx : x ≠ .barrier) :
    x.left ≤ 7 * line.count (char '\n') + 2 * x.unsent.length := by
  cases x with
  | barrier => exact absurd rfl hx
  | absent | line m => exact Nat.zero_le _
  | stream rest => exact Nat.le_add_left _ _
  | handle m =>
    obtain ⟨-, line', rfl, -⟩ := h
    rw [List.count_append]
    have hone : [char '\n'].count (char '\n') = 1 := rfl
    rw [hone]
    exact Nat.le_add_right_of_le (by rw [HandlerPc.left]; omega)

theorem map_byte_injective : Injective (List.map Read.byte) :=
  List.map_injective_iff.mpr fun _ _ => Read.byte.inj

/-- What is left to do at a connection, by what the system of lines has there. -/
theorem Session.link_le {waiting : Option Sent} {toServer toClient : Nat → List Read}
    (request answer : List Byte) (hi : r.Inv nodes clients connected)
    (hm : r.Matches nodes waiting toServer toClient) (hbegun : r.pc.begun = true)
    (hserver : toServer j = request.map .byte) (hclient : toClient j = answer.map .byte) :
    r.link j + ((r.pc.unsent nodes j).length + weight (r.pc.unsent nodes j)) ≤
      2 * request.length + 7 * request.count (char '\n') + 2 * answer.length := by
  obtain ⟨line, hline, hserver'⟩ := hm.server j
  obtain ⟨line', -, hclient'⟩ := hm.client j hbegun
  obtain rfl := map_byte_injective (hserver.symm.trans hserver')
  obtain rfl := map_byte_injective (hclient.symm.trans hclient')
  have hle := HandlerPc.left_le hline fun hb => absurd (hbegun.symm.trans (hi.master j hb).2) nofun
  simp only [Session.link, weight, List.length_append, List.count_append]
  omega

/-- Where the client has one connection in use. -/
theorem Session.left_single (hj : j < nodes) (h : ∀ i < nodes, i ≠ j → r.link i = 0) :
    r.left nodes = r.pc.left nodes + r.link j := by
  rw [Session.left, Finset.sum_eq_single_of_mem j (Finset.mem_range.mpr hj) fun i hi hne =>
    h i (Finset.mem_range.mp hi) hne]

theorem Session.left_start (hn : 0 < nodes) (hi : r.Inv nodes clients connected)
    (hbegun : r.pc.begun = false) : r.left nodes ≤ nodes + 63 := by
  obtain ⟨line, -, hgreet⟩ := hi.greeting hbegun
  have hlen : line.length + (r.toClient 0).length + (r.handler 0).greets.length = 6 := by
    rw [← List.length_append, ← List.length_append, hgreet]
    rfl
  rw [Session.left_single hn fun i _ hne => ?_]
  · have hlink : r.link 0 ≤ 13 ∧ (r.handler 0 = .absent → r.link 0 = 0) := by
      obtain ⟨hserver, hhandle, -⟩ := hi.silent hbegun 0
      rw [Session.link, hserver]
      cases hat : r.handler 0 with
      | handle m => exact absurd hat (hhandle m)
      | absent | barrier | stream rest | line m =>
        rw [hat] at hlen
        have hsix : initialization.length = 6 := rfl
        simp only [HandlerPc.greets, List.length_nil] at hlen
        simp only [HandlerPc.left, weight, List.length_nil, List.count_nil]
        exact ⟨by omega, fun he => by cases he <;> omega⟩
    cases hpc : r.pc with
    | connect made =>
      rw [ClientPc.left]
      split
      · rename_i hm
        have habsent : r.handler 0 = .absent := by
          by_contra hp
          exact absurd (((hi.present 0).mp hp).2 made hpc) (by omega)
        have hzero := hlink.2 habsent
        omega
      · omega
    | awaitMaster m =>
      have hzero : (ClientPc.awaitMaster m).left nodes = 0 := rfl
      omega
    | idle | stream p rest | await p m => rw [hpc] at hbegun; cases hbegun
  · obtain ⟨hserver, hhandle, hrest⟩ := hi.silent hbegun i
    obtain ⟨hclient, hstream⟩ := hrest hne
    rw [Session.link, hserver, hclient]
    cases hat : r.handler i with
    | absent | line m => rfl
    | barrier => exact absurd (hi.master i hat).1 hne
    | stream rest => exact absurd hat (hstream rest)
    | handle m => exact absurd hat (hhandle m)

/-- One call, or the start. -/
theorem Session.left_le (hn : 0 < nodes) (hi : r.Inv nodes clients connected)
    (hm : r.Matches nodes (t.waiting c) (t.toServer c) (t.toClient c)) (ht : Tcp.Inv nodes t) :
    r.left nodes ≤ nodes + 63 := by
  cases hbegun : r.pc.begun with
  | false => exact Session.left_start hn hi hbegun
  | true =>
    have hquiet : ∀ i, t.toServer c i = [] → t.toClient c i = [] → r.link i = 0 := by
      intro i hserver hclient
      have hle := Session.link_le [] [] hi hm hbegun hserver hclient
      simp only [List.length_nil, List.count_nil] at hle
      omega
    cases hw : t.waiting c with
    | none =>
      have hpc : r.pc = .idle := by
        have hsent := hm.sent
        rw [hw] at hsent
        cases hpc : r.pc with
        | idle => rfl
        | connect made | awaitMaster m => rw [hpc] at hbegun; cases hbegun
        | stream p rest | await p m => rw [hpc] at hsent; cases hsent
      obtain ⟨hserver, hclient⟩ := ht.idle c hw 0
      rw [Session.left_single hn fun i _ _ => hquiet i (ht.idle c hw i).1 (ht.idle c hw i).2,
        hquiet 0 hserver hclient, hpc]
      exact Nat.zero_le _
    | some p =>
      have hpc : r.pc.left nodes = (r.pc.unsent nodes (hash nodes p.call.key)).length +
          weight (r.pc.unsent nodes (hash nodes p.call.key)) := by
        have hsent := hm.sent
        rw [hw] at hsent
        cases hpc : r.pc with
        | connect made | awaitMaster m | idle => rw [hpc] at hsent; cases hsent
        | stream q rest =>
          rw [hpc] at hsent
          cases hsent
          rw [ClientPc.left_stream, ClientPc.unsent, if_pos rfl]
        | await q m => rfl
      have helse := ht.elsewhere c p hw
      rw [Session.left_single (hash_lt_nodes hn p.call.key) fun i _ hne =>
        hquiet i (helse i hne).1 (helse i hne).2, hpc]
      rcases ht.underWay c p hw with ⟨hserver, hclient⟩ | ⟨hserver, e, -, -, -, -, hclient⟩
      · have hle := Session.link_le _ [] hi hm hbegun hserver hclient
        obtain ⟨hlen, hcount⟩ := sendMessage_length p.call.message
        rw [List.length_nil, hcount] at hle
        omega
      · have hle := Session.link_le [] _ hi hm hbegun hserver hclient
        have hlen := sendResponse_length e.result
        simp only [List.length_nil, List.count_nil] at hle
        omega

/-! ## Somebody can go on -/

variable [DecidableEq κ]

/-- Some thread has something to do and can do it. -/
def CanProceed (nodes clients : Nat) (s : State κ) : Prop :=
  ∃ e : Event κ, e.Proceeds ∧ Wire.step nodes clients s e ≠ none

theorem can_connect {made : Nat} (hi : (s.session c).Inv nodes clients connected)
    (hpc : (s.session c).pc = .connect made) : CanProceed nodes clients s := by
  refine ⟨.connect c, trivial, ?_⟩
  simp only [Wire.step, hpc, if_pos (hi.connecting made hpc)]
  exact Option.some_ne_none _

theorem can_serverWrite (hi : (s.session c).Inv nodes clients connected)
    (hat : (s.session c).handler j = .stream rest) : CanProceed nodes clients s := by
  have hpos : 0 < rest.length := List.length_pos_iff.mpr fun he => by
    rw [he] at hat
    exact hi.unfinished.2 j hat
  refine ⟨.serverWrite c j rest.length, hpos, ?_⟩
  simp only [Wire.step, hat, if_pos (Nat.le_refl _)]
  exact Option.some_ne_none _

theorem can_clientWrite (hi : (s.session c).Inv nodes clients connected)
    (hpc : (s.session c).pc = .stream p rest) : CanProceed nodes clients s := by
  have hpos : 0 < rest.length := List.length_pos_iff.mpr fun he => by
    rw [he] at hpc
    exact hi.unfinished.1 p hpc
  refine ⟨.clientWrite c rest.length, hpos, ?_⟩
  simp only [Wire.step, hpc, if_pos (Nat.le_refl _)]
  exact Option.some_ne_none _

/-- The part of a line that is short enough can be read on, if anything is there to be read. -/
theorem can_read {m : Buffer} {wire rest : List Byte} (line' : List Byte)
    (h : Collects m line) (hn : char '\n' ∉ line) (hlen : line'.length < 28)
    (hline : line ++ wire ++ rest = line' ++ [char '\n']) (hrest : rest = []) :
    ∃ m' complete wire', readByte m wire = some (m', complete, wire') := by
  rw [hrest, List.append_nil] at hline
  cases wire with
  | nil =>
    rw [List.append_nil] at hline
    rw [hline] at hn
    exact absurd (List.mem_append_right _ (List.mem_singleton_self _)) hn
  | cons b wire =>
    have hle := congrArg List.length hline
    rw [List.length_append, List.length_append, List.length_cons, List.length_singleton] at hle
    obtain ⟨m', hm'⟩ := h.room (by unfold bufferSize; omega) b
    exact ⟨m', _, _, by rw [readByte, hm', Option.map_some]⟩

/-- A client that waits for the master. -/
theorem can_begin {m : Buffer} (hi : (s.session c).Inv nodes clients s.connected)
    (hpc : (s.session c).pc = .awaitMaster m) (hn : 0 < nodes) (hall : clients ≤ s.connected) :
    CanProceed nodes clients s := by
  have hbegun : (s.session c).pc.begun = false := by rw [hpc]; rfl
  obtain ⟨line, hline, hgreet⟩ := hi.greeting hbegun
  rw [hpc] at hline
  cases hat : (s.session c).handler 0 with
  | absent => exact absurd hat ((hi.present 0).mpr ⟨hn, fun made h' => by rw [hpc] at h'; cases h'⟩)
  | barrier =>
    refine ⟨.release c, trivial, ?_⟩
    simp only [Wire.step, hat, if_pos hall]
    exact Option.some_ne_none _
  | stream rest => exact can_serverWrite hi hat
  | handle m => exact absurd hat ((hi.silent hbegun 0).2.1 m)
  | line m' =>
    obtain ⟨m', complete, wire, hread⟩ := can_read (bytes ['B', 'E', 'G', 'I', 'N'])
      hline.1 hline.2 (by decide) hgreet (by rw [hat]; rfl)
    refine ⟨.clientRead c, trivial, ?_⟩
    simp only [Wire.step, hpc, hread, Option.map_some]
    exact Option.some_ne_none _

/-- The line of a call is under way: its handler goes on with it. -/
theorem can_serve (hi : (s.session c).Inv nodes clients connected) (hn : 0 < nodes)
    (href : Refines nodes s t) (ht : Tcp.Inv nodes t) (hw : t.waiting c = some p) {m : Buffer}
    (hpc : (s.session c).pc = .await p m)
    (hserver : t.toServer c (hash nodes p.call.key) = (sendMessage p.call.message).map .byte)
    (hclient : t.toClient c (hash nodes p.call.key) = []) : CanProceed nodes clients s := by
  have hm := href.sessions c
  have hbegun : (s.session c).pc.begun = true := by rw [hpc]; rfl
  obtain ⟨line, hline, hbytes⟩ := hm.server (hash nodes p.call.key)
  have hrequest := map_byte_injective (hserver.symm.trans hbytes)
  rw [hpc] at hrequest
  cases hat : (s.session c).handler (hash nodes p.call.key) with
  | absent =>
    exact absurd hat ((hi.present _).mpr
      ⟨hash_lt_nodes hn _, fun made h' => by rw [hpc] at h'; cases h'⟩)
  | barrier => exact absurd (hbegun.symm.trans (hi.master _ hat).2) nofun
  | stream rest => exact can_serverWrite hi hat
  | line m' =>
    rw [hat] at hline
    have hlen := (sendMessage_length p.call.message).1
    rw [sendMessage_eq] at hrequest hlen
    rw [List.length_append, List.length_singleton] at hlen
    obtain ⟨m', complete, wire, hread⟩ := can_read _ hline.1 hline.2 (by omega) hrequest.symm rfl
    refine ⟨.serverRead c (hash nodes p.call.key), trivial, ?_⟩
    simp only [Wire.step, hat, hread, Option.map_some]
    exact Option.some_ne_none _
  | handle m' =>
    obtain ⟨reads, hget, -⟩ := hm.serverHandle hbegun hat []
    obtain ⟨store, -, -, hstep⟩ := ht.handle_eq hn hw hserver hclient
    obtain ⟨asked, store, result, hhandle⟩ : ∃ asked store result, handleMessage
        (s.stores (hash nodes p.call.key)) (some m') = some ⟨asked, some (store, result)⟩ := by
      simp only [Tcp.step, if_pos (hash_lt_nodes hn p.call.key), hget, href.stores] at hstep
      split at hstep
      · exact ⟨_, _, _, by assumption⟩
      · cases hstep
    refine ⟨.serverHandle c (hash nodes p.call.key), trivial, ?_⟩
    simp only [Wire.step, hat, hhandle]
    exact Option.some_ne_none _

/-- The line of an answer is under way: its handler or its client goes on with it. -/
theorem can_receive (hi : (s.session c).Inv nodes clients connected) (href : Refines nodes s t)
    (hw : t.waiting c = some p) {m : Buffer} {result : Result}
    (hpc : (s.session c).pc = .await p m)
    (hclient : t.toClient c (hash nodes p.call.key) = (sendResponse result).map .byte) :
    CanProceed nodes clients s := by
  have hm := href.sessions c
  have hbegun : (s.session c).pc.begun = true := by rw [hpc]; rfl
  obtain ⟨line, hline, hbytes⟩ := hm.client (hash nodes p.call.key) hbegun
  have hanswer := map_byte_injective (hclient.symm.trans hbytes)
  rw [hpc, ClientPc.Reads, if_pos rfl] at hline
  cases hat : (s.session c).handler (hash nodes p.call.key) with
  | stream rest => exact can_serverWrite hi hat
  | absent | barrier | line m' | handle m' =>
    have hlen := sendResponse_length result
    obtain ⟨line', hresult⟩ : ∃ line', sendResponse result = line' ++ [char '\n'] := ⟨_, rfl⟩
    rw [hresult] at hanswer hlen
    rw [List.length_append, List.length_singleton] at hlen
    obtain ⟨m', complete, wire, hread⟩ :=
      can_read _ hline.1 hline.2 (by omega) hanswer.symm (by rw [hat]; rfl)
    refine ⟨.clientRead c, trivial, ?_⟩
    simp only [Wire.step, hpc, hread, Option.bind_some]
    cases complete with
    | false => exact Option.some_ne_none _
    | true =>
      obtain ⟨reads, hget, -⟩ := hm.receive hpc hread
      have hstep : Tcp.step nodes t (.receive c) = _ := receive_eq hw hclient
      simp only [Tcp.step, hw, hget] at hstep
      obtain ⟨answer, hawait, -⟩ := Option.map_eq_some_iff.mp hstep
      rw [if_pos rfl, hawait]
      exact Option.some_ne_none _

/-- A client in a call. -/
theorem can_answer (hi : (s.session c).Inv nodes clients connected) (hn : 0 < nodes)
    (href : Refines nodes s t) (ht : Tcp.Inv nodes t) {m : Buffer}
    (hpc : (s.session c).pc = .await p m) : CanProceed nodes clients s := by
  have hw : t.waiting c = some p := by rw [(href.sessions c).sent, hpc]; rfl
  rcases ht.underWay c p hw with ⟨hserver, hclient⟩ | ⟨-, e, -, -, -, -, hclient⟩
  · exact can_serve hi hn href ht hw hpc hserver hclient
  · exact can_receive hi href hw hpc hclient

/-- Whichever client is not between two calls. -/
theorem can_proceed [Fintype κ] (hn : 0 < nodes)
    (hi : ∀ c, (s.session c).Inv nodes (Fintype.card κ) s.connected)
    (hcount : s.connected = ∑ c, ((s.session c).handler 0).come) (href : Refines nodes s t)
    (ht : Tcp.Inv nodes t) (hc : (s.session c).pc ≠ .idle) :
    CanProceed nodes (Fintype.card κ) s := by
  by_cases hconnecting : ∃ c made, (s.session c).pc = .connect made
  · obtain ⟨c, made, hpc⟩ := hconnecting
    exact can_connect (hi c) hpc
  · have hall : Fintype.card κ ≤ s.connected := by
      have hcome : ∀ c ∈ Finset.univ, ((s.session c).handler 0).come = 1 := fun c _ =>
        HandlerPc.come_eq.mpr (((hi c).present 0).mpr
          ⟨hn, fun made hpc => absurd ⟨c, made, hpc⟩ hconnecting⟩)
      rw [hcount, Finset.sum_congr rfl hcome, Finset.sum_const, Finset.card_univ]
      exact (Nat.mul_one _).ge
    cases hpc : (s.session c).pc with
    | idle => exact absurd hpc hc
    | connect made => exact absurd ⟨c, made, hpc⟩ hconnecting
    | awaitMaster m => exact can_begin (hi c) hpc hn hall
    | stream p rest => exact can_clientWrite (hi c) hpc
    | await p m => exact can_answer (hi c) hn href ht hpc

/-! ## What has become of the calls -/

/-- A call is in the hands of its client, or has its answer. -/
def Accounted (t : Tcp.State κ) : Prop :=
  ∀ p ∈ t.calls, (∃ c, t.waiting c = some p) ∨ ∃ a ∈ t.answered, a.call = p.call ∧ a.sent = p.sent

theorem Accounted.step {ev : Tcp.Event κ} (h : Accounted t) (hs : Tcp.step nodes t ev = some t') :
    Accounted t' := by
  cases ev with
  | call c call =>
    simp only [Tcp.step] at hs
    split at hs
    · cases hs
    · rename_i hidle
      cases hs
      intro p hp
      rcases List.mem_append.mp hp with hp | hp
      · rcases h p hp with ⟨c', hc'⟩ | hanswered
        · refine Or.inl ⟨c', ?_⟩
          dsimp only
          rw [update_of_ne (fun he => by rw [he, hidle] at hc'; cases hc'), hc']
        · exact Or.inr hanswered
      · rw [List.mem_singleton.mp hp]
        exact Or.inl ⟨c, update_self _ _ _⟩
  | handle c j =>
    simp only [Tcp.step] at hs
    split at hs
    · split at hs
      · cases hs
      · split at hs <;> cases hs
        exact h
    · cases hs
  | receive c =>
    simp only [Tcp.step] at hs
    split at hs
    · cases hs
    · rename_i q hq
      split at hs
      · cases hs
      · obtain ⟨answer, -, rfl⟩ := Option.map_eq_some_iff.mp hs
        intro p hp
        dsimp only
        rcases h p hp with ⟨c', hc'⟩ | ⟨a, ha, hsame⟩
        · by_cases he : c' = c
          · rw [he, hq] at hc'
            cases hc'
            exact Or.inr ⟨_, List.mem_append_right _ (List.mem_singleton_self _), rfl, rfl⟩
          · exact Or.inl ⟨c', by rw [update_of_ne he, hc']⟩
        · exact Or.inr ⟨a, List.mem_append_left _ ha, hsame⟩

/-! ## The start and the end -/

/-- Who makes a call, or has made one, is not the first to come: all have. -/
theorem begun_after_all [Fintype κ] (hn : 0 < nodes)
    (h : exec (Wire.step nodes (Fintype.card κ)) (.init κ) es = some s)
    (hbegun : (s.session c).pc.begun = true) (c' : κ) : (s.session c').handler 0 ≠ .absent := by
  obtain ⟨hi, -⟩ := reachable hn h
  have hserves : ((s.session c).handler 0).serves = true := by
    cases hat : (s.session c).handler 0 with
    | absent =>
      exact absurd hat (((hi c).present 0).mpr ⟨hn, fun made hpc => by
        rw [hpc] at hbegun
        cases hbegun⟩)
    | barrier => exact absurd (hbegun.symm.trans ((hi c).master 0 hat).2) nofun
    | stream rest | line m | handle m => rfl
  have hall := (hi c).released hserves
  rw [run_connected hn h] at hall
  intro habsent
  have hless : ∑ c, ((s.session c).handler 0).come < ∑ _ : κ, 1 :=
    Finset.sum_lt_sum (fun c _ => HandlerPc.come_le _)
      ⟨c', Finset.mem_univ c', by rw [habsent]; exact Nat.one_pos⟩
  rw [Finset.sum_const, Finset.card_univ] at hless
  exact absurd hless (by rw [nsmul_one, Nat.cast_id]; omega)

/-- What all of the clients and their handlers may still have to do. -/
theorem left_bound [Fintype κ] (hn : 0 < nodes)
    (h : exec (Wire.step nodes clients) (.init κ) es = some s)
    (hr : ∀ p ∈ s.calls, p.call.InRange) : s.left nodes ≤ Fintype.card κ * (nodes + 63) := by
  obtain ⟨hi, es', t, hrun, href⟩ := reachable hn h
  have ht := reachable_inv hn (run_inRange hrun (href.calls ▸ hr)) hrun
  have hle : s.left nodes ≤ ∑ _ : κ, (nodes + 63) := Finset.sum_le_sum fun c _ =>
    Session.left_le hn (hi c) (href.sessions c) ht
  rwa [Finset.sum_const, Finset.card_univ, nsmul_eq_mul, Nat.cast_id] at hle

/-- Unless all clients are between two calls, some thread can go on. -/
theorem run_can_proceed [Fintype κ] (hn : 0 < nodes)
    (h : exec (Wire.step nodes (Fintype.card κ)) (.init κ) es = some s)
    (hr : ∀ p ∈ s.calls, p.call.InRange) (hc : (s.session c).pc ≠ .idle) :
    CanProceed nodes (Fintype.card κ) s := by
  obtain ⟨hi, es', t, hrun, href⟩ := reachable hn h
  have ht := reachable_inv hn (run_inRange hrun (href.calls ▸ hr)) hrun
  exact can_proceed hn hi (run_connected hn h) href ht hc

end ConcurrentComputing.Tcp.Wire
