import ConcurrentComputing.ReplicaSteps
import Mathlib.Algebra.BigOperators.Group.Finset.Basic
import Mathlib.Data.Fintype.Basic
import Mathlib.Data.List.GetD
import Mathlib.Data.Multiset.UnionInter
import Mathlib.Tactic.Abel

/-! # The receive buffers of a server

The device writes a message into a buffer that has been posted, and a worker that
takes the completion casts the buffer to nodes where it lies; it posts the buffer
again when it is done. A buffer is always in one place only, so no message is written
over one that is still being read, and the server is what the replica with its queue
of messages says it is. -/

namespace ConcurrentComputing.Replicated.Buffers

open Store Remote Runs Function

/-! ## The server -/

/-- `DEFAULT_BUFFER_SIZE`. -/
abbrev defaultBufferSize : Nat := 64

/-- What `receive` gives a worker. `message` numbers the arrivals, which nothing
reads. -/
structure ReceiveElement (β : Type) where
  buffer : β
  bytesWritten : Nat
  message : Nat
  deriving DecidableEq

/-- Where a worker is in `connection_handler`: in the loop around `receive`, or at the
head of the loop over the nodes. -/
inductive Pc (β : Type) where
  | receive
  | insert (receiveElement : ReceiveElement β) (i : Nat)

structure Server (β : Type) where
  store : Cuckoo
  memory : β → List Byte
  /-- the shared receive queue -/
  posted : List β
  /-- the receive completion queue -/
  completions : List (ReceiveElement β)
  worker : Fin workerThreadCount → Pc β
  arrivals : List (List Byte)
  results : List (Node × Result)

inductive Event (β : Type) where
  | message (buffer : β) (bytes : List Byte)
  | next (w : Fin workerThreadCount) (rands : Nat → Nat → Nat) (fuel : Nat)

variable {β : Type}

/-- `elements[i]` of the buffer cast to nodes. -/
def elementAt (memory : List Byte) (i : Nat) : Node := (nodesOf memory).getD i ⟨0, 0⟩

namespace Server

/-- The buffers are allocated filled with zeros, and posted. -/
def start (store : Cuckoo) (buffers : List β) : Server β where
  store
  memory _ := List.replicate defaultBufferSize 0
  posted := buffers
  completions := []
  worker _ := .receive
  arrivals := []
  results := []

/-- The device takes one of the posted buffers; a message for which there is none
waits on the other side. -/
def message [DecidableEq β] (s : Server β) (buffer : β) (bytes : List Byte) : Option (Server β) :=
  if buffer ∈ s.posted ∧ bytes.length ≤ defaultBufferSize then
    some { s with
      memory := update s.memory buffer (bytes ++ (s.memory buffer).drop bytes.length)
      posted := s.posted.erase buffer
      completions := s.completions ++ [⟨buffer, bytes.length, s.arrivals.length⟩]
      arrivals := s.arrivals ++ [bytes] }
  else none

/-- A step of `connection_handler`. -/
def next (s : Server β) (w : Fin workerThreadCount) (rands : Nat → Nat → Nat) (fuel : Nat) :
    Option (Server β) :=
  match s.worker w with
  | .receive =>
    match s.completions with
    | [] => some s
    | receiveElement :: rest => some { s with
        completions := rest
        worker := update s.worker w (.insert receiveElement 0) }
  | .insert receiveElement i =>
    if i < receiveElement.bytesWritten / sizeofNode then
      let element := elementAt (s.memory receiveElement.buffer) i
      (s.store.insert element rands fuel).map fun (r, store) => { s with
        store
        worker := update s.worker w (.insert receiveElement (i + 1))
        results := s.results ++ [(element, r)] }
    else some { s with
      posted := s.posted ++ [receiveElement.buffer]
      worker := update s.worker w .receive }

end Server

def step [DecidableEq β] (s : Server β) : Event β → Option (Server β)
  | .message buffer bytes => s.message buffer bytes
  | .next w rands fuel => s.next w rands fuel

/-! ## The replica it is -/

/-- The bytes of a message in its buffer. -/
def ReceiveElement.bytes (memory : β → List Byte) (r : ReceiveElement β) : List Byte :=
  (memory r.buffer).take r.bytesWritten

/-- What a worker has yet to insert. -/
def Pc.held (memory : β → List Byte) : Pc β → List (Nat × Node)
  | .receive => []
  | .insert r i => ((nodesOf (r.bytes memory)).drop i).map fun element => (r.message, element)

@[simp] theorem Pc.held_receive (memory : β → List Byte) : Pc.receive.held memory = [] := rfl

@[simp] theorem Pc.held_insert (memory : β → List Byte) (r : ReceiveElement β) (i : Nat) :
    (Pc.insert r i).held memory =
      ((nodesOf (r.bytes memory)).drop i).map fun element => (r.message, element) := rfl

def Server.replica (s : Server β) : Replica where
  store := s.store
  queue := s.completions.map fun r => (r.message, r.bytes s.memory)
  held w := (s.worker w).held s.memory
  arrivals := s.arrivals
  results := s.results

/-- The steps of one replica among `rs`: a message arrives, or a worker goes on. -/
def replicaStep (j : Nat) (rs : Replicas) : List Byte ⊕ ServerEvent → Option Replicas
  | .inl bytes => some (deliver rs (j, bytes))
  | .inr e => handle rs e

/-! ## Where the buffers are -/

def Pc.buffers : Pc β → Multiset β
  | .receive => 0
  | .insert r _ => {r.buffer}

@[simp] theorem Pc.buffers_receive : (Pc.receive : Pc β).buffers = 0 := rfl

@[simp] theorem Pc.buffers_insert (r : ReceiveElement β) (i : Nat) :
    (Pc.insert r i).buffers = {r.buffer} := rfl

def Server.buffers (s : Server β) : Multiset β :=
  (s.posted : Multiset β) + (s.completions.map ReceiveElement.buffer : Multiset β) +
    ∑ w, (s.worker w).buffers

/-- Every buffer is in one place, and the messages fit. -/
structure Owned (pool : List β) (s : Server β) : Prop where
  buffers : s.buffers = pool
  size : ∀ b, (s.memory b).length = defaultBufferSize
  received : ∀ r ∈ s.completions, r.bytesWritten ≤ defaultBufferSize
  handled : ∀ w r i, s.worker w = .insert r i → r.bytesWritten ≤ defaultBufferSize

variable {s s' : Server β} {pool : List β} {e : Event β} {b : β} {bytes : List Byte}
  {w : Fin workerThreadCount} {r : ReceiveElement β} {i : Nat} {memory : β → List Byte}

/-! ## Casting a buffer -/

theorem nodesOf_prefix (front rest : List Byte) : nodesOf front <+: nodesOf (front ++ rest) := by
  fun_induction nodesOf front with
  | case1 b0 b1 b2 b3 b4 b5 b6 b7 front ih =>
    simp only [List.cons_append, nodesOf]
    exact (List.prefix_cons_inj _).mpr ih
  | case2 => exact List.nil_prefix

/-- Inside the message a node of the buffer is a node of the message. -/
theorem elementAt_eq (hsize : r.bytesWritten ≤ (memory r.buffer).length)
    (hi : i < r.bytesWritten / sizeofNode) :
    (nodesOf (r.bytes memory))[i]? = some (elementAt (memory r.buffer) i) := by
  have hlen : i < (nodesOf (r.bytes memory)).length := by
    rw [nodesOf_length, ReceiveElement.bytes, List.length_take, Nat.min_eq_left hsize]
    exact hi
  have hpre := nodesOf_prefix (r.bytes memory) ((memory r.buffer).drop r.bytesWritten)
  rw [ReceiveElement.bytes, List.take_append_drop] at hpre
  have hget := hpre.getElem hlen
  rw [List.getElem?_eq_getElem hlen, elementAt, List.getD_eq_getElem _ _
    (hlen.trans_le hpre.length_le)]
  exact congrArg some hget

/-! ## Buffers change hands -/

/-- A sum over a table in which one entry has been replaced. -/
theorem sum_update {ι α M : Type*} [Fintype ι] [DecidableEq ι] [AddCommMonoid M] (g : α → M)
    (f : ι → α) (i : ι) (x : α) :
    ∑ j, g (update f i x j) + g (f i) = ∑ j, g (f j) + g x := by
  have hrest : ∑ j ∈ Finset.univ.erase i, g (update f i x j) =
      ∑ j ∈ Finset.univ.erase i, g (f j) := by
    refine Finset.sum_congr rfl fun j hj => ?_
    rw [update_of_ne (Finset.ne_of_mem_erase hj)]
  rw [← Finset.add_sum_erase Finset.univ _ (Finset.mem_univ i),
    ← Finset.add_sum_erase Finset.univ (fun j => g (f j)) (Finset.mem_univ i), hrest, update_self]
  abel

/-- A buffer that is posted is in nobody's hands. -/
theorem Owned.not_received (h : Owned pool s) (hpool : pool.Nodup) (hb : b ∈ s.posted) :
    (∀ r ∈ s.completions, r.buffer ≠ b) ∧ ∀ w r i, s.worker w = .insert r i → r.buffer ≠ b := by
  have hnodup : s.buffers.Nodup := by
    rw [h.buffers]
    exact hpool
  unfold Server.buffers at hnodup
  obtain ⟨hqueues, -, hworkers⟩ := Multiset.nodup_add.mp hnodup
  obtain ⟨-, -, hcompletions⟩ := Multiset.nodup_add.mp hqueues
  constructor
  · rintro r hr rfl
    exact Multiset.disjoint_left.mp hcompletions hb (List.mem_map_of_mem hr)
  · rintro w r i hw rfl
    refine Multiset.disjoint_left.mp hworkers (Multiset.mem_add.mpr (Or.inl hb)) ?_
    refine Multiset.mem_sum.mpr ⟨w, Finset.mem_univ w, ?_⟩
    rw [hw]
    exact Multiset.mem_singleton_self _

theorem Owned.message [DecidableEq β] (h : Owned pool s) (hs : s.message b bytes = some s') :
    Owned pool s' := by
  simp only [Server.message] at hs
  split at hs <;> cases hs
  rename_i hok
  obtain ⟨hb, hfits⟩ := hok
  refine ⟨?_, fun b' => ?_, fun r hr => ?_, h.handled⟩
  · rw [← h.buffers]
    unfold Server.buffers
    have hposted : (s.posted : Multiset β) = {b} + ((s.posted.erase b : List β) : Multiset β) := by
      rw [Multiset.singleton_add, Multiset.cons_coe]
      exact Multiset.coe_eq_coe.mpr (List.perm_cons_erase hb)
    rw [hposted, List.map_append, ← Multiset.coe_add]
    simp only [List.map_cons, List.map_nil, Multiset.coe_singleton]
    abel
  · dsimp only
    by_cases hb' : b' = b
    · rw [hb', update_self, List.length_append, List.length_drop, h.size b]
      omega
    · rw [update_of_ne hb', h.size]
  · rcases List.mem_append.mp hr with hr | hr
    · exact h.received r hr
    · rw [List.mem_singleton.mp hr]
      exact hfits

theorem Owned.next {rands : Nat → Nat → Nat} {fuel : Nat} (h : Owned pool s)
    (hs : s.next w rands fuel = some s') : Owned pool s' := by
  have hhands := fun x => sum_update Pc.buffers s.worker w x
  have hhandled : ∀ x, (∀ r i, x = .insert r i → r.bytesWritten ≤ defaultBufferSize) →
      ∀ v r i, update s.worker w x v = .insert r i → r.bytesWritten ≤ defaultBufferSize := by
    intro x hx v r i hv
    rcases update_cases hv with ⟨-, hv⟩ | ⟨-, hv⟩
    · exact hx r i hv
    · exact h.handled v r i hv
  unfold Server.next at hs
  split at hs
  · rename_i hw
    rw [hw] at hhands
    split at hs <;> cases hs
    · exact h
    · rename_i r rest hc
      refine ⟨?_, h.size, fun r' hr' => h.received r' (hc ▸ List.mem_cons_of_mem _ hr'),
        hhandled _ ?_⟩
      · rw [← h.buffers]
        unfold Server.buffers
        have hsum := hhands (.insert r 0)
        simp only [Pc.buffers_receive, Pc.buffers_insert, add_zero] at hsum
        rw [hsum, hc, List.map_cons, ← Multiset.cons_coe, ← Multiset.singleton_add]
        abel
      · intro r' i hr'
        cases hr'
        exact h.received r (hc ▸ List.mem_cons_self)
  · rename_i r i hw
    rw [hw] at hhands
    dsimp only at hs
    split at hs
    · obtain ⟨⟨a, store⟩, -, rfl⟩ := Option.map_eq_some_iff.mp hs
      refine ⟨?_, h.size, h.received, hhandled _ ?_⟩
      · rw [← h.buffers]
        unfold Server.buffers
        have hsum := hhands (.insert r (i + 1))
        simp only [Pc.buffers_insert, add_left_inj] at hsum
        rw [hsum]
      · intro r' i' hr'
        cases hr'
        exact h.handled w r i hw
    · cases hs
      refine ⟨?_, h.size, h.received, hhandled _ nofun⟩
      rw [← h.buffers]
      unfold Server.buffers
      have hsum := hhands .receive
      simp only [Pc.buffers_receive, Pc.buffers_insert, add_zero] at hsum
      rw [← hsum, ← Multiset.coe_add, Multiset.coe_singleton]
      abel

theorem Owned.step [DecidableEq β] (h : Owned pool s) (hs : Buffers.step s e = some s') :
    Owned pool s' := by
  cases e with
  | message b bytes => exact h.message hs
  | next w rands fuel => exact h.next hs

theorem start_owned (store : Cuckoo) (pool : List β) : Owned pool (Server.start store pool) where
  buffers := by simp [Server.buffers, Server.start]
  size _ := List.length_replicate
  received := nofun
  handled _ _ _ hw := by cases hw

/-! ## The server is the replica -/

/-- A write to one buffer leaves the messages in the others. -/
theorem bytes_update [DecidableEq β] {x : List Byte} (h : r.buffer ≠ b) :
    r.bytes (update memory b x) = r.bytes memory := by
  rw [ReceiveElement.bytes, update_of_ne h, ReceiveElement.bytes]

theorem replica_message [DecidableEq β] {rs : Replicas} {j : Nat} (h : Owned pool s)
    (hpool : pool.Nodup) (hr : rs j = s.replica) (hs : s.message b bytes = some s') :
    deliver rs (j, bytes) j = s'.replica := by
  simp only [Server.message] at hs
  split at hs <;> cases hs
  rename_i hok
  obtain ⟨hreceived, hhandled⟩ := h.not_received hpool hok.1
  have hqueue : s.completions.map (fun r => (r.message, r.bytes (update s.memory b
      (bytes ++ (s.memory b).drop bytes.length)))) =
        s.completions.map fun r => (r.message, r.bytes s.memory) := by
    refine List.map_congr_left fun r hr => ?_
    rw [bytes_update (hreceived r hr)]
  have hheld : ∀ w, (s.worker w).held (update s.memory b
      (bytes ++ (s.memory b).drop bytes.length)) = (s.worker w).held s.memory := by
    intro w
    cases hw : s.worker w with
    | receive => rfl
    | insert r i => rw [Pc.held, bytes_update (hhandled w r i hw), Pc.held]
  have hnew : (⟨b, bytes.length, s.arrivals.length⟩ : ReceiveElement β).bytes (update s.memory b
      (bytes ++ (s.memory b).drop bytes.length)) = bytes := by
    rw [ReceiveElement.bytes, update_self, List.take_left']
    rfl
  simp only [deliver, update_self, hr, Server.replica, List.map_append, List.map_cons,
    List.map_nil, hqueue, hheld, hnew]

/-- What the workers hold when one of them moves. -/
theorem held_update (s : Server β) (w : Fin workerThreadCount) (x : Pc β) :
    (fun v => (update s.worker w x v).held s.memory) =
      update s.replica.held w (x.held s.memory) := by
  funext v
  exact apply_update (fun _ (pc : Pc β) => pc.held s.memory) s.worker w x v

section worker

variable {rs : Replicas} {j : Nat}

theorem handle_receive {rest : List (ReceiveElement β)} (hr : rs j = s.replica)
    (hw : s.worker w = .receive) (hc : s.completions = r :: rest) :
    ∃ rs', handle rs (.receive j w) = some rs' ∧ rs' j = Server.replica { s with
      completions := rest, worker := update s.worker w (.insert r 0) } := by
  have hidle : (rs j).held w = [] := by
    rw [hr]
    change (s.worker w).held s.memory = []
    rw [hw, Pc.held_receive]
  have hqueue : (rs j).queue = (r.message, r.bytes s.memory) ::
      rest.map fun r => (r.message, r.bytes s.memory) := by
    rw [hr, Server.replica, hc, List.map_cons]
  rw [handle, hidle, hqueue]
  refine ⟨_, rfl, ?_⟩
  rw [update_self, hr]
  simp only [Server.replica, held_update, Pc.held_insert, List.drop_zero]

theorem handle_insert {rands : Nat → Nat → Nat} {fuel : Nat} {a : Result} {store : Cuckoo}
    (h : Owned pool s) (hr : rs j = s.replica) (hw : s.worker w = .insert r i)
    (hi : i < r.bytesWritten / sizeofNode)
    (hins : s.store.insert (elementAt (s.memory r.buffer) i) rands fuel = some (a, store)) :
    ∃ rs', handle rs (.insert j w rands fuel) = some rs' ∧ rs' j = Server.replica { s with
      store
      worker := update s.worker w (.insert r (i + 1))
      results := s.results ++ [(elementAt (s.memory r.buffer) i, a)] } := by
  have hsize : r.bytesWritten ≤ (s.memory r.buffer).length :=
    (h.handled w r i hw).trans_eq (h.size r.buffer).symm
  have hget := elementAt_eq hsize hi
  obtain ⟨hlen, he⟩ := List.getElem?_eq_some_iff.mp hget
  have hnext : (rs j).held w = (r.message, elementAt (s.memory r.buffer) i) ::
      ((nodesOf (r.bytes s.memory)).drop (i + 1)).map fun element => (r.message, element) := by
    rw [hr]
    change (s.worker w).held s.memory = _
    rw [hw, Pc.held_insert, List.drop_eq_getElem_cons hlen, he, List.map_cons]
  have hstore : (rs j).store = s.store := by rw [hr, Server.replica]
  rw [handle, hnext]
  dsimp only
  rw [hstore, hins]
  refine ⟨_, rfl, ?_⟩
  dsimp only
  rw [update_self, hr]
  simp only [Server.replica, held_update, Pc.held_insert]

/-- A buffer that is posted again holds no node that is not inserted. -/
theorem replica_post (h : Owned pool s) (hw : s.worker w = .insert r i)
    (hi : ¬ i < r.bytesWritten / sizeofNode) : s.replica = Server.replica { s with
      posted := s.posted ++ [r.buffer], worker := update s.worker w .receive } := by
  have hdone : (Pc.receive : Pc β).held s.memory = s.replica.held w := by
    change _ = (s.worker w).held s.memory
    rw [hw, Pc.held_receive, Pc.held_insert, List.drop_eq_nil_of_le, List.map_nil]
    rw [nodesOf_length, ReceiveElement.bytes, List.length_take,
      Nat.min_eq_left ((h.handled w r i hw).trans_eq (h.size r.buffer).symm)]
    exact Nat.le_of_not_lt hi
  have hheld := held_update s w .receive
  rw [hdone, update_eq_self] at hheld
  simp only [Server.replica, hheld]

/-- What a worker of the replica does when a worker of the server goes on. -/
theorem replica_next {rands : Nat → Nat → Nat} {fuel : Nat} (h : Owned pool s)
    (hr : rs j = s.replica) (hs : s.next w rands fuel = some s') :
    ∃ es rs', exec (replicaStep j) rs es = some rs' ∧ rs' j = s'.replica := by
  have hone : ∀ {e rs'}, handle rs e = some rs' →
      exec (replicaStep j) rs [.inr e] = some rs' := by
    intro e rs' he
    rw [exec_cons]
    exact ⟨rs', he, rfl⟩
  unfold Server.next at hs
  split at hs
  · rename_i hw
    split at hs <;> cases hs
    · exact ⟨[], rs, rfl, hr⟩
    · rename_i hc
      obtain ⟨rs', hhandle, hr'⟩ := handle_receive hr hw hc
      exact ⟨_, rs', hone hhandle, hr'⟩
  · rename_i hw
    dsimp only at hs
    split at hs
    · rename_i hi
      obtain ⟨⟨a, store⟩, hins, rfl⟩ := Option.map_eq_some_iff.mp hs
      obtain ⟨rs', hhandle, hr'⟩ := handle_insert h hr hw hi hins
      exact ⟨_, rs', hone hhandle, hr'⟩
    · rename_i hi
      cases hs
      exact ⟨[], rs, rfl, hr.trans (replica_post h hw hi)⟩

end worker

def Represents (pool : List β) (j : Nat) (s : Server β) (rs : Replicas) : Prop :=
  Owned pool s ∧ rs j = s.replica

/-- Each step of the server is a step of its replica, or none. -/
theorem step_simulates [DecidableEq β] (hpool : pool.Nodup) (j : Nat) :
    Simulates (@step β _) (replicaStep j) (Represents pool j) := by
  intro s e s' rs h hs
  obtain ⟨howned, hr⟩ := h
  have howned' := howned.step hs
  cases e with
  | message b bytes =>
    exact ⟨[.inl bytes], _, rfl, howned', replica_message howned hpool hr hs⟩
  | next w rands fuel =>
    obtain ⟨es, rs', hrun, hr'⟩ := replica_next howned hr hs
    exact ⟨es, rs', hrun, howned', hr'⟩

theorem run_represents [DecidableEq β] (hpool : pool.Nodup) {es : List (Event β)}
    (stores : Nat → Cuckoo) (j : Nat) (h : exec step (Server.start (stores j) pool) es = some s) :
    ∃ es' rs, exec (replicaStep j) (fun i => .new (stores i)) es' = some rs ∧
      Represents pool j s rs := by
  have hstart : Represents pool j (Server.start (stores j) pool) fun i => .new (stores i) :=
    ⟨start_owned (stores j) pool, rfl⟩
  exact (step_simulates hpool j).run hstart h

/-- Two messages in two buffers, taken by two workers, the first one in the hands of
its worker while a third message comes into the third buffer. -/
def threeMessages : List (Event Nat) :=
  [.message 0 (Node.bytes ⟨5, 1⟩ ++ Node.bytes ⟨6, 1⟩), .message 2 (Node.bytes ⟨7, 1⟩),
    .next 0 (fun _ _ => 0) 1, .next 0 (fun _ _ => 0) 1, .next 1 (fun _ _ => 0) 1,
    .message 1 (Node.bytes ⟨8, 1⟩), .next 1 (fun _ _ => 0) 1, .next 1 (fun _ _ => 0) 1,
    .message 2 (Node.bytes ⟨9, 1⟩)]

def handed (held : List (Nat × Node)) : Multiset Node := (held.map Prod.snd : List Node)

theorem handed_nil : handed [] = 0 := rfl

theorem handed_cons (m : Nat) (element : Node) (rest : List (Nat × Node)) :
    handed ((m, element) :: rest) = {element} + handed rest := by
  rw [Multiset.singleton_add, handed, List.map_cons, ← Multiset.cons_coe, handed]

theorem handed_message (m : Nat) (elements : List Node) :
    handed (elements.map fun element => (m, element)) = (elements : Multiset Node) := by
  simp [handed, Function.comp_def]

/-- The nodes that have been inserted, with those that wait in the queue or in the
hands of a worker. -/
def nodes (r : Replica) : Multiset Node :=
  (r.results.map Prod.fst : List Node) + (r.queue.flatMap fun m => nodesOf m.2 : List Node) +
    ∑ w, handed (r.held w)

/-- The nodes of all messages are there once. -/
def Conserved (r : Replica) : Prop := nodes r = (r.arrivals.flatMap nodesOf : List Node)

theorem conserved_deliver {rs : Replicas} {j : Nat} (h : Conserved (rs j)) (bytes : List Byte) :
    Conserved (deliver rs (j, bytes) j) := by
  unfold Conserved nodes at h ⊢
  simp only [deliver, update_self, List.flatMap_append, List.flatMap_singleton,
    ← Multiset.coe_add, ← h]
  abel

theorem conserved_handle {rs rs' : Replicas} {j : Nat} {e : ServerEvent} (h : Conserved (rs j))
    (hs : handle rs e = some rs') : Conserved (rs' j) := by
  by_cases hj : j = e.replica
  · subst hj
    unfold Conserved nodes at h ⊢
    cases e with
    | receive j w =>
      simp only [handle] at hs
      split at hs <;> cases hs
      rename_i m bytes queue hheld hqueue
      have hsum := sum_update handed (rs j).held w
        ((nodesOf bytes).map fun element => (m, element))
      simp only [ServerEvent.replica, update_self] at h ⊢
      rw [hheld, handed_nil, add_zero, handed_message] at hsum
      rw [← h, hqueue, List.flatMap_cons, ← Multiset.coe_add, hsum]
      abel
    | insert j w rands fuel =>
      simp only [handle] at hs
      split at hs
      · cases hs
      · rename_i m element rest hheld
        obtain ⟨⟨a, store⟩, -, rfl⟩ := Option.map_eq_some_iff.mp hs
        have hsum := sum_update handed (rs j).held w rest
        simp only [ServerEvent.replica, update_self] at h ⊢
        rw [hheld, handed_cons, ← add_assoc] at hsum
        rw [← h, ← add_right_cancel hsum, List.map_append, ← Multiset.coe_add, List.map_singleton,
          Multiset.coe_singleton]
        abel
  · rwa [(handle_cases hs).1 j hj]

theorem conserved_step {rs rs' : Replicas} {j : Nat} {e : List Byte ⊕ ServerEvent}
    (h : Conserved (rs j)) (hs : replicaStep j rs e = some rs') : Conserved (rs' j) := by
  cases e with
  | inl bytes =>
    cases hs
    exact conserved_deliver h bytes
  | inr e => exact conserved_handle h hs

def Pc.polling : Pc β → Bool
  | .receive => true
  | .insert .. => false

theorem Pc.eq_receive {pc : Pc β} (h : pc.polling = true) : pc = .receive := by
  cases pc with
  | receive => rfl
  | insert r i => cases h

/-- No message waits and no worker has one. -/
structure AtRest (s : Server β) : Prop where
  completions : s.completions = []
  worker : ∀ w, (s.worker w).polling = true

/-- **Every node once.** In every run of the server the nodes of the messages that
have come in are those that have been inserted, that wait and that a worker has yet to
insert, each as often; at rest every one has been inserted, and every buffer is posted. -/
theorem every_node_inserted_once [DecidableEq β] (hpool : pool.Nodup) {es : List (Event β)}
    {store : Cuckoo} (h : exec step (Server.start store pool) es = some s) :
    Conserved s.replica ∧ (AtRest s →
      (s.results.map Prod.fst).Perm (s.arrivals.flatMap nodesOf) ∧ s.posted.Perm pool) := by
  obtain ⟨es', rs, hrun, howned, hr⟩ := run_represents hpool (fun _ => store) 0 h
  have hconserved : Conserved s.replica := by
    rw [← hr]
    refine exec_invariant (I := fun rs : Replicas => Conserved (rs 0)) ?_
      (fun _ _ _ hu hs => conserved_step hu hs) hrun
    simp [Conserved, nodes, Replica.new, handed_nil]
  refine ⟨hconserved, fun hrest => ?_⟩
  have hheld : ∀ w, s.replica.held w = [] := fun w => by
    change (s.worker w).held s.memory = []
    rw [Pc.eq_receive (hrest.worker w), Pc.held_receive]
  constructor
  · unfold Conserved nodes at hconserved
    simp only [hheld, handed_nil, Finset.sum_const_zero, add_zero] at hconserved
    rw [Server.replica, hrest.completions] at hconserved
    simpa using hconserved
  · have hbuffers := howned.buffers
    unfold Server.buffers at hbuffers
    simp only [fun w => Pc.eq_receive (hrest.worker w), hrest.completions, Pc.buffers_receive,
      Finset.sum_const_zero, add_zero, List.map_nil, Multiset.coe_nil] at hbuffers
    exact Multiset.coe_eq_coe.mp hbuffers

/-- Both workers come to the end of their messages, and the third and the fourth are
taken and inserted as well. -/
def allHandled : List (Event Nat) :=
  threeMessages ++ List.replicate 2 (.next 0 (fun _ _ => 0) 1) ++
    (List.replicate 3 [.next 0 (fun _ _ => 0) 1, .next 1 (fun _ _ => 0) 1]).flatten

theorem every_node_inserted_once_three : ∃ s : Server Nat,
    exec step (Server.start (.new 1) [0, 1, 2]) allHandled = some s ∧
    s.results.map Prod.fst = [⟨5, 1⟩, ⟨7, 1⟩, ⟨6, 1⟩, ⟨8, 1⟩, ⟨9, 1⟩] ∧
    (s.results.map Prod.fst).Perm (s.arrivals.flatMap nodesOf) ∧ s.posted.Perm [0, 1, 2] := by
  have hrun : (exec step (Server.start (.new 1) [0, 1, 2]) allHandled).map (fun s : Server Nat =>
      (s.results.map Prod.fst, s.completions, decide (∀ w, (s.worker w).polling = true))) =
        some ([⟨5, 1⟩, ⟨7, 1⟩, ⟨6, 1⟩, ⟨8, 1⟩, ⟨9, 1⟩], [], true) := by
    decide +kernel
  obtain ⟨s, hs, hread⟩ := Option.map_eq_some_iff.mp hrun
  obtain ⟨hresults, hrest⟩ := Prod.mk.inj hread
  obtain ⟨hcompletions, hworkers⟩ := Prod.mk.inj hrest
  exact ⟨s, hs, hresults,
    (every_node_inserted_once (by decide) hs).2 ⟨hcompletions, of_decide_eq_true hworkers⟩⟩

end ConcurrentComputing.Replicated.Buffers
