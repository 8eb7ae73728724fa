import ConcurrentComputing.RemoteInsert
import ConcurrentComputing.StoreMap

/-! # The replicated store

Clients running `Remote::insert` over any number of replicas, each of which is a
server: a receive queue shared by its worker threads, and a store the workers
insert into. A send is complete once its message sits in the queue. -/

namespace ConcurrentComputing.Replicated

open CuckooPath Store LockClients Remote Runs Function

abbrev workerThreadCount : Nat := 6

instance : NeZero workerThreadCount := ⟨by decide⟩

/-- A server. Messages are numbered as they arrive; `arrivals` and `results` keep
what has arrived and what `store -> insert` has answered, which nothing reads. -/
structure Replica where
  store : Cuckoo
  queue : List (Nat × List Byte)
  held : Fin workerThreadCount → List (Nat × Node)
  arrivals : List (List Byte)
  results : List (Node × Result)

def Replica.new (store : Cuckoo) : Replica := ⟨store, [], fun _ => [], [], []⟩

abbrev Replicas := Nat → Replica

/-- A message comes into the queue of the replica at the other end. -/
def deliver (rs : Replicas) (m : Message) : Replicas :=
  update rs m.1 { rs m.1 with
    queue := (rs m.1).queue ++ [((rs m.1).arrivals.length, m.2)]
    arrivals := (rs m.1).arrivals ++ [m.2] }

inductive ServerEvent where
  | receive (replica : Nat) (worker : Fin workerThreadCount)
  | insert (replica : Nat) (worker : Fin workerThreadCount) (rands : Nat → Nat → Nat) (fuel : Nat)

/-- The steps of `connection_handler`: a worker with nothing left to do takes the
next message and casts it to nodes, or inserts the next node it has, dropping the
result. -/
def handle (rs : Replicas) : ServerEvent → Option Replicas
  | .receive j w =>
    match (rs j).held w, (rs j).queue with
    | [], (m, bytes) :: queue => some (update rs j { rs j with
        queue := queue
        held := update (rs j).held w ((nodesOf bytes).map fun element => (m, element)) })
    | _, _ => none
  | .insert j w rands fuel =>
    match (rs j).held w with
    | [] => none
    | (_, element) :: rest => ((rs j).store.insert element rands fuel).map fun (r, store) =>
        update rs j { rs j with
          store := store
          held := update (rs j).held w rest
          results := (rs j).results ++ [(element, r)] }

abbrev State (ι : Type) := System ι InsertCall LockWord Int Message Result Replicas

abbrev Event (ι : Type) := LockClients.Event ι InsertCall ServerEvent

variable {ι : Type} [DecidableEq ι]

/-- Nothing in flight, all lock words 0. -/
def start (stores : Nat → Cuckoo) : State ι := .init fun j => .new (stores j)

/-- One step of a client or of a worker, over `n` replicas. -/
def step (n : Nat) : State ι → Event ι → Option (State ι) :=
  LockClients.step (InsertCall.program n) deliver handle

variable {n : Nat} {stores : Nat → Cuckoo} {s : State ι} {es : List (Event ι)}

theorem reachable_inv (hn : 0 < n) (h : exec (step n) (start stores) es = some s) :
    Inv (lockWords n) (InsertCall.During n) (InsertCall.Done n) s :=
  run_inv (program_safe hn) (fun _ _ _ hd => hd.owned) h

/-! ## The bucket locks -/

/-- The lock of a primary bucket, by the bucket's index. -/
def lockAt (idx : Nat) : Int := (size * entryWidth + idx) * sizeofNode

/-- The lock of a non-negative key is that of the primary bucket the server puts it
into. -/
theorem lockOffset_eq {key : Word} (hk : 0 ≤ key.toInt) :
    lockOffset key = lockAt (Store.hash size key .one) := by
  have hmod : (Remote.hash key .one).toInt = (Store.hash size key .one : Int) := by
    have hsize : (BitVec.ofNat 32 size).toInt = 125000 := by decide
    have hnat : (size : Int) = 125000 := by decide
    have hint : key.toInt = key.toNat := by
      rw [BitVec.toInt_eq_toNat_cond] at hk ⊢
      split at hk <;> omega
    rw [Remote.hash, BitVec.toInt_srem, hsize, Store.hash, Int.natCast_mod, hnat, hint]
    exact Int.tmod_eq_emod_of_nonneg (Int.natCast_nonneg _)
  rw [lockOffset, hmod, lockAt]

/-- **Bucket locks.** In every state of a system of at least one replica: a lock
word is 1 while exactly one insert in progress has won it and not given it up,
and 0 while none has; no two inserts are between a successful `prepareMessage` and
the end of `release` for one primary bucket; and an insert that has returned owns
no lock word and, when it returned `ABORT_FAILURE`, has sent nothing. -/
theorem bucket_locks (hn : 0 < n) (h : exec (step n) (start stores) es = some s) :
    (∀ w, (s.words w = 1 ↔ ∃! i, w ∈ s.ownedBy i) ∧
      (s.words w = 0 ↔ ∀ i, w ∉ s.ownedBy i) ∧ (s.words w = 1 ∨ s.words w = 0)) ∧
    (∀ i j k₁ k₂, 0 ≤ k₁.toInt → 0 ≤ k₂.toInt →
      Store.hash size k₁ .one = Store.hash size k₂ .one →
      lockOffset k₁ ∈ s.insideOf i → lockOffset k₂ ∈ s.insideOf j → i = j) ∧
    ∀ r ∈ s.returned, r.history.owned = ∅ ∧ (r.answer = .true ∨ r.answer = .abortFailure) ∧
      (r.answer = .abortFailure → r.history.sent = []) := by
  have hinv := reachable_inv hn h
  refine ⟨fun w => ?_, fun i j k₁ k₂ h₁ h₂ he hi hj => ?_, fun r hr => ?_⟩
  · have huniq : ∀ i, w ∈ s.ownedBy i → ∃! i, w ∈ s.ownedBy i := fun i hi =>
      ⟨i, hi, fun j hj => by
        by_contra hne
        exact Finset.disjoint_left.mp (hinv.exclusive.owned j i hne) hj hi⟩
    rcases hinv.exclusive.word w with ⟨h1, i, hi⟩ | ⟨h0, hnone⟩
    · refine ⟨iff_of_true h1 (huniq i hi), iff_of_false ?_ fun hnone => hnone i hi, Or.inl h1⟩
      rw [h1]
      decide
    · refine ⟨iff_of_false ?_ ?_, iff_of_true h0 hnone, Or.inr h0⟩
      · rw [h0]
        decide
      · exact fun ⟨i, hi, _⟩ => hnone i hi
  · by_contra hne
    rw [lockOffset_eq h₂, ← he, ← lockOffset_eq h₁] at hj
    exact Finset.disjoint_left.mp (hinv.exclusive.inside i j hne) hi hj
  · have hdone := hinv.answered r hr
    refine ⟨hdone.owned, ?_, fun ha => ?_⟩ <;> rcases hdone.answer with ⟨ha', hs⟩ | ⟨ha', _⟩
    · exact Or.inr ha'
    · exact Or.inl ha'
    · exact hs
    · rw [ha] at ha'
      cases ha'

/-- Two clients over two replicas want the same bucket: the second starts its
rotation at the other replica, wins that word, and gives it up again. -/
def contention : List (Event Bool) :=
  [.call false (.pair ⟨1, 10⟩), .next false 0, .next false 0,
    .call true (.list [⟨125001, 20⟩] fun _ _ => 0), .next true 1, .next true 0, .next true 0]

theorem bucket_locks_contention :
    ∃ s, exec (step 2) (start fun _ => .new 1) contention = some s ∧
      ¬ (lockOffset 1 ∈ s.insideOf false ∧ lockOffset 125001 ∈ s.insideOf true) := by
  have hrun : (exec (step 2) (start fun _ => .new 1) contention).isSome = true := by
    decide +kernel
  obtain ⟨s, hs⟩ := Option.isSome_iff_exists.mp hrun
  refine ⟨s, hs, fun ⟨hf, ht⟩ => ?_⟩
  have heq := (bucket_locks (by decide) hs).2.1 false true 1 125001 (by decide) (by decide)
    (by decide) hf ht
  cases heq

/-! ## The list overload -/

/-- What the list overload should have sent: one message to each of the replicas
and none elsewhere, each casting to the list. -/
def Replicates (n : Nat) (elements : List Node) (sent : List Message) : Prop :=
  (sent.map Prod.fst).Perm (List.range n) ∧ ∀ m ∈ sent, nodesOf m.2 = elements

instance (n : Nat) (elements : List Node) (sent : List Message) :
    Decidable (Replicates n elements sent) := by
  unfold Replicates
  infer_instance

/-- 24 bytes are three nodes, those of the list when it has three. -/
theorem nodesOf_insertionBytes_iff {elements : List Node} {beyond : Nat → Byte} :
    nodesOf (insertionBytes elements beyond) = elements ↔ elements.length = 3 := by
  have hlen : (elements.flatMap Node.bytes).length = elements.length * sizeofNode := by
    simp [List.length_flatMap, List.map_const']
  refine ⟨fun h => ?_, fun h => ?_⟩
  · have h3 := congrArg List.length h
    rw [nodesOf_length] at h3
    simp only [insertionBytes, List.length_take, List.length_append, List.length_map,
      List.length_range, sizeofNode] at h3
    omega
  · rw [h] at hlen
    have htake : insertionBytes elements beyond = elements.flatMap Node.bytes := by
      unfold insertionBytes
      exact List.take_left' hlen
    rw [htake, ← List.append_nil (elements.flatMap Node.bytes), nodesOf_flatMap]
    simp [nodesOf]

/-- **Lists of pairs.** A call of the list overload with a non-empty list that has
returned `TRUE` has replicated the list exactly when there are three replicas and
three pairs. -/
theorem list_replicated_iff (hn : 0 < n) (h : exec (step n) (start stores) es = some s)
    {r : Returned InsertCall LockWord Int Message Result} (hr : r ∈ s.returned)
    {elements : List Node} {beyond : Nat → Nat → Byte} (hcall : r.call = .list elements beyond)
    (hne : elements ≠ []) (htrue : r.answer = .true) :
    Replicates n elements r.history.sent ↔ n = 3 ∧ elements.length = 3 := by
  have hdone := (reachable_inv hn h).answered r hr
  have hsent : r.history.sent =
      (List.range elements.length).map fun i => (i, insertionBytes elements (beyond i)) := by
    rcases hdone.answer with ⟨ha, _⟩ | ⟨_, hs⟩
    · rw [htrue] at ha
      cases ha
    · rw [hcall] at hs
      exact hs
  have hpos : 0 < elements.length := List.length_pos_iff.mpr hne
  have hfst : r.history.sent.map Prod.fst = List.range elements.length := by
    rw [hsent, List.map_map]
    exact List.map_id _
  unfold Replicates
  rw [hfst]
  refine ⟨fun ⟨hperm, hnodes⟩ => ?_, fun ⟨hn3, hlen⟩ => ⟨by rw [hn3, hlen], fun m hm => ?_⟩⟩
  · have hlen := hperm.length_eq
    rw [List.length_range, List.length_range] at hlen
    have hfirst := hnodes (0, insertionBytes elements (beyond 0)) (by
      rw [hsent]
      exact List.mem_map.mpr ⟨0, List.mem_range.mpr hpos, rfl⟩)
    have h3 := nodesOf_insertionBytes_iff.mp hfirst
    exact ⟨hlen.symm.trans h3, h3⟩
  · rw [hsent] at hm
    obtain ⟨i, _, rfl⟩ := List.mem_map.mp hm
    exact nodesOf_insertionBytes_iff.mpr hlen

/-- Three pairs of distinct primary buckets. -/
def threePairs : List Node := [⟨1, 10⟩, ⟨2, 20⟩, ⟨3, 30⟩]

/-- One client inserts three pairs over `n` replicas, alone. -/
def insertThree (n : Nat) : List (Event Unit) :=
  .call () (.list threePairs fun _ _ => 0) ::
    List.replicate (3 * (1 + n) + 3 + 3 * n) (.next () 0)

theorem insertThree_calls {s : State Unit}
    (h : exec (step n) (start stores) (insertThree n) = some s) :
    ∀ r ∈ s.returned, r.call = InsertCall.list threePairs fun _ _ => 0 := by
  refine (run_calls (P := fun c => c = InsertCall.list threePairs fun _ _ => 0) ?_ h).2
  intro i c hm
  simpa [insertThree] using hm

theorem list_replicated_three :
    ∃ s r, exec (step 3) (start fun _ => .new 1) (insertThree 3) = some s ∧ r ∈ s.returned ∧
      Replicates 3 threePairs r.history.sent := by
  have hrun : (exec (step 3) (start fun _ => .new 1) (insertThree 3)).map
      (fun s => s.returned.map Returned.answer) = some [.true] := by
    decide +kernel
  obtain ⟨s, hs, hans⟩ := Option.map_eq_some_iff.mp hrun
  obtain ⟨r, hr, htrue⟩ := List.map_eq_singleton_iff.mp hans
  have hmem : r ∈ s.returned := by simp [hr]
  exact ⟨s, r, hs, hmem, (list_replicated_iff (by decide) hs hmem (insertThree_calls hs r hmem)
    (by decide) htrue).mpr (by decide)⟩

/-- Over four replicas the call returns `TRUE` and the last replica has got
nothing. -/
theorem three_pairs_miss_fourth :
    ¬ ∀ s, exec (step 4) (start fun _ => .new 1) (insertThree 4) = some s →
      ∀ r ∈ s.returned, r.answer = .true → Replicates 4 threePairs r.history.sent := by
  intro h
  have hrun : (exec (step 4) (start fun _ => .new 1) (insertThree 4)).map
      (fun s => s.returned.map fun r =>
        (r.answer, decide (Replicates 4 threePairs r.history.sent))) = some [(.true, false)] := by
    decide +kernel
  obtain ⟨s, hs, hmap⟩ := Option.map_eq_some_iff.mp hrun
  obtain ⟨r, hr, hpair⟩ := List.map_eq_singleton_iff.mp hmap
  obtain ⟨htrue, hfalse⟩ := Prod.mk.inj hpair
  exact of_decide_eq_false hfalse (h s hs r (by simp [hr]) htrue)

end ConcurrentComputing.Replicated
