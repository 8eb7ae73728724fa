import ConcurrentComputing.ReplicatedStore

/-! # What a step does to a replica

In terms of what a replica has yet to insert: a delivery adds the nodes of a
message, taking a message changes nothing, and an insert takes one node away. -/

namespace ConcurrentComputing.Replicated

open CuckooPath Placement Store LockClients Remote Runs Function

/-- What has arrived and is not inserted yet, with its message numbers. -/
def Replica.pending (r : Replica) : List (Nat × Node) :=
  (r.queue.flatMap fun (m, bytes) => (nodesOf bytes).map fun element => (m, element)) ++
    (List.finRange workerThreadCount).flatMap r.held

/-- Nothing is going on: no call in progress, nothing left to insert. -/
structure Quiescent {ι : Type} (n : Nat) (s : State ι) : Prop where
  idle : ∀ i, s.client i = none
  applied : ∀ j < n, (s.env j).pending = []

variable {r r' : Replica} {rs rs' : Replicas} {p : Nat × Node}

theorem mem_pending : p ∈ r.pending ↔
    (∃ bytes, (p.1, bytes) ∈ r.queue ∧ p.2 ∈ nodesOf bytes) ∨ ∃ w, p ∈ r.held w := by
  obtain ⟨m, element⟩ := p
  simp [Replica.pending]

theorem deliver_other {m : Message} {j : Nat} (h : j ≠ m.1) : deliver rs m j = rs j := by
  unfold deliver
  rw [update_of_ne h]

theorem deliver_store (rs : Replicas) (m : Message) (j : Nat) :
    (deliver rs m j).store = (rs j).store ∧ (deliver rs m j).results = (rs j).results := by
  by_cases h : j = m.1
  · subst h
    simp [deliver]
  · rw [deliver_other h]
    exact ⟨rfl, rfl⟩

theorem deliver_arrivals (rs : Replicas) (m : Message) :
    (deliver rs m m.1).arrivals = (rs m.1).arrivals ++ [m.2] := by
  simp [deliver]

theorem mem_pending_deliver (rs : Replicas) (m : Message) : p ∈ (deliver rs m m.1).pending ↔
    p ∈ (rs m.1).pending ∨ (p.1 = (rs m.1).arrivals.length ∧ p.2 ∈ nodesOf m.2) := by
  simp only [mem_pending, deliver, update_self, List.mem_append, List.mem_singleton,
    Prod.mk.injEq, or_and_right, exists_or]
  have hnew : (∃ bytes, (p.1 = (rs m.1).arrivals.length ∧ bytes = m.2) ∧ p.2 ∈ nodesOf bytes) ↔
      p.1 = (rs m.1).arrivals.length ∧ p.2 ∈ nodesOf m.2 := by
    refine ⟨fun ⟨bytes, ⟨hm, hb⟩, hp⟩ => ⟨hm, hb ▸ hp⟩, fun ⟨hm, hp⟩ => ⟨m.2, ⟨hm, rfl⟩, hp⟩⟩
  rw [hnew]
  exact or_right_comm

/-- What a step of a worker does to its replica. -/
inductive Handled (r r' : Replica) : ServerEvent → Prop
  | received {j w} (hstore : r'.store = r.store) (harr : r'.arrivals = r.arrivals)
    (hres : r'.results = r.results) (hp : ∀ p, p ∈ r'.pending ↔ p ∈ r.pending) :
    Handled r r' (.receive j w)
  | inserted {j w rands fuel m element rest result} (hheld : r.held w = (m, element) :: rest)
    (hins : r.store.insert element rands fuel = some (result, r'.store))
    (harr : r'.arrivals = r.arrivals) (hres : r'.results = r.results ++ [(element, result)])
    (hp : ∀ p, p ∈ r.pending ↔ p = (m, element) ∨ p ∈ r'.pending) :
    Handled r r' (.insert j w rands fuel)

def ServerEvent.replica : ServerEvent → Nat
  | .receive j _ | .insert j _ _ _ => j

/-- Membership in what the workers hold, with the list of one worker replaced. -/
theorem exists_mem_update {held : Fin workerThreadCount → List (Nat × Node)}
    {w : Fin workerThreadCount} {l : List (Nat × Node)} :
    (∃ v, p ∈ update held w l v) ↔ p ∈ l ∨ ∃ v, v ≠ w ∧ p ∈ held v := by
  refine ⟨fun ⟨v, hv⟩ => ?_, fun h => ?_⟩
  · by_cases hvw : v = w
    · subst hvw
      rw [update_self] at hv
      exact Or.inl hv
    · rw [update_of_ne hvw] at hv
      exact Or.inr ⟨v, hvw, hv⟩
  · rcases h with h | ⟨v, hvw, hv⟩
    · exact ⟨w, by rw [update_self]; exact h⟩
    · exact ⟨v, by rw [update_of_ne hvw]; exact hv⟩

theorem exists_mem_held {held : Fin workerThreadCount → List (Nat × Node)}
    (w : Fin workerThreadCount) :
    (∃ v, p ∈ held v) ↔ p ∈ held w ∨ ∃ v, v ≠ w ∧ p ∈ held v := by
  have h : (∃ v, p ∈ update held w (held w) v) ↔ _ := exists_mem_update
  rwa [update_eq_self] at h

theorem handle_cases {e : ServerEvent} (h : handle rs e = some rs') :
    (∀ j, j ≠ e.replica → rs' j = rs j) ∧ Handled (rs e.replica) (rs' e.replica) e := by
  cases e with
  | receive j w =>
    simp only [handle] at h
    split at h
    · rename_i m bytes queue hheld hqueue
      cases h
      refine ⟨fun i hi => update_of_ne hi _ _, ?_⟩
      simp only [ServerEvent.replica, update_self]
      refine .received rfl rfl rfl fun p => ?_
      rw [mem_pending, mem_pending, hqueue]
      dsimp only
      rw [exists_mem_update, exists_mem_held w, hheld]
      obtain ⟨k, a⟩ := p
      simp only [List.mem_map, Prod.mk.injEq, List.mem_cons, List.not_mem_nil, false_or,
        or_and_right, exists_or]
      have hfirst : (∃ a', a' ∈ nodesOf bytes ∧ m = k ∧ a' = a) ↔
          ∃ bytes', (k = m ∧ bytes' = bytes) ∧ a ∈ nodesOf bytes' := by
        constructor
        · intro h
          obtain ⟨a', ha, hk, rfl⟩ := h
          exact ⟨bytes, ⟨hk.symm, rfl⟩, ha⟩
        · intro h
          obtain ⟨b, ⟨hk, rfl⟩, ha⟩ := h
          exact ⟨a, ha, hk.symm, rfl⟩
      rw [hfirst, or_left_comm, or_assoc]
    · cases h
  | insert j w rands fuel =>
    simp only [handle] at h
    split at h
    · cases h
    · rename_i m element rest hheld
      obtain ⟨⟨result, store⟩, hins, rfl⟩ := Option.map_eq_some_iff.mp h
      refine ⟨fun i hi => update_of_ne hi _ _, ?_⟩
      simp only [ServerEvent.replica, update_self]
      refine .inserted hheld hins rfl rfl fun p => ?_
      rw [mem_pending, mem_pending]
      dsimp only
      rw [exists_mem_update, exists_mem_held w, hheld, List.mem_cons, or_assoc, or_left_comm]

/-! ## Runs -/

variable {ι : Type} [DecidableEq ι] {n : Nat} {stores : Nat → Cuckoo} {s s' : State ι}

/-- Whatever is inserted, the stores stay well formed. -/
theorem step_wellFormed {e : Event ι} {j : Nat} (h : (s.env j).store.WellFormed)
    (hs : step n s e = some s') : (s'.env j).store.WellFormed := by
  rcases step_cases hs with ⟨_, _, _, _, _, henv⟩ | ⟨_, _, _, _, _, _, henv⟩ |
    ⟨_, _, _, m, _, _, _, _, _, henv⟩ | ⟨e, _, _, _, henv⟩
  · rwa [henv]
  · rwa [henv]
  · rwa [henv, (deliver_store _ m j).1]
  · obtain ⟨hother, hhandled⟩ := handle_cases henv
    by_cases hj : j = e.replica
    · subst hj
      cases hhandled with
      | received hstore => rwa [hstore]
      | inserted _ hins => exact (Cuckoo.insert_spec h hins).2.1
    · rwa [hother j hj]

theorem stores_wellFormed {j : Nat} (h : (stores j).WellFormed) {es : List (Event ι)}
    (hs : exec (step n) (start stores) es = some s) : (s.env j).store.WellFormed :=
  exec_invariant (I := fun s : State ι => (s.env j).store.WellFormed) h
    (fun _ _ _ hu hstep => step_wellFormed hu hstep) hs

end ConcurrentComputing.Replicated
