import ConcurrentComputing.RemoteInsert
import ConcurrentComputing.CuckooSearch

/-! # A list insert with nobody else running

`insert(std::vector)` takes the lock of each key's primary bucket on every replica
and keeps all of them while it goes on to the next key. A second key with the same
primary bucket finds the lock held by the call itself. -/

namespace ConcurrentComputing.Remote

open CuckooPath Store LockClients Function Runs

variable {n : Nat} (rands : Nat → Nat)

/-- The words when the locks of the given offsets are held on every replica. -/
def Held (n : Nat) (offsets : List Int) (words : LockWord → Word64) : Prop :=
  ∀ targetId < n, ∀ offset, words (targetId, offset) = if offset ∈ offsets then 1 else 0

/-- The loop over replicas whose locks are free takes them all. -/
theorem alone_prepareLoop (offset : Int) (start : Nat) :
    ∀ todo ≤ n, ∀ (set : List Nat) (s : Solo LockWord),
    (∀ i, n - todo ≤ i → i < n → s.words ((start + i) % n, offset) = 0) →
    (alone rands (prepareLoop n offset start todo set) s).1 =
        set ++ (List.range' (n - todo) todo).map (fun i => (start + i) % n) ∧
      ∀ w, (alone rands (prepareLoop n offset start todo set) s).2.words w =
        if w.2 = offset ∧ w.1 ∈ (List.range' (n - todo) todo).map (fun i => (start + i) % n) then 1
        else s.words w := by
  intro todo
  induction todo with
  | zero => exact fun _ set s _ => ⟨by simp [prepareLoop, alone], by simp [prepareLoop, alone]⟩
  | succ todo ih =>
    intro hle set s h0
    have hfree : s.words ((start + (n - (todo + 1))) % n, offset) = 0 :=
      h0 _ (Nat.le_refl _) (by omega)
    have hsucc : n - (todo + 1) + 1 = n - todo := by omega
    -- the locks to come are others
    have hrest : ∀ i, n - todo ≤ i → i < n →
        update s.words ((start + (n - (todo + 1))) % n, offset) 1 ((start + i) % n, offset) = 0 := by
      intro i hi hlt
      rw [update_of_ne, h0 i (by omega) hlt]
      intro he
      have := rotation_injOn start i hlt (n - (todo + 1)) (by omega) (Prod.mk.inj he).1
      omega
    obtain ⟨hset, hwords⟩ := ih (by omega)
      (set ++ [(start + (n - (todo + 1))) % n])
      ⟨update s.words ((start + (n - (todo + 1))) % n, offset) 1, s.draws⟩ hrest
    have hnot : ¬ (0 : Word64) = 1 := by decide
    rw [List.range'_succ, hsucc, List.map_cons]
    simp only [prepareLoop, alone, hfree, if_true, if_neg hnot]
    refine ⟨by rw [hset]; simp, fun w => ?_⟩
    rw [hwords w]
    obtain ⟨t, o⟩ := w
    by_cases hmore : o = offset ∧ t ∈ (List.range' (n - todo) todo).map fun i => (start + i) % n
    · rw [if_pos hmore, if_pos ⟨hmore.1, List.mem_cons_of_mem _ hmore.2⟩]
    · rw [if_neg hmore]
      by_cases hw : (t, o) = ((start + (n - (todo + 1))) % n, offset)
      · obtain ⟨rfl, rfl⟩ := Prod.mk.inj hw
        rw [if_pos ⟨rfl, List.mem_cons_self⟩]
        exact update_self _ _ _
      · rw [if_neg]
        · exact update_of_ne hw _ _
        intro hall
        obtain ⟨rfl, hm⟩ := hall
        rcases List.mem_cons.mp hm with rfl | hm
        · exact hw rfl
        · exact hmore ⟨rfl, hm⟩

/-- `prepareMessage` of a key whose primary bucket is free. -/
theorem alone_prepareMessage_free {key : Word} {offsets : List Int} {s : Solo LockWord}
    (hn : 0 < n) (hs : Held n offsets s.words) (hfree : lockOffset key ∉ offsets) :
    (alone rands (prepareMessage n key) s).1.length = n ∧
      Held n (lockOffset key :: offsets) (alone rands (prepareMessage n key) s).2.words := by
  obtain ⟨hset, hwords⟩ := alone_prepareLoop rands (lockOffset key)
    (rands s.draws % n) n (Nat.le_refl n) [] { s with draws := s.draws + 1 } fun i _ _ => by
      rw [hs _ (Nat.mod_lt _ hn), if_neg hfree]
  rw [Nat.sub_self, List.nil_append, ← List.range_eq_range'] at hset
  rw [Nat.sub_self, ← List.range_eq_range'] at hwords
  refine ⟨(congrArg List.length hset).trans (by simp), fun targetId ht offset => ?_⟩
  refine (hwords (targetId, offset)).trans ?_
  have hmem : targetId ∈ (List.range n).map fun i => (rands s.draws % n + i) % n := by
    obtain ⟨i, hi, he⟩ := exists_turn (rands s.draws % n) ht
    exact List.mem_map.mpr ⟨i, List.mem_range.mpr hi, he⟩
  by_cases ho : offset = lockOffset key
  · rw [if_pos ⟨ho, hmem⟩, if_pos (List.mem_cons.mpr (Or.inl ho))]
  · rw [if_neg fun h => ho h.1]
    refine (hs targetId ht offset).trans ?_
    simp [ho]

/-- `prepareMessage` of a key whose primary bucket the call holds already: the first
replica's lock is taken. -/
theorem alone_prepareMessage_held {key : Word} {offsets : List Int} {s : Solo LockWord}
    (hn : 0 < n) (hs : Held n offsets s.words) (hheld : lockOffset key ∈ offsets) :
    (alone rands (prepareMessage n key) s).1 = [] := by
  obtain ⟨m, rfl⟩ := Nat.exists_eq_succ_of_ne_zero (Nat.ne_of_gt hn)
  have hone : ∀ targetId < m + 1, s.words (targetId, lockOffset key) = 1 := fun targetId ht => by
    rw [hs targetId ht, if_pos hheld]
  simp only [prepareMessage, prepareLoop, alone]
  rw [hone _ (Nat.mod_lt _ hn), if_pos rfl]
  rfl

/-- The acquiring loop goes through exactly when the buckets to come are all different
and none of them is held. -/
theorem alone_acquireAll (hn : 0 < n) : ∀ (rest : List Node) (done : List (Word × List Nat))
    (offsets : List Int) (s : Solo LockWord), Held n offsets s.words →
    ((alone rands (acquireAll n rest done) s).1 ≠ none ↔
      (rest.map fun element => lockOffset element.key).Nodup ∧
        ∀ element ∈ rest, lockOffset element.key ∉ offsets)
  | [], done, offsets, s, _ => by simp [acquireAll, alone]
  | element :: rest, done, offsets, s, hs => by
    simp only [acquireAll, alone_bind]
    by_cases hheld : lockOffset element.key ∈ offsets
    · rw [alone_prepareMessage_held rands hn hs hheld]
      simp [alone_bind, alone, hheld]
    · obtain ⟨hlen, hs'⟩ := alone_prepareMessage_free rands hn hs hheld
      rw [if_neg (by omega), alone_acquireAll hn rest _ _ _ hs', List.map_cons, List.nodup_cons,
        List.forall_mem_cons]
      simp only [List.mem_cons, not_or, List.mem_map, not_exists, not_and]
      constructor
      · intro hall
        obtain ⟨hnd, hout⟩ := hall
        exact ⟨⟨fun x hx he => (hout x hx).1 he, hnd⟩, hheld, fun x hx => (hout x hx).2⟩
      · intro hall
        obtain ⟨⟨hne, hnd⟩, _, hout⟩ := hall
        exact ⟨hnd, fun x hx => ⟨fun he => hne x hx he, hout x hx⟩⟩

theorem lockOffset_inj {key key' : Word} :
    lockOffset key = lockOffset key' ↔ hash key .one = hash key' .one := by
  refine ⟨fun h => ?_, fun h => by rw [lockOffset, lockOffset, h]⟩
  have hsize : (sizeofNode : Int) ≠ 0 := by decide
  have := Int.eq_of_mul_eq_mul_right hsize h
  exact BitVec.eq_of_toInt_eq (by omega)

/-- **A list insert alone.** With every lock word 0 it aborts for no choice of starting
replicas exactly when no two keys of the list share their primary bucket. -/
theorem lone_list_aborts_iff (hn : 0 < n) (elements : List Node) (beyond : Nat → Nat → Byte) :
    (alone rands (insertList n elements beyond) ⟨fun _ => 0, 0⟩).1 ≠ .abortFailure ↔
      (elements.map fun element => hash element.key .one).Nodup := by
  have hstart : Held n [] (fun _ => 0) := fun _ _ _ => by simp
  have hacquire := alone_acquireAll rands hn elements [] [] ⟨fun _ => 0, 0⟩ hstart
  have hnodup : (elements.map fun element => lockOffset element.key).Nodup ↔
      (elements.map fun element => hash element.key .one).Nodup := by
    simp only [List.nodup_iff_pairwise_ne, List.pairwise_map, ne_eq, lockOffset_inj]
  rw [← hnodup]
  unfold insertList
  rw [alone_bind]
  cases hres : (alone rands (acquireAll n elements []) ⟨fun _ => 0, 0⟩).1 with
  | none =>
    rw [hres] at hacquire
    simpa [alone] using hacquire
  | some done =>
    rw [hres] at hacquire
    simpa [alone_bind, alone] using hacquire

/-- Three keys with three buckets over three replicas. -/
theorem lone_list_of_three :
    (alone (fun _ => 2) (insertList 3 [⟨1, 10⟩, ⟨2, 20⟩, ⟨3, 30⟩] fun _ _ => 0)
      ⟨fun _ => 0, 0⟩).1 ≠ .abortFailure :=
  (lone_list_aborts_iff (fun _ => 2) (by decide) _ _).mpr (by decide +kernel)

/-- Two replicas: 3 and 125003 share bucket 3, and the second finds its lock taken. -/
theorem list_aborts_itself :
    (alone (fun _ => 0) (insertList 2 [⟨3, 10⟩, ⟨125003, 20⟩] fun _ _ => 0)
      ⟨fun _ => 0, 0⟩).1 = .abortFailure := by
  decide +kernel

/-- In the system of clients and replicas this is what the call returns when its client
is the only one to take steps. -/
theorem lone_list_run {ι E η : Type} [DecidableEq ι] {deliver : E → Message → E}
    {envStep : E → η → Option E} (env : E) (i : ι) (elements : List Node)
    (beyond : Nat → Nat → Byte) :
    ∃ es s h, (∀ e ∈ es, ∃ rand, e = Event.next i rand) ∧
      exec (LockClients.step (InsertCall.program n) deliver envStep) (.init env)
        (.call i (.list elements beyond) :: es) = some s ∧
      s.returned = [⟨.list elements beyond,
        (alone rands (insertList n elements beyond) ⟨fun _ => 0, 0⟩).1, h⟩] := by
  obtain ⟨es, s, h, hes, hrun, _, hr⟩ := exec_alone rands i
    (InsertCall.list elements beyond) (insertList n elements beyond) (.init env) .empty 0
  exact ⟨es, s, h, hes, exec_cons.mpr ⟨_, rfl, hrun⟩, hr⟩

end ConcurrentComputing.Remote
