import ConcurrentComputing.WorkerDiscipline

/-! # Lookups beside the workers

Any number of clients in `Remote::get` while the workers of the replica they read
insert. A call makes one read of a bucket, and a second one when the first does not
bring the key; between the two the table may change. Its answer is still that of one
instant between its call and its return. -/

namespace ConcurrentComputing.Store.Lookups

open Runs Workers Cuckoo Function

/-! ## Clients -/

/-- A call of `Remote::get`. -/
structure Call (κ : Type) where
  client : κ
  key : Word
  called : Nat
  deriving DecidableEq

/-- Where a call is. The first read has left the queue pair and the buffer for the
second. -/
inductive Pc where
  | first
  | second (qp : Bool × List Byte)

structure Returned (κ : Type) where
  call : Call κ
  answer : Result
  returned : Nat

/-- The replica, the calls in progress and those that have returned. -/
structure State (ι κ : Type) where
  workers : Workers.State ι
  client : κ → Option (Call κ × Pc)
  returned : List (Returned κ)
  clock : Nat

inductive Event (ι κ : Type) where
  | worker (e : Workers.Event ι)
  | get (i : κ) (key : Word)
  | read (i : κ)

variable {ι κ : Type} [DecidableEq ι] [DecidableEq κ] {recovers : Bool} {s s' u v : State ι κ}
  {c : Cuckoo} {e : Event ι κ} {es : List (Event ι κ)} {t : Nat} {i : κ} {call : Call κ} {pc : Pc}
  {key : Word}

namespace State

def start (c : Cuckoo) : State ι κ := ⟨.start c, fun _ => none, [], 0⟩

abbrev cuckoo (s : State ι κ) : Cuckoo := s.workers.cuckoo

def goto (s : State ι κ) (i : κ) (call : Call κ) (pc : Pc) : State ι κ :=
  { s with client := update s.client i (some (call, pc)), clock := s.clock + 1 }

def answer (s : State ι κ) (i : κ) (call : Call κ) (answer : Result) : State ι κ :=
  { s with
    client := update s.client i none
    returned := s.returned ++ [⟨call, answer, s.clock + 1⟩]
    clock := s.clock + 1 }

/-- One read of `Remote::get` and what follows it. -/
def read (recovers : Bool) (s : State ι κ) (i : κ) (call : Call κ) : Pc → State ι κ
  | .first =>
    let qp := Remote.read recovers (.of s.cuckoo) (Remote.hash call.key .one).toInt
      (true, List.replicate (entryWidth * sizeofNode) 0)
    match Remote.findElement (nodesOf qp.2) call.key with
    | .false => s.goto i call (.second qp)
    | found => s.answer i call found
  | .second qp =>
    let qp := Remote.read recovers (.of s.cuckoo) (Remote.hash call.key .two).toInt qp
    s.answer i call (Remote.findElement (nodesOf qp.2) call.key)

end State

/-- One step; `none` when the worker or the client cannot take it. -/
def step (recovers : Bool) (s : State ι κ) : Event ι κ → Option (State ι κ)
  | .worker e => (Workers.step s.workers e).map fun workers =>
      { s with workers, clock := s.clock + 1 }
  | .get i key =>
    match s.client i with
    | none => some (s.goto i ⟨i, key, s.clock + 1⟩ .first)
    | some _ => none
  | .read i => (s.client i).map fun (call, pc) => s.read recovers i call pc

/-- Client and server compute the same buckets. -/
def Agrees (key : Word) : Prop :=
  ∀ side, (Remote.hash key side).toInt = hash Remote.size key side

instance (key : Word) : Decidable (Agrees key) := by
  unfold Agrees
  infer_instance

/-- The keys that are looked up are keys, and their buckets those of the server. -/
def Plain (es : List (Event ι κ)) : Prop := ∀ i key, .get i key ∈ es → key ≠ 0 ∧ Agrees key

/-- What a lookup answers at an instant. -/
def Answers (keys : Set Word) (key : Word) : Result → Prop
  | .true => key ∈ keys
  | .false => key ∉ keys
  | _ => False

def Event.adds (s : State ι κ) : Event ι κ → Option Word
  | .worker e => s.workers.adds e.thread
  | _ => none

/-! ## Reads -/

/-- A key is in the table exactly when one of its two buckets has it. -/
theorem mem_keys_iff_find (hc : c.WellPlaced) (hk : key ≠ 0) : key ∈ c.keys ↔
    c.table.find key (hash c.buckets key .one) = true ∨
      c.table.find key (hash c.buckets key .two) = true := by
  rw [Table.find_iff, Table.find_iff]
  constructor
  · rintro ⟨a, ⟨⟨idx, slot⟩, ha⟩, rfl⟩
    obtain ⟨hhome, hs⟩ := hc.placed _ _ ha
    obtain ⟨-, -, he, -⟩ := content_eq_some.mp ha
    dsimp only at hhome
    exact hhome.imp (fun h => ⟨slot, hs, by rw [← h, he]⟩) fun h => ⟨slot, hs, by rw [← h, he]⟩
  · rintro (⟨slot, hs, he⟩ | ⟨slot, hs, he⟩) <;>
    exact mem_keys.mpr ⟨hk, _, hash_lt hc.pos _ _, slot, hs, he⟩

/-- The read of a bucket of the key leaves the queue pair working, and brings the key
if the bucket has it. -/
theorem read_side (recovers : Bool) (hb : c.buckets = Remote.size) (hagree : Agrees key)
    (side : CuckooPath.Side) {qp : Bool × List Byte} (hqp : qp.1 = true) :
    (Remote.read recovers (.of c) (Remote.hash key side).toInt qp).1 = true ∧
      (Remote.findElement (nodesOf (Remote.read recovers (.of c)
        (Remote.hash key side).toInt qp).2) key = .true ↔
          c.table.find key (hash c.buckets key side) = true) := by
  have hlt : (Remote.hash key side).toNat < Remote.size := by
    cases side with
    | one => exact Remote.hash_one_lt (by rw [hagree .one]; exact Int.natCast_nonneg _)
    | two => exact Remote.hash_two_lt key
  have hnat : (Remote.hash key side).toNat = hash Remote.size key side := by
    have hint := hagree side
    rw [Remote.toInt_of_lt hlt] at hint
    exact Int.ofNat.inj hint
  obtain ⟨hworks, hnodes⟩ := Remote.read_bucket recovers hb hlt hqp
  refine ⟨hworks, ?_⟩
  rw [hnodes, Remote.find_bucket_iff, Table.find_iff, hb, hnat]

/-! ## Steps -/

theorem step_cases (h : step recovers s e = some s') :
    (∃ e' workers, e = .worker e' ∧ Workers.step s.workers e' = some workers ∧
      s' = { s with workers, clock := s.clock + 1 }) ∨
    (∃ i key, e = .get i key ∧ s.client i = none ∧
      s' = s.goto i ⟨i, key, s.clock + 1⟩ .first) ∨
    (∃ i call pc, e = .read i ∧ s.client i = some (call, pc) ∧
      s' = s.read recovers i call pc) := by
  cases e with
  | worker e =>
    obtain ⟨workers, hw, rfl⟩ := Option.map_eq_some_iff.mp h
    exact Or.inl ⟨e, workers, rfl, hw, rfl⟩
  | get i key =>
    simp only [step] at h
    split at h <;> cases h
    rename_i hnone
    exact Or.inr (Or.inl ⟨i, key, rfl, hnone, rfl⟩)
  | read i =>
    obtain ⟨⟨call, pc⟩, hcall, rfl⟩ := Option.map_eq_some_iff.mp h
    exact Or.inr (Or.inr ⟨i, call, pc, rfl, hcall, rfl⟩)

/-- A first read has missed the key; since then the key has not left its second
bucket. -/
def Pending (recovers : Bool) (c : Cuckoo) (es : List (Event ι κ)) (s : State ι κ)
    (call : Call κ) : Pc → Prop
  | .first => True
  | .second qp => qp.1 = true ∧ ∃ t u, call.called ≤ t ∧
      At (step recovers) (State.start c) es t u ∧ u.cuckoo.WellPlaced ∧
      u.cuckoo.table.find call.key (hash u.cuckoo.buckets call.key .one) = false ∧
      Keeps u.cuckoo s.cuckoo

/-- The answer is that of an instant between call and return. -/
def Settled (recovers : Bool) (c : Cuckoo) (es : List (Event ι κ)) (r : Returned κ) : Prop :=
  ∃ t u, r.call.called ≤ t ∧ t < r.returned ∧ At (step recovers) (State.start c) es t u ∧
    Answers u.cuckoo.keys r.call.key r.answer

structure Inv (recovers : Bool) (c : Cuckoo) (es : List (Event ι κ)) (s : State ι κ) : Prop where
  clock : s.clock = es.length
  workers : Workers.Inv s.workers
  buckets : s.cuckoo.buckets = Remote.size
  calls : ∀ i call pc, s.client i = some (call, pc) → call.called ≤ es.length ∧
    call.key ≠ 0 ∧ Agrees call.key ∧ Pending recovers c es s call pc
  settled : ∀ r ∈ s.returned, Settled recovers c es r

theorem Settled.snoc {r : Returned κ} (h : Settled recovers c es r) :
    Settled recovers c (es ++ [e]) r := by
  obtain ⟨t, u, hcalled, hlt, hu, hans⟩ := h
  exact ⟨t, u, hcalled, hlt, (at_snoc hu.1).mpr hu, hans⟩

theorem Pending.snoc (h : Pending recovers c es s call pc) (hkeeps : Keeps s.cuckoo s'.cuckoo) :
    Pending recovers c (es ++ [e]) s' call pc := by
  cases pc with
  | first => trivial
  | second qp =>
    obtain ⟨hqp, t, u, hcalled, hu, hplaced, hmiss, hk⟩ := h
    exact ⟨hqp, t, u, hcalled, (at_snoc hu.1).mpr hu, hplaced, hmiss, hk.trans hkeeps⟩

/-- A call that begins, or goes on to its second read. -/
theorem Inv.goto (hi : Inv recovers c es s) (hcall : call.called ≤ (es ++ [e]).length ∧
    call.key ≠ 0 ∧ Agrees call.key ∧ Pending recovers c (es ++ [e]) s call pc) :
    Inv recovers c (es ++ [e]) (s.goto i call pc) where
  clock := by rw [List.length_append, ← hi.clock]; rfl
  workers := hi.workers
  buckets := hi.buckets
  calls j call' pc' hj := by
    rcases update_cases hj with ⟨-, hj⟩ | ⟨-, hj⟩
    · cases hj
      exact hcall
    · obtain ⟨hcalled, hk, hagree, hpending⟩ := hi.calls j call' pc' hj
      exact ⟨hcalled.trans (by simp), hk, hagree, hpending.snoc (.refl _)⟩
  settled r hr := (hi.settled r hr).snoc

theorem Inv.answer {answer : Result} (hi : Inv recovers c es s)
    (hsettled : Settled recovers c (es ++ [e]) ⟨call, answer, s.clock + 1⟩) :
    Inv recovers c (es ++ [e]) (s.answer i call answer) where
  clock := by rw [List.length_append, ← hi.clock]; rfl
  workers := hi.workers
  buckets := hi.buckets
  calls j call' pc' hj := by
    rcases update_cases hj with ⟨-, hj⟩ | ⟨-, hj⟩
    · cases hj
    · obtain ⟨hcalled, hk, hagree, hpending⟩ := hi.calls j call' pc' hj
      exact ⟨hcalled.trans (by simp), hk, hagree, hpending.snoc (.refl _)⟩
  settled r hr := by
    rcases List.mem_append.mp hr with hr | hr
    · exact (hi.settled r hr).snoc
    · rw [List.mem_singleton.mp hr]
      exact hsettled

/-- A lookup that is answered by what the table is now. -/
theorem settled_now {answer : Result} (hi : Inv recovers c es s)
    (h : exec (step recovers) (State.start c) es = some s) (hcalled : call.called ≤ es.length)
    (hans : Answers s.cuckoo.keys call.key answer) :
    Settled recovers c (es ++ [e]) ⟨call, answer, s.clock + 1⟩ :=
  ⟨es.length, s, hcalled, by rw [hi.clock]; exact Nat.lt_succ_self _,
    (at_snoc le_rfl).mpr (at_length h), hans⟩

theorem findElement_cases (elements : List Node) (key : Word) :
    Remote.findElement elements key = .false ∨ Remote.findElement elements key = .true := by
  unfold Remote.findElement
  split
  · exact Or.inr rfl
  · exact Or.inl rfl

/-- A read that answers, or goes on to the second. -/
theorem Inv.read (hi : Inv recovers c es s) (h : exec (step recovers) (State.start c) es = some s)
    (hcall : s.client i = some (call, pc)) :
    Inv recovers c (es ++ [e]) (s.read recovers i call pc) := by
  obtain ⟨hcalled, hk, hagree, hpending⟩ := hi.calls i call pc hcall
  have hkeys := mem_keys_iff_find hi.workers.toWellPlaced hk
  cases pc with
  | first =>
    obtain ⟨hqp, hfind⟩ := read_side recovers hi.buckets hagree .one
      (show (true, List.replicate (entryWidth * sizeofNode) (0 : Byte)).1 = true from rfl)
    unfold State.read
    dsimp only
    rcases findElement_cases (nodesOf (Remote.read recovers (.of s.cuckoo)
      (Remote.hash call.key .one).toInt
        (true, List.replicate (entryWidth * sizeofNode) (0 : Byte))).2) call.key with hf | hf <;>
      rw [hf] at hfind ⊢
    · have hmiss : s.cuckoo.table.find call.key (hash s.cuckoo.buckets call.key .one) = false :=
        Bool.eq_false_iff.mpr fun ht => by cases hfind.mpr ht
      exact hi.goto ⟨hcalled.trans (by simp), hk, hagree, hqp, es.length, s, hcalled,
        (at_snoc le_rfl).mpr (at_length h), hi.workers.toWellPlaced, hmiss, .refl _⟩
    · exact hi.answer (settled_now hi h hcalled (hkeys.mpr (Or.inl (hfind.mp rfl))))
  | second qp =>
    obtain ⟨hqp, t, u, hcalledt, hu, hplaced, hmiss, hkeeps⟩ := hpending
    obtain ⟨-, hfind⟩ := read_side recovers hi.buckets hagree .two hqp
    unfold State.read
    dsimp only
    rcases findElement_cases (nodesOf (Remote.read recovers (.of s.cuckoo)
      (Remote.hash call.key .two).toInt qp).2) call.key with hf | hf <;> rw [hf] at hfind ⊢
    · -- the key was not there at the first read: it would be in its second bucket now
      refine hi.answer ⟨t, u, hcalledt, ?_, (at_snoc hu.1).mpr hu, ?_⟩
      · rw [hi.clock]
        exact Nat.lt_succ_of_le hu.1
      · intro hin
        rcases (mem_keys_iff_find hplaced hk).mp hin with hone | htwo
        · rw [hmiss] at hone
          cases hone
        · have hlater := hkeeps.2 call.key hk htwo
          rw [← hkeeps.1] at hlater
          cases hfind.mpr hlater
    · exact hi.answer (settled_now hi h hcalled (hkeys.mpr (Or.inr (hfind.mp rfl))))

theorem Inv.step (hi : Inv recovers c es s)
    (h : exec (Lookups.step recovers) (State.start c) es = some s)
    (hplain : ∀ i key, e = .get i key → key ≠ 0 ∧ Agrees key)
    (hs : Lookups.step recovers s e = some s') : Inv recovers c (es ++ [e]) s' := by
  rcases step_cases hs with ⟨e', workers, rfl, hw, rfl⟩ | ⟨i, key, rfl, hnone, rfl⟩ |
    ⟨i, call, pc, rfl, hcall, rfl⟩
  · obtain ⟨hinv, hkeeps⟩ := hi.workers.step hw
    refine ⟨?_, hinv, hkeeps.1.trans hi.buckets, fun j call pc hj => ?_,
      fun r hr => (hi.settled r hr).snoc⟩
    · rw [List.length_append, ← hi.clock]
      rfl
    · obtain ⟨hcalled, hk, hagree, hpending⟩ := hi.calls j call pc hj
      exact ⟨hcalled.trans (by simp), hk, hagree, hpending.snoc hkeeps⟩
  · obtain ⟨hk, hagree⟩ := hplain i key rfl
    refine hi.goto ⟨?_, hk, hagree, trivial⟩
    rw [List.length_append, hi.clock]
    rfl
  · exact hi.read h hcall

theorem run_inv (hc : c.WellPlaced) (hb : c.buckets = Remote.size) (hplain : Plain es)
    (h : exec (step recovers) (State.start c) es = some s) : Inv recovers c es s := by
  refine exec_induction (motive := fun es s => Plain es → Inv recovers c es s) (fun _ => ?_) ?_
    h hplain
  · exact ⟨rfl, start_inv hc, hb, nofun, nofun⟩
  · intro es u e v hu ih hs hplain
    have hi := ih fun i key hmem => hplain i key (List.mem_append_left _ hmem)
    refine hi.step hu (fun i key he => hplain i key ?_) hs
    rw [he]
    simp

/-- **One step** leaves the keys in the table, and adds that of a worker's write. -/
theorem step_keys (hi : Inv recovers c es s) (hs : step recovers s e = some s') :
    s'.cuckoo.keys = s.cuckoo.keys ∪ {key | e.adds s = some key} := by
  rcases step_cases hs with ⟨e', workers, rfl, hw, rfl⟩ | ⟨i, key, rfl, -, rfl⟩ |
    ⟨i, call, pc, rfl, -, rfl⟩
  · exact hi.workers.step_keys hw
  · simp [State.goto, State.cuckoo, Event.adds]
  · have hsame : (s.read recovers i call pc).cuckoo = s.cuckoo := by
      unfold State.read
      cases pc with
      | first =>
        dsimp only
        split <;> rfl
      | second qp => rfl
    rw [hsame]
    simp [Event.adds]

/-! ## The history -/

/-- The answers are those of a set that grows by the keys that the workers write. -/
structure Linearizable (recovers : Bool) (c : Cuckoo) (es : List (Event ι κ)) (s : State ι κ) :
    Prop where
  /-- Each answer is right at an instant between call and return. -/
  answers : ∀ r ∈ s.returned, Settled recovers c es r
  grows : ∀ t u v, At (step recovers) (State.start c) es t u →
    At (step recovers) (State.start c) es (t + 1) v →
      ∃ e, es[t]? = some e ∧ v.cuckoo.keys = u.cuckoo.keys ∪ {key | e.adds u = some key}
  /-- A key that has been found is found by every later call. -/
  sticks : ∀ r ∈ s.returned, ∀ r' ∈ s.returned, r'.call.key = r.call.key →
    r.returned ≤ r'.call.called → r.answer = .true → r'.answer = .true

omit [DecidableEq ι] [DecidableEq κ] in
theorem Plain.take (h : Plain es) (n : Nat) : Plain (es.take n) := fun i key hmem =>
  h i key (List.mem_of_mem_take hmem)

theorem at_inv (hc : c.WellPlaced) (hb : c.buckets = Remote.size) (hplain : Plain es)
    (hu : At (step recovers) (State.start c) es t u) : Inv recovers c (es.take t) u :=
  run_inv hc hb (hplain.take t) hu.2

theorem keys_grow (hc : c.WellPlaced) (hb : c.buckets = Remote.size) (hplain : Plain es)
    (hu : At (step recovers) (State.start c) es t u)
    (hv : At (step recovers) (State.start c) es (t + 1) v) :
    ∃ e, es[t]? = some e ∧ v.cuckoo.keys = u.cuckoo.keys ∪ {key | e.adds u = some key} := by
  obtain ⟨e, he, hs⟩ := hu.succ hv
  exact ⟨e, he, step_keys (at_inv hc hb hplain hu) hs⟩

theorem keys_later {t' : Nat} (hc : c.WellPlaced) (hb : c.buckets = Remote.size)
    (hplain : Plain es) (h : exec (step recovers) (State.start c) es = some s)
    (hu : At (step recovers) (State.start c) es t u)
    (hv : At (step recovers) (State.start c) es t' v) (ht : t ≤ t') :
    u.cuckoo.keys ⊆ v.cuckoo.keys := by
  induction t', ht using Nat.le_induction generalizing v with
  | base => rw [hu.unique hv]
  | succ n _ ih =>
    obtain ⟨w, hw⟩ := exists_at h (Nat.le_of_succ_le hv.1)
    obtain ⟨e, -, hkeys⟩ := keys_grow hc hb hplain hw hv
    rw [hkeys]
    exact (ih hw).trans Set.subset_union_left

/-- **Lookups beside the workers.** In every run of any workers and any clients, where
client and server agree on the buckets of the keys looked up, every `get` answers as a
set does at an instant between its call and its return, the set grows by the keys that
the workers write and never shrinks, and a key that was found once is found by every
call made afterwards. -/
theorem lookups_linearizable (hc : c.WellPlaced) (hb : c.buckets = Remote.size)
    (hplain : Plain es) (h : exec (step recovers) (State.start c) es = some s) :
    Linearizable recovers c es s := by
  have hsettled := (run_inv hc hb hplain h).settled
  refine ⟨hsettled, fun t u v hu hv => keys_grow hc hb hplain hu hv, ?_⟩
  intro r hr r' hr' hkey hle htrue
  obtain ⟨t, u, -, ht, hu, hans⟩ := hsettled r hr
  obtain ⟨t', v, ht', -, hv, hans'⟩ := hsettled r' hr'
  rw [htrue] at hans
  have hin : r'.call.key ∈ v.cuckoo.keys := by
    rw [hkey]
    exact keys_later hc hb hplain h hu hv (ht.le.trans (hle.trans ht')) hans
  generalize r'.answer = answer at hans' ⊢
  cases answer with
  | true => rfl
  | false => exact absurd hin hans'
  | dup | abortFailure => exact hans'.elim

/-- A client reads the first bucket of the key 1, the worker stores it there, and the
client's second read does not bring it; the next call does. -/
def beside : List (Event Unit Bool) :=
  [.get true 1, .read true, .worker (.insert () ⟨1, 7⟩)] ++
    List.replicate 4 (.worker (.next () .quiet)) ++ [.read true, .get false 1, .read false]

theorem lookups_linearizable_beside : ∃ s,
    exec (step true) (State.start (.new Remote.size)) beside = some s ∧
    s.returned.map (fun r => (r.call.called, r.answer, r.returned)) =
      [(1, .false, 8), (9, .true, 10)] ∧
    Linearizable true (.new Remote.size) beside s := by
  have hrun : (exec (step true) (State.start (.new Remote.size)) beside).map (fun s =>
      s.returned.map fun r => (r.call.called, r.answer, r.returned)) =
        some [(1, .false, 8), (9, .true, 10)] := by
    decide +kernel
  have hplain : Plain beside := by
    intro i key hmem
    have hkey : key = 1 := by
      have hops : i = true ∧ key = 1 ∨ i = false ∧ key = 1 := by simpa [beside] using hmem
      rcases hops with ⟨-, rfl⟩ | ⟨-, rfl⟩ <;> rfl
    rw [hkey]
    exact ⟨by decide, by decide +kernel⟩
  obtain ⟨s, hs, hanswers⟩ := Option.map_eq_some_iff.mp hrun
  exact ⟨s, hs, hanswers, lookups_linearizable (WellFormed.new (by decide)).toWellPlaced rfl
    hplain hs⟩

end ConcurrentComputing.Store.Lookups
