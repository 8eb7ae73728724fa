import ConcurrentComputing.BankLocks

/-! # The bank does not deadlock

No thread waits for a lock while it holds a higher one. -/

namespace ConcurrentComputing.Bank

open Function Runs ReadWriteLock LockOrder

variable {ι : Type} [DecidableEq ι] {op : LockOp} {s : State ι} {i : ι}

/-- The thread waits for a lock that another thread holds in a conflicting mode. -/
def State.Waits (s : State ι) (i : ι) : Prop :=
  ∃ op, (s.pc i).op s.map = some op ∧ ∃ j, j ≠ i ∧ op.BlockedBy s.locks j

/-- Some thread is unfinished and all that are wait. -/
def State.Deadlocked (s : State ι) (unfinished : Set ι) : Prop :=
  unfinished.Nonempty ∧ ∀ i ∈ unfinished, s.Waits i

theorem Locking.allowed (h : Locking s) (hop : (s.pc i).op s.map = some op) :
    op.Allowed fun b => (s.locks b).mode i := by
  have hheld : (fun b => (s.locks b).mode i) = (s.pc i).mode s.map :=
    funext fun b => h.holds b i
  rw [hheld]
  exact (op_spec hop).1

/-- A thread in a call can take its step unless it waits. -/
theorem Locking.next_eq_none_iff (h : Locking s) (hpc : s.pc i ≠ .idle) :
    s.next i = none ↔ s.Waits i := by
  cases hop : (s.pc i).op s.map with
  | none =>
    obtain ⟨t, _, hnext, _⟩ := next_quiet hop hpc (h.within i)
    rw [hnext]
    refine ⟨fun hn => absurd hn (Option.some_ne_none t), fun hw => ?_⟩
    obtain ⟨op, hop', _⟩ := hw
    rw [hop] at hop'
    cases hop'
  | some op =>
    rw [next_op hop, Option.map_eq_none_iff, LockOp.perform_eq_none_iff]
    refine ⟨fun hb => ?_, fun hw => ?_⟩
    · obtain ⟨j, hj⟩ := hb
      refine ⟨op, hop, j, ?_, hj⟩
      rintro rfl
      -- it does not hold the lock it is about to take
      have hallowed := h.allowed hop
      cases op with
      | release b => exact hj
      | acquire b m => exact lt_irrefl b (hallowed b (LockOp.held_of_blockedBy hj))
    · obtain ⟨op', hop', j, _, hj⟩ := hw
      obtain rfl := Option.some.inj (hop.symm.trans hop')
      exact ⟨j, hj⟩

/-- Of the unfinished threads, those in a call among them, one does not wait. -/
theorem Locking.exists_not_waiting (h : Locking s) {unfinished : Set ι}
    (hunfinished : ∀ i, s.pc i ≠ .idle → i ∈ unfinished) (hne : unfinished.Nonempty) :
    ∃ i ∈ unfinished, ¬ s.Waits i := by
  have hop : ∀ i, (s.pc i).op s.map ≠ none → s.pc i ≠ .idle := fun i hi hidle => by
    rw [hidle] at hi
    exact hi rfl
  obtain ⟨i, hi, hfree⟩ :=
    LockOrder.exists_not_waiting (fun _ _ => h.allowed) (h.finite.subset hop) hne
  refine ⟨i, hi, fun hw => ?_⟩
  obtain ⟨op, hnext, j, _, hj⟩ := hw
  -- who holds the lock is in a call
  refine hfree j (hunfinished j fun hidle => ?_) op hnext hj
  cases op with
  | release b => exact hj
  | acquire b m =>
    have hmode : (s.locks b).mode j = (s.pc j).mode s.map b := h.holds b j
    rw [hidle] at hmode
    exact LockOp.held_of_blockedBy hj hmode

variable {buckets keyMax : Nat} {initial : Nat → ℚ} {es : List (Event ι)}

/-- **No deadlock.** In no reachable state all unfinished threads wait, whichever
threads between two calls have more of them to make. -/
theorem deadlock_free (h : exec step (State.init ι buckets keyMax initial) es = some s)
    {unfinished : Set ι} (hunfinished : ∀ i, s.pc i ≠ .idle → i ∈ unfinished) :
    ¬ s.Deadlocked unfinished := by
  intro hdead
  obtain ⟨i, hi, hfree⟩ := (reachable_locking h).exists_not_waiting hunfinished hdead.1
  exact hfree (hdead.2 i hi)

/-- Two transfers in opposite directions: the second has to wait for bucket 0, which
the first has locked. -/
def opposite : List (Event Bool) :=
  [.call true (.deposit ⟨0, 1, 5⟩), .call false (.deposit ⟨1, 0, 7⟩), .next true]

theorem deadlock_free_opposite :
    ∃ s, exec step (State.init Bool 2 2 fun _ => 10) opposite = some s ∧ s.Waits false ∧
      ¬ s.Deadlocked Set.univ := by
  have hrun : (exec step (State.init Bool 2 2 fun _ => 10) opposite).map (fun s =>
      ((s.pc false).op s.map, (s.locks 0).writer)) =
        some (some (.acquire 0 .write), some true) := by
    decide +kernel
  obtain ⟨s, hs, hdata⟩ := Option.map_eq_some_iff.mp hrun
  obtain ⟨hop, hwriter⟩ := by simpa only [Prod.mk.injEq] using hdata
  refine ⟨s, hs, ⟨_, hop, true, by decide, ?_⟩, deadlock_free hs fun _ _ => trivial⟩
  simp [LockOp.BlockedBy, RWLock.mode, hwriter]

/-- While some thread is in a call, one that is can take its step. -/
theorem exists_next (h : exec step (State.init ι buckets keyMax initial) es = some s)
    (hcall : ∃ i, s.pc i ≠ .idle) : ∃ i, s.pc i ≠ .idle ∧ s.next i ≠ none := by
  have hl := reachable_locking h
  obtain ⟨i, hi, hfree⟩ : ∃ i ∈ {i | s.pc i ≠ .idle}, ¬ s.Waits i :=
    hl.exists_not_waiting (fun _ hi => hi) hcall
  exact ⟨i, hi, fun hnone => hfree ((hl.next_eq_none_iff hi).mp hnone)⟩

end ConcurrentComputing.Bank
