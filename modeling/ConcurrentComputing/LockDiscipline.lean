import ConcurrentComputing.TwoTableLocks

/-! # Which locks a thread holds where

At every point of its code a thread has a standing: the locks it holds there. The
operations between two points are a plan from the one standing to the other, so
every list the code picks has to be checked only where it is picked. -/

namespace ConcurrentComputing.TwoTable.Locks

open CuckooPath Runs ReadWriteLock LockOrder BucketLocks Function
open Threads (Locals)

variable {ι : Type} [DecidableEq ι] {s s' : State ι} {c : Cuckoo} {t : ι} {l : Locals}
  {ops : List LockOp} {pc : Pc}

/-- Bucket locks are held under the global lock only. -/
def Guarded (held : Nat → Option Mode) : Prop := held 0 = none → ∀ b, held b = none

theorem guarded_some (m : Mode) (S : Finset Nat) : Guarded (holding (some m) S) := nofun

theorem guarded_none : Guarded (holding none ∅) := fun _ b => by
  cases b <;> rfl

def Pc.standing : Pc → Nat → Option Mode
  | .idle | .resize _ => holding none ∅
  | .check l | .returned l (.success ..) => holding (some .read) {l.idx1, l.idx2}
  | .displace l path => holding (some .read) (under l.idx1 l.idx2 path)
  | .search _ | .returned .. | .lookup _ => holding (some .read) ∅
  | .copy .. => holding (some .write) ∅
  | .locked _ idx1 idx2 => holding (some .read) {idx1, idx2}

structure Inv (s : State ι) : Prop where
  plan : OnPlan (fun _ => Guarded) Pc.standing s.locks s.thread
  finite : {t | s.thread t ≠ ⟨[], .idle⟩}.Finite

/-! ## Plans -/

theorem round_plan (l : Locals) :
    Plan Guarded (holding none ∅) (round l) (holding (some .read) {l.idx1, l.idx2}) :=
  plan_global guarded_none (lockTwo_plan (guarded_some _))

theorem unlock_plan (m : Mode) : Plan Guarded (holding (some m) ∅) [unlock] (holding none ∅) :=
  plan_unlock_global (guarded_some _ _) (plan_done guarded_none rfl)

/-- Giving up the global lock and beginning another round. -/
theorem again_plan (m : Mode) (l : Locals) : Plan Guarded (holding (some m) ∅)
    (unlock :: round l) (holding (some .read) {l.idx1, l.idx2}) :=
  plan_unlock_global (guarded_some _ _) (round_plan l)

/-- The end of a call that holds two buckets. -/
theorem leave_plan (idx1 idx2 : Nat) : Plan Guarded (holding (some .read) {idx1, idx2})
    (unlockTwo idx1 idx2 ++ [unlock]) (holding none ∅) :=
  (unlockTwo_plan (guarded_some _)).append (unlock_plan _)

/-! ## Steps -/

theorem Inv.goto (hi : Inv s) {pc' : Pc} (ht : s.thread t = ⟨[], pc⟩)
    (h : Plan Guarded pc.standing ops pc'.standing) : Inv (s.goto t c ops pc') :=
  ⟨hi.plan.goto ht h, finite_update _ hi.finite⟩

theorem Inv.check (hi : Inv s) (ht : s.thread t = ⟨[], .check l⟩) : Inv (s.check t l) := by
  unfold State.check
  split
  · exact hi.goto ht (unlockTwo_plan (guarded_some _))
  · rename_i r hne hr
    have hsuccess : ∃ table index slot, r = .success table index slot := by
      rcases Cuckoo.firstCheck_spec s.cuckoo l.val l.idx1 l.idx2 with ⟨hf, _⟩ |
        ⟨table, index, slot, hf, _⟩ | ⟨hf, _⟩
      · exact absurd (hr.symm.trans hf) (fun he => hne (Option.some.inj he))
      · exact ⟨table, index, slot, Option.some.inj (hr.symm.trans hf)⟩
      · cases hr.symm.trans hf
    obtain ⟨table, index, slot, rfl⟩ := hsuccess
    exact hi.goto ht (plan_done (guarded_some _ _) rfl)
  · exact hi.goto ht (unlockTwo_plan (guarded_some _))

theorem Inv.displace (hi : Inv s) {path : List Hop} (ht : s.thread t = ⟨[], .displace l path⟩)
    (h : s.displace t l path = some s') : Inv s' := by
  match path, h with
  | [hop], h =>
    simp only [State.displace, Cuckoo.claim] at h
    split at h
    · cases h
      exact hi.goto ht (unlockTwo_plan (guarded_some _))
    · rename_i hne
      split at hne
      · rename_i hfree
        rw [if_pos hfree] at h
        cases h
        exact hi.goto ht (plan_done (guarded_some _ _) rfl)
      · exact absurd rfl hne
  | [dst, src], h =>
    simp only [State.displace] at h
    split at h <;> cases h
    · exact hi.goto ht (unlockThree_plan (guarded_some _))
    · exact hi.goto ht (unlockOther_plan (guarded_some _ _) (guarded_some _ _))
  | dst :: src :: hop :: path, h =>
    simp only [State.displace] at h
    split at h <;> cases h
    · exact hi.goto ht (unlockTwo_plan (guarded_some _))
    · exact hi.goto ht ((unlockTwo_plan (guarded_some _)).append (enter_plan (guarded_some _) _))

theorem Inv.settle (hi : Inv s) {r : Result} (ht : s.thread t = ⟨[], .returned l r⟩) :
    Inv (s.settle t l r) := by
  cases r with
  | duplicate => exact hi.goto ht (unlock_plan _)
  | resize => exact hi.goto ht (unlock_plan _)
  | retry => exact hi.goto ht (again_plan _ l)
  | success table index slot => exact hi.goto ht (leave_plan _ _)

/-- Nobody holds one of the bucket locks that a resize throws away. -/
theorem Inv.copy (hi : Inv s) {oldCapacity : Nat} (ht : s.thread t = ⟨[], .copy l oldCapacity⟩) :
    Inv (s.copy t l oldCapacity) := by
  have hheld := hi.plan.held_eq ht
  unfold State.copy
  split
  · exact hi.goto ht (again_plan _ l)
  · have hwrite : (s.locks 0).mode t = some .write := congrFun hheld 0
    have hnone : ∀ u b, b ≠ 0 → (s.locks b).mode u = none := by
      intro u b hb
      by_cases hu : u = t
      · subst hu
        obtain ⟨idx, rfl⟩ := Nat.exists_eq_succ_of_ne_zero hb
        exact congrFun hheld (idx + 1)
      · refine (hi.plan u).guard ?_ b
        by_contra hglobal
        exact hu (RWLock.eq_of_write hwrite hglobal).symm
    have hgoto : OnPlan (fun _ => Guarded) Pc.standing s.locks
        (update s.thread t ⟨unlock :: round l, .check l⟩) := hi.plan.goto ht (again_plan _ l)
    refine ⟨hgoto.relock fun u b => ?_, finite_update _ hi.finite⟩
    dsimp only
    split
    · rename_i hb
      rw [hb]
    · rename_i hb
      rw [hnone u b hb, RWLock.mode_free]

theorem Inv.advance (hi : Inv s) {choice : Choice} (ht : s.thread t = ⟨[], pc⟩)
    (h : s.advance t choice pc = some s') : Inv s' := by
  cases pc with
  | idle => cases h
  | check l => cases h; exact hi.check ht
  | search l =>
    simp only [State.advance] at h
    split at h <;> cases h
    · exact hi.goto ht (plan_done (guarded_some _ _) rfl)
    · exact hi.goto ht (enter_plan (guarded_some _) _)
  | displace l path => exact hi.displace ht h
  | returned l r => cases h; exact hi.settle ht
  | resize l =>
    cases h
    exact hi.goto ht (plan_global guarded_none (plan_done (guarded_some _ _) rfl))
  | copy l oldCapacity => cases h; exact hi.copy ht
  | lookup op =>
    cases h
    exact hi.goto ht (lockTwo_plan (guarded_some _))
  | locked op idx1 idx2 =>
    cases h
    exact hi.goto ht (leave_plan _ _)

/-- **One step** keeps every thread on its plan. -/
theorem Inv.step {e : Event ι} (hi : Inv s) (h : step s e = some s') : Inv s' := by
  cases e with
  | call t op =>
    simp only [Locks.step] at h
    split at h
    · rename_i ht
      have hlookup : Plan Guarded (Pc.standing .idle) [rdlock] (Pc.lookup op).standing :=
        plan_global guarded_none (plan_done (guarded_some _ _) rfl)
      cases op with
      | insert val => cases h; exact hi.goto ht (round_plan _)
      | remove val => cases h; exact hi.goto ht hlookup
      | contains val => cases h; exact hi.goto ht hlookup
    · cases h
  | next t choice =>
    simp only [Locks.step] at h
    split at h
    · rename_i op ops pc ht
      obtain ⟨locks, hp, rfl⟩ := Option.map_eq_some_iff.mp h
      exact ⟨hi.plan.perform ht hp, finite_update _ hi.finite⟩
    · rename_i pc ht
      exact hi.advance ht h
  | change table1 table2 =>
    cases h
    exact ⟨hi.plan, hi.finite⟩

omit [DecidableEq ι] in
theorem start_inv [DecidableEq ι] (c : Cuckoo) : Inv (State.start c : State ι) := by
  refine ⟨fun t => ?_, by simp [State.start]⟩
  have hheld : (fun b => ((State.start c : State ι).locks b).mode t) = holding none ∅ := by
    funext b
    cases b <;> rfl
  rw [hheld]
  exact plan_done guarded_none rfl

/-! ## The discipline -/

/-- A thread before a lock operation cannot go on exactly while it waits for some
thread. -/
theorem step_eq_none_iff {op : LockOp} (h : s.next t = some op) {choice : Choice} :
    step s (.next t choice) = none ↔ ∃ u, s.WaitsFor t u := by
  have hwaits : (∃ u, s.WaitsFor t u) ↔ ∃ u, op.BlockedBy s.locks u := by
    simp only [State.WaitsFor, h, Option.some.injEq, exists_eq_left']
  obtain ⟨ops, hops⟩ := List.head?_eq_some_iff.mp h
  have ht : s.thread t = ⟨op :: ops, (s.thread t).pc⟩ := by rw [← hops]
  rw [hwaits, ← LockOp.perform_eq_none_iff (t := t), step, ht, Option.map_eq_none_iff]

theorem Inv.disciplined (hi : Inv s) : Disciplined s where
  acquires := fun t idx h howns => Nat.lt_irrefl _ (hi.plan.allowed h _ howns)
  releases := fun t idx h => hi.plan.allowed h
  success := fun t l table index slot ht idx => by
    have hheld : s.held t = _ := hi.plan.held_eq ht
    rw [State.Owns, hheld, Pc.standing, holding_ne_none, Finset.mem_insert, Finset.mem_singleton]
  failure := fun t l r ht hr idx howns => by
    have hheld : s.held t = _ := hi.plan.held_eq ht
    rw [State.Owns, hheld] at howns
    rcases hr with rfl | rfl | rfl <;> exact howns rfl
  idle := fun t ht idx howns => by
    have hheld : s.held t = _ := hi.plan.held_eq ht
    rw [State.Owns, hheld] at howns
    exact howns rfl
  no_deadlock := fun S hne => by
    have hfinite : {t | (s.thread t).ops ≠ []}.Finite := hi.finite.subset fun t ht hidle => by
      rw [Set.mem_ofPred_eq, hidle] at ht
      exact ht rfl
    obtain ⟨t, ht, hfree⟩ := hi.plan.exists_not_waiting hfinite hne
    exact ⟨t, ht, fun u hu ⟨op, hop, hb⟩ => hfree u hu op hop hb⟩

/-- **Lock discipline.** In every state of every run no thread is about to take a
bucket lock it holds or to give up one it does not hold, the private `insert` returns
with the locks of its two buckets exactly when it succeeds, a thread outside all
calls holds no bucket lock, and no set of threads waits for itself. -/
theorem lock_discipline {es : List (Event ι)} (h : exec step (State.start c) es = some s) :
    Disciplined s :=
  (exec_invariant (start_inv c) (fun _ _ _ hi hs => hi.step hs) h).disciplined

/-- Thread 1 waits for the one bucket, which thread 0 holds inside its insert. -/
theorem lock_discipline_two_threads : ∃ s : State (Fin 2),
    exec step (State.start (.new 1)) [.call 0 (.insert 5), .next 0 .quiet, .next 0 .quiet,
      .call 1 (.remove 5), .next 1 .quiet, .next 1 .quiet] = some s ∧
    s.next 1 = some (lockOne 0) ∧ ¬ s.Owns 1 0 := by
  have hrun : (exec step (State.start (.new 1)) [.call (0 : Fin 2) (.insert 5), .next 0 .quiet,
      .next 0 .quiet, .call 1 (.remove 5), .next 1 .quiet, .next 1 .quiet]).map (State.next · 1) =
        some (some (lockOne 0)) := by
    decide +kernel
  obtain ⟨s, hs, hnext⟩ := Option.map_eq_some_iff.mp hrun
  exact ⟨s, hs, hnext, (lock_discipline hs).acquires 1 0 hnext⟩

end ConcurrentComputing.TwoTable.Locks
