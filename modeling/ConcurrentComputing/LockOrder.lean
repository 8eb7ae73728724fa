import ConcurrentComputing.ReadWriteLock
import Mathlib.Data.Set.Finite.Lemmas

/-! # Locks taken in ascending order

Threads that perform lists of operations on an array of locks. A plan is a list
that never takes a lock unless it lies above all that are held, and never gives up
one that is not held. Where every point of the threads' code has a standing, the
locks that are held there, and the operations between two points are a plan from the
one to the other, no two threads can wait for each other in a circle: the one that
waits for the highest lock waits for nobody among them. -/

namespace ConcurrentComputing.LockOrder

open ReadWriteLock Function

inductive LockOp where
  | acquire (b : Nat) (m : Mode)
  | release (b : Nat)
  deriving DecidableEq, Repr

variable {ι : Type*} [DecidableEq ι] {locks locks' : Nat → RWLock ι} {t u : ι} {op : LockOp}
  {ops ops' : List LockOp} {held held' held'' : Nat → Option Mode} {Q : (Nat → Option Mode) → Prop}

namespace LockOp

/-- What a thread holds after the operation. -/
def after (held : Nat → Option Mode) : LockOp → Nat → Option Mode
  | .acquire b m => update held b (some m)
  | .release b => update held b none

def Allowed (held : Nat → Option Mode) : LockOp → Prop
  | .acquire b _ => ∀ b', held b' ≠ none → b' < b
  | .release b => held b ≠ none

/-- `none` while the thread has to wait. -/
def perform (locks : Nat → RWLock ι) (t : ι) : LockOp → Option (Nat → RWLock ι)
  | .acquire b .write => ((locks b).wrlock t).map (update locks b)
  | .acquire b .read => ((locks b).rdlock t).map (update locks b)
  | .release b => some (update locks b ((locks b).unlock t))

/-- The thread `u` holds the lock in a way that keeps the operation waiting. -/
def BlockedBy (locks : Nat → RWLock ι) (u : ι) : LockOp → Prop
  | .acquire b .write => (locks b).mode u ≠ none
  | .acquire b .read => (locks b).mode u = some .write
  | .release _ => False

theorem held_of_blockedBy {b : Nat} {m : Mode} (h : (acquire b m).BlockedBy locks u) :
    (locks b).mode u ≠ none := by
  cases m with
  | write => exact h
  | read =>
    change (locks b).mode u = some .write at h
    rw [h]
    exact Option.some_ne_none _

/-- An operation waits exactly while some thread keeps it waiting. -/
theorem perform_eq_none_iff : op.perform locks t = none ↔ ∃ u, op.BlockedBy locks u := by
  cases op with
  | acquire b m =>
    cases m with
    | write =>
      simp only [perform, BlockedBy, Option.map_eq_none_iff, RWLock.wrlock, RWLock.mode,
        ite_eq_right_iff, reduceCtorEq, imp_false, not_and_or]
      constructor
      · intro h
        rcases h with h | h
        · obtain ⟨w, hw⟩ := Option.ne_none_iff_exists'.mp h
          exact ⟨w, by simp [hw]⟩
        · obtain ⟨r, hr⟩ := Finset.nonempty_iff_ne_empty.mpr h
          exact ⟨r, by split <;> simp⟩
      · intro h
        obtain ⟨v, hv⟩ := h
        by_contra hfree
        rw [not_or, not_not, not_not] at hfree
        simp [hfree.1, hfree.2] at hv
    | read =>
      simp only [perform, BlockedBy, Option.map_eq_none_iff, RWLock.rdlock, RWLock.mode,
        ite_eq_right_iff, reduceCtorEq, imp_false]
      constructor
      · intro h
        obtain ⟨w, hw⟩ := Option.ne_none_iff_exists'.mp h
        exact ⟨w, by simp [hw]⟩
      · intro h hfree
        obtain ⟨v, hv⟩ := h
        rw [hfree, if_neg (Option.some_ne_none v).symm] at hv
        split at hv <;> cases hv
  | release b => simp [perform, BlockedBy]

/-- After an operation its thread holds what the operation says, and the others what
they held. -/
theorem perform_holds {held : ι → Nat → Option Mode} (h : Holds locks held)
    (hp : op.perform locks t = some locks') :
    Holds locks' (update held t (op.after (held t))) := by
  have hm : ∀ b (x : Option Mode) b', update (held t) b x b' = if b' = b then x else held t b' :=
    fun b x b' => update_apply ..
  cases op with
  | acquire b m =>
    cases m with
    | write =>
      obtain ⟨l, hl, rfl⟩ := Option.map_eq_some_iff.mp hp
      exact h.change (RWLock.wrlock_mode hl).2 (hm b _)
    | read =>
      obtain ⟨l, hl, rfl⟩ := Option.map_eq_some_iff.mp hp
      exact h.change (RWLock.rdlock_mode hl).2 (hm b _)
  | release b =>
    cases hp
    exact h.change (RWLock.unlock_mode _ _) (hm b _)

end LockOp

/-- The operations, performed in turn, are allowed and lead from `held` to `held'`
through standings that satisfy `Q`. -/
def Plan (Q : (Nat → Option Mode) → Prop) :
    (Nat → Option Mode) → List LockOp → (Nat → Option Mode) → Prop
  | held, [], held' => Q held ∧ held = held'
  | held, op :: ops, held' => Q held ∧ op.Allowed held ∧ Plan Q (op.after held) ops held'

theorem Plan.guard (h : Plan Q held ops held') : Q held := by
  cases ops <;> exact h.1

theorem Plan.append (h : Plan Q held ops held') (h' : Plan Q held' ops' held'') :
    Plan Q held (ops ++ ops') held'' := by
  induction ops generalizing held with
  | nil =>
    obtain ⟨_, rfl⟩ := h
    exact h'
  | cons op ops ih => exact ⟨h.1, h.2.1, ih h.2.2⟩

/-! ## Threads on their plans -/

/-- A thread has operations to perform before it gets to a point of its code. -/
structure Thread (P : Type*) where
  ops : List LockOp
  pc : P
  deriving DecidableEq

variable {P : Type*} {R : P → (Nat → Option Mode) → Prop} {standing : P → Nat → Option Mode}
  {thread : ι → Thread P} {pc pc' : P}

/-- Every thread is on a plan to the standing of its point, and on the way there it
keeps what the point requires. -/
def OnPlan (R : P → (Nat → Option Mode) → Prop) (standing : P → Nat → Option Mode)
    (locks : Nat → RWLock ι) (thread : ι → Thread P) : Prop :=
  ∀ t, Plan (R (thread t).pc) (fun b => (locks b).mode t) (thread t).ops
    (standing (thread t).pc)

/-- A thread with no operation to perform stands where its code says. -/
theorem OnPlan.held_eq (h : OnPlan R standing locks thread) (ht : thread t = ⟨[], pc⟩) :
    (fun b => (locks b).mode t) = standing pc := by
  have hplan := h t
  rw [ht] at hplan
  exact hplan.2

/-- The next operation of a thread is allowed. -/
theorem OnPlan.allowed (h : OnPlan R standing locks thread) (hop : (thread t).ops.head? = some op) :
    op.Allowed fun b => (locks b).mode t := by
  have hplan := h t
  obtain ⟨ops, hops⟩ := List.head?_eq_some_iff.mp hop
  rw [hops] at hplan
  exact hplan.2.1

/-- A thread that picks a plan for its way to the next point. -/
theorem OnPlan.goto (h : OnPlan R standing locks thread) (ht : thread t = ⟨[], pc⟩)
    (hplan : Plan (R pc') (standing pc) ops (standing pc')) :
    OnPlan R standing locks (update thread t ⟨ops, pc'⟩) := by
  intro u
  by_cases hu : u = t
  · subst hu
    rw [update_self, h.held_eq ht]
    exact hplan
  · rw [update_of_ne hu]
    exact h u

/-- A thread that has performed the first operation of its plan. -/
theorem OnPlan.perform (h : OnPlan R standing locks thread) (ht : thread t = ⟨op :: ops, pc⟩)
    (hp : op.perform locks t = some locks') :
    OnPlan R standing locks' (update thread t ⟨ops, pc⟩) := by
  intro u
  have hbefore : Holds locks fun u b => (locks b).mode u := fun _ _ => rfl
  have hholds := LockOp.perform_holds hbefore hp
  have hheld : (fun b => (locks' b).mode u) =
      update (fun u b => (locks b).mode u) t (op.after fun b => (locks b).mode t) u :=
    funext fun b => hholds b u
  rw [hheld]
  by_cases hu : u = t
  · subst hu
    have hplan := h u
    rw [ht] at hplan
    rw [update_self, update_self]
    exact hplan.2.2
  · rw [update_of_ne hu, update_of_ne hu]
    exact h u

/-- Other locks in the place of the old ones, held in the same way. -/
theorem OnPlan.relock (h : OnPlan R standing locks thread)
    (hm : ∀ u b, (locks' b).mode u = (locks b).mode u) : OnPlan R standing locks' thread := by
  intro u
  have hheld : (fun b => (locks' b).mode u) = fun b => (locks b).mode u := funext (hm u)
  rw [hheld]
  exact h u

/-- Only one thread moves. -/
theorem finite_update {α : Type*} {f : ι → α} {d : α} (x : α) (h : {u | f u ≠ d}.Finite) :
    {u | update f t x u ≠ d}.Finite := by
  refine (h.insert t).subset fun u hu => ?_
  by_cases hut : u = t
  · exact Or.inl hut
  · rw [Set.mem_ofPred_eq, update_of_ne hut] at hu
    exact Or.inr hu

/-- The lock that is acquired next. -/
def awaited (ops : List LockOp) : Nat :=
  match ops.head? with
  | some (.acquire b _) => b
  | _ => 0

/-- **No circle of waiting threads.** Of the threads in a non-empty set, each with
no operation to perform or with an allowed one, and finitely many with one, some
thread waits for none of them. -/
theorem exists_not_waiting {next : ι → Option LockOp}
    (hallowed : ∀ t op, next t = some op → op.Allowed fun b => (locks b).mode t)
    (hfinite : {t | next t ≠ none}.Finite) {S : Set ι} (hne : S.Nonempty) :
    ∃ t ∈ S, ∀ u ∈ S, ∀ op, next t = some op → ¬ op.BlockedBy locks u := by
  by_contra hall
  push Not at hall
  have hS : S.Finite := hfinite.subset fun t ht hnone => by
    obtain ⟨_, _, op, hop, _⟩ := hall t ht
    rw [hnone] at hop
    cases hop
  obtain ⟨t, ht, hmax⟩ := Set.exists_max_image S (fun t => awaited (next t).toList) hS hne
  obtain ⟨u, hu, op, hop, hblocked⟩ := hall t ht
  -- the holder waits in its turn, for a lock above the one it holds
  obtain ⟨_, _, op', hop', hblocked'⟩ := hall u hu
  cases op with
  | release b => exact hblocked
  | acquire b m =>
    cases op' with
    | release b' => exact hblocked'
    | acquire b' m' =>
      have hlt : b < b' := hallowed u _ hop' b (LockOp.held_of_blockedBy hblocked)
      have hle := hmax u hu
      simp only [awaited, hop, hop', Option.toList_some, List.head?_cons] at hle
      omega

/-- Threads on their plans do not wait in a circle. -/
theorem OnPlan.exists_not_waiting (h : OnPlan R standing locks thread)
    (hfinite : {t | (thread t).ops ≠ []}.Finite) {S : Set ι} (hne : S.Nonempty) :
    ∃ t ∈ S, ∀ u ∈ S, ∀ op, (thread t).ops.head? = some op → ¬ op.BlockedBy locks u := by
  refine LockOrder.exists_not_waiting (fun t op hop => h.allowed hop) (hfinite.subset ?_) hne
  exact fun t ht hnil => ht (by rw [hnil, List.head?_nil])

end ConcurrentComputing.LockOrder
