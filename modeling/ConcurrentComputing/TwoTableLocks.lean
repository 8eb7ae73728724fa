import ConcurrentComputing.TwoTableThreads
import ConcurrentComputing.BucketLocks

/-! # The two-table set, lock by lock

Any number of threads in `insert`, `remove` and `contains` and in the resizes that
inserts ask for, one lock operation or one piece of code between two of them at a
time. Besides what the threads write, the tables may change arbitrarily at any
moment, and the unlocked reads may return anything. -/

namespace ConcurrentComputing.TwoTable.Locks

open CuckooPath Runs ReadWriteLock LockOrder BucketLocks Function
open Threads (Locals)

/-- Where a thread is between its lock operations. -/
inductive Pc where
  | idle
  /-- in the first section of the private `insert` -/
  | check (l : Locals)
  | search (l : Locals)
  /-- in a section that follows the search -/
  | displace (l : Locals) (path : List Hop)
  /-- the private `insert` has returned -/
  | returned (l : Locals) (r : Result)
  | resize (l : Locals)
  /-- in `resize` under the write lock -/
  | copy (l : Locals) (oldCapacity : Nat)
  /-- in `remove` or `contains`, before the indices are computed -/
  | lookup (op : Op)
  /-- in `remove` or `contains`, under the bucket locks -/
  | locked (op : Op) (idx1 idx2 : Nat)
  deriving DecidableEq, Repr

structure State (ι : Type) where
  cuckoo : Cuckoo
  locks : Nat → RWLock ι
  thread : ι → Thread Pc

/-- What the unlocked search reads and draws. -/
structure Choice where
  reads : Reads Val
  rand : Nat → Nat

/-- A search that reads empty tables. -/
def Choice.quiet : Choice := ⟨.still fun _ _ _ => 0, fun _ => 0⟩

inductive Event (ι : Type) where
  | call (t : ι) (op : Op)
  | next (t : ι) (choice : Choice)
  | change (table1 table2 : Table)

variable {ι : Type} [DecidableEq ι]

/-- The beginning of a round of the public `insert`. -/
def round (l : Locals) : List LockOp := rdlock :: lockTwo l.idx1 l.idx2

namespace State

def start (c : Cuckoo) : State ι := ⟨c, fun _ => .free, fun _ => ⟨[], .idle⟩⟩

def goto (s : State ι) (t : ι) (c : Cuckoo) (ops : List LockOp) (pc : Pc) : State ι :=
  ⟨c, s.locks, update s.thread t ⟨ops, pc⟩⟩

/-- The first section. -/
def check (s : State ι) (t : ι) (l : Locals) : State ι :=
  match s.cuckoo.firstCheck l.val l.idx1 l.idx2 with
  | some .duplicate => s.goto t s.cuckoo (unlockTwo l.idx1 l.idx2) (.returned l .duplicate)
  | some r => s.goto t s.cuckoo [] (.returned l r)
  | none => s.goto t s.cuckoo (unlockTwo l.idx1 l.idx2) (.search l)

/-- The sections that follow the search. -/
def displace (s : State ι) (t : ι) (l : Locals) : List Hop → Option (State ι)
  | [] => none
  | [hop] =>
    match s.cuckoo.claim hop with
    | .retry => some (s.goto t s.cuckoo (unlockTwo l.idx1 l.idx2) (.returned l .retry))
    | r => some (s.goto t s.cuckoo [] (.returned l r))
  | [dst, src] =>
    match s.cuckoo.displace dst src with
    | none =>
      some (s.goto t s.cuckoo (unlockThree l.idx1 l.idx2 dst.index) (.returned l .retry))
    | some c => some (s.goto t c (unlockOther l.idx1 l.idx2 dst.index)
        (.returned l (.success src.table src.index src.slot)))
  | dst :: src :: path =>
    match s.cuckoo.displace dst src with
    | none => some (s.goto t s.cuckoo (unlockTwo dst.index src.index) (.returned l .retry))
    | some c => some (s.goto t c (unlockTwo dst.index src.index ++ enter l.idx1 l.idx2 (src :: path))
        (.displace l (src :: path)))

/-- What the public `insert` does with a result. -/
def settle (s : State ι) (t : ι) (l : Locals) : Result → State ι
  | .duplicate => s.goto t s.cuckoo [unlock] .idle
  | .resize => s.goto t s.cuckoo [unlock] (.resize l)
  | .retry => s.goto t s.cuckoo (unlock :: round l) (.check l)
  | .success table index slot => s.goto t (s.cuckoo.write table index slot l.val)
      (unlockTwo l.idx1 l.idx2 ++ [unlock]) .idle

/-- The body of `resize`, after which `insert` begins another round. All the bucket
locks are replaced by new ones. -/
def copy (s : State ι) (t : ι) (l : Locals) (oldCapacity : Nat) : State ι :=
  if oldCapacity ≠ s.cuckoo.buckets then s.goto t s.cuckoo (unlock :: round l) (.check l)
  else ⟨s.cuckoo.resize, fun b => if b = 0 then s.locks 0 else .free,
    update s.thread t ⟨unlock :: round l, .check l⟩⟩

end State

/-- A thread with no operation to perform goes on in its code. -/
def State.advance (s : State ι) (t : ι) (choice : Choice) : Pc → Option (State ι)
  | .idle => none
  | .check l => some (s.check t l)
  | .search l =>
    match findPath s.cuckoo.scheme choice.reads choice.rand l.idx1 l.idx2 with
    | none => some (s.goto t s.cuckoo [] (.returned l .resize))
    | some path => some (s.goto t s.cuckoo (enter l.idx1 l.idx2 path) (.displace l path))
  | .displace l path => s.displace t l path
  | .returned l r => some (s.settle t l r)
  | .resize l => some (s.goto t s.cuckoo [wrlock] (.copy l s.cuckoo.buckets))
  | .copy l oldCapacity => some (s.copy t l oldCapacity)
  | .lookup op =>
    let idx1 := hash s.cuckoo.buckets op.val .one
    let idx2 := hash s.cuckoo.buckets op.val .two
    some (s.goto t s.cuckoo (lockTwo idx1 idx2) (.locked op idx1 idx2))
  | .locked op idx1 idx2 =>
    let c := match op with
      | .remove val => (s.cuckoo.remove val).2
      | _ => s.cuckoo
    some (s.goto t c (unlockTwo idx1 idx2 ++ [unlock]) .idle)

/-- One step; `none` when the thread is elsewhere or has to wait. `insert` computes
its indices before its first round, without a lock. -/
def step (s : State ι) : Event ι → Option (State ι)
  | .call t op =>
    if s.thread t = ⟨[], .idle⟩ then
      match op with
      | .insert val =>
        let l : Locals := ⟨val, hash s.cuckoo.buckets val .one, hash s.cuckoo.buckets val .two⟩
        some (s.goto t s.cuckoo (round l) (.check l))
      | _ => some (s.goto t s.cuckoo [rdlock] (.lookup op))
    else none
  | .next t choice =>
    match s.thread t with
    | ⟨op :: ops, pc⟩ => (op.perform s.locks t).map fun locks =>
        ⟨s.cuckoo, locks, update s.thread t ⟨ops, pc⟩⟩
    | ⟨[], pc⟩ => s.advance t choice pc
  | .change table1 table2 => some { s with cuckoo := ⟨s.cuckoo.buckets, table1, table2⟩ }

/-! ## The discipline -/

/-- How a thread holds a lock. -/
def State.held (s : State ι) (t : ι) (b : Nat) : Option Mode := (s.locks b).mode t

/-- The operation a thread performs next. -/
def State.next (s : State ι) (t : ι) : Option LockOp := (s.thread t).ops.head?

/-- The thread holds the spin lock of the bucket. -/
def State.Owns (s : State ι) (t : ι) (idx : Nat) : Prop := s.held t (bucket idx) ≠ none

/-- The thread waits for a lock that `u` holds. -/
def State.WaitsFor (s : State ι) (t u : ι) : Prop :=
  ∃ op, s.next t = some op ∧ op.BlockedBy s.locks u

structure Disciplined (s : State ι) : Prop where
  acquires : ∀ t idx, s.next t = some (lockOne idx) → ¬ s.Owns t idx
  releases : ∀ t idx, s.next t = some (unlockOne idx) → s.Owns t idx
  success : ∀ t l table index slot, s.thread t = ⟨[], .returned l (.success table index slot)⟩ →
    ∀ idx, s.Owns t idx ↔ idx = l.idx1 ∨ idx = l.idx2
  failure : ∀ t l r, s.thread t = ⟨[], .returned l r⟩ →
    r = .duplicate ∨ r = .retry ∨ r = .resize → ∀ idx, ¬ s.Owns t idx
  idle : ∀ t, s.thread t = ⟨[], .idle⟩ → ∀ idx, ¬ s.Owns t idx
  no_deadlock : ∀ S : Set ι, S.Nonempty → ∃ t ∈ S, ∀ u ∈ S, ¬ s.WaitsFor t u

end ConcurrentComputing.TwoTable.Locks
