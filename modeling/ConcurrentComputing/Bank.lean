import ConcurrentComputing.ReadWriteLock
import ConcurrentComputing.Runs
import ConcurrentComputing.SimpleMap
import Mathlib.Algebra.Order.Ring.Unbundled.Rat
import Mathlib.Algebra.Ring.Rat

/-! # The bank

`deposit` and `balance` of `src/tests.cc` in locked mode, with the locks of
`src/locks.cc`, one for each bucket. A step is one acquisition, one release, one
lookup or one update; the amounts are exact. -/

namespace ConcurrentComputing.Bank

open Function ReadWriteLock

/-- The choices of a `deposit`. -/
structure Deposit where
  keySource : Int
  keyTarget : Int
  amount : ℚ
  deriving DecidableEq

/-- The buckets whose locks a `deposit` acquires, in this order, and releases. -/
def Deposit.locks (m : SimpleMap ℚ) (d : Deposit) : List Nat :=
  let sourceBucket := m.hash d.keySource
  let targetBucket := m.hash d.keyTarget
  if sourceBucket < targetBucket then [sourceBucket, targetBucket]
  else if targetBucket < sourceBucket then [targetBucket, sourceBucket]
  else [targetBucket]

inductive Call where
  | deposit (d : Deposit)
  | balance (range : Nat)

/-- What a thread does next, with the locals still in use. -/
inductive Pc where
  | idle
  /-- `acquireWriteLock(s)`, with the first `n` acquired -/
  | acquire (d : Deposit) (n : Nat)
  | lookupSource (d : Deposit)
  | withdraw (d : Deposit) (source : ℚ)
  | lookupTarget (d : Deposit) (source : ℚ)
  | credit (d : Deposit) (target : ℚ)
  | fallback (d : Deposit) (source : ℚ)
  /-- `releaseWriteLock(s)`, with the first `n` released -/
  | release (d : Deposit) (n : Nat) (retval : Bool)
  /-- the loop of `acquireAll_Reader` -/
  | acquireReader (range i : Nat)
  /-- the loop of `balance` -/
  | sum (range i : Nat) (total : ℚ)
  /-- the loop of `releaseAll_Reader` -/
  | releaseReader (range i : Nat) (total : ℚ)

/-- The map and its locks, as many as it has buckets; the threads, and what their
calls have returned. -/
structure State (ι : Type) where
  map : SimpleMap ℚ
  locks : Nat → RWLock ι
  pc : ι → Pc
  deposits : List (Deposit × Bool)
  balances : List (Nat × ℚ)

inductive Event (ι : Type) where
  | call (i : ι) (op : Call)
  | next (i : ι)

variable {ι : Type} [DecidableEq ι]

def State.goto (s : State ι) (i : ι) (pc : Pc) : State ι := { s with pc := update s.pc i pc }

def State.setLock (s : State ι) (b : Nat) (l : RWLock ι) : State ι :=
  { s with locks := update s.locks b l }

/-- A step of a thread in a call. -/
def State.next (s : State ι) (i : ι) : Option (State ι) :=
  match s.pc i with
  | .idle => none
  | .acquire d n =>
    match (d.locks s.map)[n]? with
    | none => some (s.goto i (.lookupSource d))
    | some b => ((s.locks b).wrlock i).map fun l => (s.setLock b l).goto i (.acquire d (n + 1))
  | .lookupSource d =>
    match s.map.lookup d.keySource with
    | (source, true) => some (s.goto i (.withdraw d source))
    | (_, false) => some (s.goto i (.release d 0 false))
  | .withdraw d source =>
    some ({ s with map := (s.map.update d.keySource (source - d.amount)).1 }.goto i
      (.lookupTarget d source))
  | .lookupTarget d source =>
    match s.map.lookup d.keyTarget with
    | (target, true) => some (s.goto i (.credit d target))
    | (_, false) => some (s.goto i (.fallback d source))
  | .credit d target =>
    some ({ s with map := (s.map.update d.keyTarget (target + d.amount)).1 }.goto i
      (.release d 0 true))
  | .fallback d source =>
    some ({ s with map := (s.map.update d.keySource source).1 }.goto i (.release d 0 false))
  | .release d n retval =>
    match (d.locks s.map)[n]? with
    | none => some ({ s with deposits := s.deposits ++ [(d, retval)] }.goto i .idle)
    | some b => some ((s.setLock b ((s.locks b).unlock i)).goto i (.release d (n + 1) retval))
  | .acquireReader range n =>
    if n < s.map.buckets then
      ((s.locks n).rdlock i).map fun l => (s.setLock n l).goto i (.acquireReader range (n + 1))
    else some (s.goto i (.sum range 0 0))
  | .sum range n total =>
    if n < range then some (s.goto i (.sum range (n + 1) (total + (s.map.lookup n).1)))
    else some (s.goto i (.releaseReader range 0 total))
  | .releaseReader range n total =>
    if n < s.map.buckets then
      some ((s.setLock n ((s.locks n).unlock i)).goto i (.releaseReader range (n + 1) total))
    else some ({ s with balances := s.balances ++ [(range, total)] }.goto i .idle)

def step (s : State ι) : Event ι → Option (State ι)
  | .call i op =>
    match s.pc i with
    | .idle => some (s.goto i (match op with
      | .deposit d => .acquire d 0
      | .balance range => .acquireReader range 0))
    | _ => none
  | .next i => s.next i

/-- The accounts `0` to `keyMax - 1`, filled in this order. -/
def accounts (buckets keyMax : Nat) (initial : Nat → ℚ) : SimpleMap ℚ :=
  (List.range keyMax).foldl (fun m (i : Nat) => (m.insert i (initial i)).1) (.new buckets)

def State.init (ι : Type) [DecidableEq ι] (buckets keyMax : Nat) (initial : Nat → ℚ) : State ι :=
  ⟨accounts buckets keyMax initial, fun _ => .free, fun _ => .idle, [], []⟩

/-- What `balance` returns when nothing changes. -/
def balance (m : SimpleMap ℚ) (range : Nat) : ℚ :=
  (List.range range).foldl (fun total (i : Nat) => total + (m.lookup i).1) 0

/-- The thread is in a `deposit`. -/
def Pc.Depositing : Pc → Prop
  | .acquire .. | .lookupSource .. | .withdraw .. | .lookupTarget .. | .credit ..
  | .fallback .. | .release .. => True
  | _ => False

end ConcurrentComputing.Bank
