import ConcurrentComputing.StoreSections
import ConcurrentComputing.BucketLocks
import ConcurrentComputing.Runs

/-! # Worker threads, write by write

Any number of worker threads in `insert`, one lock operation or one `setElement` or
`setKey` at a time: a displacement copies a node in one step and clears its old slot
in another, and the public `insert` writes in a step of its own, so that whoever
reads the table without a lock may see it in between. What an unlocked search reads
is arbitrary. -/

namespace ConcurrentComputing.Store.Workers

open CuckooPath Placement Runs Cuckoo ReadWriteLock LockOrder BucketLocks Function

/-! ## The two writes of a displacement -/

/-- The validations of one displacement. -/
def canMove (c : Cuckoo) (dst src : Hop) : Bool :=
  !(Table.isOccupied (c.table.getElement dst.index dst.slot) ||
    !Table.isOccupied (c.table.getElement src.index src.slot) ||
    hash c.buckets (c.table.getElement src.index src.slot).key .two != dst.index)

def copy (c : Cuckoo) (dst src : Hop) : Cuckoo :=
  { c with table := c.table.setElement dst.index dst.slot (c.table.getElement src.index src.slot) }

def clear (c : Cuckoo) (src : Hop) : Cuckoo :=
  { c with table := c.table.setKey src.index src.slot 0 }

theorem displace_eq (c : Cuckoo) (dst src : Hop) :
    c.displace dst src = if canMove c dst src then some (clear (copy c dst src) src) else none := by
  unfold displace canMove
  dsimp only
  generalize (Table.isOccupied (c.table.getElement dst.index dst.slot) ||
    !Table.isOccupied (c.table.getElement src.index src.slot) ||
    hash c.buckets (c.table.getElement src.index src.slot).key .two != dst.index) = refused
  cases refused <;> rfl

/-! ## Threads -/

/-- The locals of a call of `insert`. -/
structure Locals where
  element : Node
  idx1 : Nat
  idx2 : Nat
  deriving DecidableEq, Repr

inductive Pc where
  | idle
  /-- in the first section of the private `insert` -/
  | check (l : Locals)
  | search (l : Locals)
  /-- in a section that follows the search -/
  | displace (l : Locals) (path : List Hop)
  /-- between the two writes of a displacement -/
  | clear (l : Locals) (dst src : Hop) (path : List Hop)
  /-- the private `insert` has returned a slot -/
  | write (l : Locals) (index slot : Nat)
  deriving DecidableEq, Repr

structure State (ι : Type) where
  cuckoo : Cuckoo
  locks : Nat → RWLock ι
  thread : ι → Thread Pc

/-- What the unlocked search reads and draws. -/
structure Choice where
  reads : Reads Word
  rand : Nat → Nat

/-- A search that reads an empty table. -/
def Choice.quiet : Choice := ⟨.still fun _ _ _ => 0, fun _ => 0⟩

inductive Event (ι : Type) where
  | insert (t : ι) (element : Node)
  | next (t : ι) (choice : Choice)

variable {ι : Type} [DecidableEq ι]

namespace State

def start (c : Cuckoo) : State ι := ⟨c, fun _ => .free, fun _ => ⟨[], .idle⟩⟩

def goto (s : State ι) (t : ι) (c : Cuckoo) (ops : List LockOp) (pc : Pc) : State ι :=
  ⟨c, s.locks, update s.thread t ⟨ops, pc⟩⟩

/-- The first section. -/
def check (s : State ι) (t : ι) (l : Locals) : State ι :=
  match s.cuckoo.firstCheck l.element.key l.idx1 l.idx2 with
  | some (.duplicate _ index slot) | some (.success _ index slot) =>
    s.goto t s.cuckoo [] (.write l index slot)
  | _ => s.goto t s.cuckoo (unlockTwo l.idx1 l.idx2) (.search l)

/-- The first half of a section that follows the search. A retry goes back to the
first section. -/
def displace (s : State ι) (t : ι) (l : Locals) : List Hop → Option (State ι)
  | [] => none
  | [hop] =>
    if Table.isOccupied (s.cuckoo.table.getElement hop.index hop.slot) then
      some (s.goto t s.cuckoo (unlockTwo l.idx1 l.idx2 ++ lockTwo l.idx1 l.idx2) (.check l))
    else some (s.goto t s.cuckoo [] (.write l hop.index hop.slot))
  | dst :: src :: path =>
    if canMove s.cuckoo dst src then
      some (s.goto t (copy s.cuckoo dst src) [] (.clear l dst src path))
    else
      let ops := if path = [] then unlockThree l.idx1 l.idx2 dst.index
        else unlockTwo dst.index src.index
      some (s.goto t s.cuckoo (ops ++ lockTwo l.idx1 l.idx2) (.check l))

/-- The second half. -/
def clear (s : State ι) (t : ι) (l : Locals) (dst src : Hop) (path : List Hop) : State ι :=
  let c := Workers.clear s.cuckoo src
  if path = [] then
    s.goto t c (unlockOther l.idx1 l.idx2 dst.index) (.write l src.index src.slot)
  else s.goto t c (unlockTwo dst.index src.index ++ enter l.idx1 l.idx2 (src :: path))
    (.displace l (src :: path))

/-- The write of the public `insert`, and its return. -/
def write (s : State ι) (t : ι) (l : Locals) (index slot : Nat) : State ι :=
  s.goto t { s.cuckoo with table := s.cuckoo.table.setElement index slot l.element }
    (unlockTwo l.idx1 l.idx2) .idle

/-- A thread with no lock operation to perform goes on in its code. -/
def advance (s : State ι) (t : ι) (choice : Choice) : Pc → Option (State ι)
  | .idle => none
  | .check l => some (s.check t l)
  | .search l =>
    match findPath s.cuckoo.scheme choice.reads choice.rand l.idx1 l.idx2 with
    | none => some (s.goto t s.cuckoo [] .idle)
    | some path => some (s.goto t s.cuckoo (enter l.idx1 l.idx2 path) (.displace l path))
  | .displace l path => s.displace t l path
  | .clear l dst src path => some (s.clear t l dst src path)
  | .write l index slot => some (s.write t l index slot)

end State

/-- One step; `none` when the thread is elsewhere or has to wait. -/
def step (s : State ι) : Event ι → Option (State ι)
  | .insert t element =>
    if s.thread t = ⟨[], .idle⟩ then
      let l : Locals := ⟨element, hash s.cuckoo.buckets element.key .one,
        hash s.cuckoo.buckets element.key .two⟩
      some (s.goto t s.cuckoo (lockTwo l.idx1 l.idx2) (.check l))
    else none
  | .next t choice =>
    match s.thread t with
    | ⟨op :: ops, pc⟩ => (op.perform s.locks t).map fun locks =>
        ⟨s.cuckoo, locks, update s.thread t ⟨ops, pc⟩⟩
    | ⟨[], pc⟩ => s.advance t choice pc

end ConcurrentComputing.Store.Workers
