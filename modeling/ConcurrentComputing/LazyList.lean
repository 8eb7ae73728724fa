import ConcurrentComputing.Runs
import ConcurrentComputing.SortedChain
import Mathlib.Algebra.Group.Int.Defs

/-! # The lazy list

`Persistence/KeyValueStore/ConcurrentList.cpp` at `K = V = int`, one shared access
a step: any number of threads run `add`, `remove` and `contains` on one list.
Nodes are never freed, so an address names one node for good. -/

namespace ConcurrentComputing.LazyList

open Function Runs SortedChain

abbrev Addr := Nat

def intMin : Int := -2 ^ 31
def intMax : Int := 2 ^ 31 - 1

/-- A node; its mutex is free or held by a thread, its pointer an address or
`NULL`. -/
structure Node (ι : Type) where
  key : Int
  val : Int
  marked : Bool
  lock : Option ι
  next : Option Addr

/-- The nodes, and the address `new` gives out next. -/
structure Memory (ι : Type) where
  nodes : Addr → Node ι
  fresh : Addr

inductive Result where
  | false
  | true
  | abortFailure
  deriving DecidableEq, Repr

inductive Op where
  | add (key val : Int)
  | remove (key : Int)
  | contains (key : Int)
  deriving DecidableEq, Repr

def Op.key : Op → Int
  | .add key _ | .remove key | .contains key => key

/-- The shared access a thread makes next, with the local variables still in use. -/
inductive Pc where
  /-- `while (runner -> key < key)` of `contains` -/
  | readKey (runner : Addr)
  | readNext (runner : Addr)
  | compareKey (runner : Addr)
  | readMarked (runner : Addr)
  /-- `runner = pred -> next`, from `head` first -/
  | walkNext (pred : Addr)
  | walkKey (pred runner : Addr)
  | lockPred (pred runner : Addr)
  | lockRunner (pred runner : Addr)
  | giveUp (pred : Addr)
  /-- `validateLink`, in its order -/
  | checkLink (pred runner : Addr)
  | checkPred (pred runner : Addr)
  | checkRunner (pred runner : Addr)
  | decide (pred runner : Addr)
  | mark (pred runner : Addr)
  | readSucc (pred runner : Addr)
  | unlink (pred runner : Addr) (succ : Option Addr)
  | create (pred runner : Addr)
  | setNext (pred runner insertion : Addr)
  | link (pred runner insertion : Addr)
  /-- `none` as the result makes for another round -/
  | unlockPred (pred runner : Addr) (result : Option Result)
  | unlockRunner (runner : Addr) (result : Option Result)
  deriving DecidableEq, Repr

def head : Addr := 0

namespace Memory

variable {ι : Type}

/-- The constructor: `head` and the last node. -/
def new : Memory ι :=
  ⟨fun a =>
    if a = head then ⟨intMin, intMin, false, none, some 1⟩ else ⟨intMax, intMax, false, none, none⟩,
    2⟩

def key (m : Memory ι) (a : Addr) : Int := (m.nodes a).key
def marked (m : Memory ι) (a : Addr) : Bool := (m.nodes a).marked
def lock (m : Memory ι) (a : Addr) : Option ι := (m.nodes a).lock
def next (m : Memory ι) (a : Addr) : Option Addr := (m.nodes a).next

def setLock (m : Memory ι) (a : Addr) (lock : Option ι) : Memory ι :=
  { m with nodes := update m.nodes a { m.nodes a with lock := lock } }

def setMarked (m : Memory ι) (a : Addr) : Memory ι :=
  { m with nodes := update m.nodes a { m.nodes a with marked := true } }

def setNext (m : Memory ι) (a : Addr) (next : Option Addr) : Memory ι :=
  { m with nodes := update m.nodes a { m.nodes a with next := next } }

/-- `new Node<K, V>(key, val)`. -/
def create (m : Memory ι) (key val : Int) : Memory ι :=
  ⟨update m.nodes m.fresh ⟨key, val, false, none, none⟩, m.fresh + 1⟩

end Memory

/-- A thread goes on in its call, or returns from it. -/
inductive Outcome where
  | goto (pc : Pc)
  | answer (result : Result)
  deriving DecidableEq, Repr

def Op.start : Op → Pc
  | .contains _ => .readKey head
  | .add _ _ | .remove _ => .walkNext head

/-- One access of thread `i`; `none` where the code would follow `NULL`. -/
def advance {ι : Type} (m : Memory ι) (i : ι) (op : Op) : Pc → Option (Memory ι × Outcome)
  | .readKey runner =>
    some (m, .goto (if m.key runner < op.key then .readNext runner else .compareKey runner))
  | .readNext runner => (m.next runner).map fun next => (m, .goto (.readKey next))
  | .compareKey runner =>
    some (m, if m.key runner = op.key then .goto (.readMarked runner) else .answer .false)
  | .readMarked runner => some (m, .answer (if m.marked runner then .false else .true))
  | .walkNext pred => (m.next pred).map fun runner => (m, .goto (.walkKey pred runner))
  | .walkKey pred runner =>
    some (m, .goto (if m.key runner < op.key then .walkNext runner else .lockPred pred runner))
  | .lockPred pred runner =>
    match m.lock pred with
    | some _ => some (m, .answer .abortFailure)
    | none => some (m.setLock pred (some i), .goto (.lockRunner pred runner))
  | .lockRunner pred runner =>
    match m.lock runner with
    | some _ => some (m, .goto (.giveUp pred))
    | none => some (m.setLock runner (some i), .goto (.checkLink pred runner))
  | .giveUp pred => some (m.setLock pred none, .answer .abortFailure)
  | .checkLink pred runner =>
    some (m, .goto (if m.next pred = some runner then .checkPred pred runner
      else .unlockPred pred runner none))
  | .checkPred pred runner =>
    some (m, .goto (if m.marked pred then .unlockPred pred runner none
      else .checkRunner pred runner))
  | .checkRunner pred runner =>
    some (m, .goto (if m.marked runner then .unlockPred pred runner none
      else .decide pred runner))
  | .decide pred runner =>
    match op with
    | .remove key =>
      some (m, .goto (if m.key runner = key then .mark pred runner
        else .unlockPred pred runner (some .false)))
    | .add key _ =>
      some (m, .goto (if m.key runner ≠ key then .create pred runner
        else .unlockPred pred runner (some .false)))
    | .contains _ => none
  | .mark pred runner => some (m.setMarked runner, .goto (.readSucc pred runner))
  | .readSucc pred runner => some (m, .goto (.unlink pred runner (m.next runner)))
  | .unlink pred runner succ =>
    some (m.setNext pred succ, .goto (.unlockPred pred runner (some .true)))
  | .create pred runner =>
    match op with
    | .add key val => some (m.create key val, .goto (.setNext pred runner m.fresh))
    | .remove _ | .contains _ => none
  | .setNext pred runner insertion =>
    some (m.setNext insertion (some runner), .goto (.link pred runner insertion))
  | .link pred runner insertion =>
    some (m.setNext pred (some insertion), .goto (.unlockPred pred runner (some .true)))
  | .unlockPred pred runner result =>
    some (m.setLock pred none, .goto (.unlockRunner runner result))
  | .unlockRunner runner result =>
    some (m.setLock runner none,
      match result with
      | some result => .answer result
      | none => .goto op.start)

/-! ## Threads -/

/-- A call; no two are made at the same time. -/
structure Call (ι : Type) where
  thread : ι
  op : Op
  called : Nat
  deriving DecidableEq, Repr

structure Running (ι : Type) where
  call : Call ι
  pc : Pc

structure Returned (ι : Type) where
  call : Call ι
  answer : Result
  returned : Nat

/-- The clock counts the steps taken; nothing but the records of calls reads it. -/
structure State (ι : Type) where
  mem : Memory ι
  thread : ι → Option (Running ι)
  returned : List (Returned ι)
  clock : Nat

inductive Event (ι : Type) where
  | call (i : ι) (op : Op)
  | next (i : ι)
  deriving DecidableEq

variable {ι : Type} [DecidableEq ι]

def start : State ι := ⟨.new, fun _ => none, [], 0⟩

/-- The state after thread `i` has made an access. -/
def State.proceed (s : State ι) (i : ι) (r : Running ι) (m : Memory ι) : Outcome → State ι
  | .goto pc => ⟨m, update s.thread i (some ⟨r.call, pc⟩), s.returned, s.clock + 1⟩
  | .answer result =>
    ⟨m, update s.thread i none, s.returned ++ [⟨r.call, result, s.clock + 1⟩], s.clock + 1⟩

def step (s : State ι) : Event ι → Option (State ι)
  | .call i op =>
    match s.thread i with
    | none => some { s with
        thread := update s.thread i (some ⟨⟨i, op, s.clock + 1⟩, op.start⟩)
        clock := s.clock + 1 }
    | some _ => none
  | .next i =>
    match s.thread i with
    | none => none
    | some r => (advance s.mem i r.call.op r.pc).map fun (m, o) => s.proceed i r m o

end ConcurrentComputing.LazyList
