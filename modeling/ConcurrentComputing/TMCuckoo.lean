import ConcurrentComputing.TwoTableThreads

/-! # The two-table set over transactions

`CuckooHash/TMCuckoo.hpp` is `CuckooHash/Cuckoo.hpp` with wider buckets and with
its bucket locks compiled out: each locked section is a `__transaction_atomic`
block, one step here. A block that succeeds only names the slot, and the public
`insert` writes the element in a step of its own. What does not depend on the
width of a bucket is shared with the locked class. -/

namespace ConcurrentComputing.TMCuckoo

open CuckooPath TwoTable Function
open TwoTable.Threads (Locals Choice Event)

/-- `WIDTH`. -/
def width : Nat := 50

def find (t : Table) (val : Val) (idx : Nat) : Bool :=
  (List.range width).any fun i => t.elements idx i == val

def findSlot (t : Table) (val : Val) (idx : Nat) : Option Nat :=
  (List.range width).find? fun i => t.elements idx i == val

def isAvailable (t : Table) (idx : Nat) : Option Nat :=
  (List.range width).find? fun i => !Table.isOccupied (t.elements idx i)

def scheme (c : Cuckoo) : Scheme Val := ⟨width, maxSearchDepth, 0, hash c.buckets⟩

/-! ## The transactions -/

/-- The first block of the private `insert`; `none` when both buckets are full. -/
def firstCheck (c : Cuckoo) (val : Val) (idx1 idx2 : Nat) : Option Result :=
  if find c.table1 val idx1 || find c.table2 val idx2 then some .duplicate
  else match isAvailable c.table1 idx1 with
    | some slot => some (.success .one idx1 slot)
    | none => match isAvailable c.table2 idx2 with
      | some slot => some (.success .two idx2 slot)
      | none => none

def remove (c : Cuckoo) (val : Val) : Bool × Cuckoo :=
  let idx1 := hash c.buckets val .one
  let idx2 := hash c.buckets val .two
  match findSlot c.table1 val idx1 with
  | some slot => (true, c.write .one idx1 slot 0)
  | none => match findSlot c.table2 val idx2 with
    | some slot => (true, c.write .two idx2 slot 0)
    | none => (false, c)

def contains (c : Cuckoo) (val : Val) : Bool :=
  find c.table1 val (hash c.buckets val .one) || find c.table2 val (hash c.buckets val .two)

/-! ## The search codes

With 50 slots a bucket, a search that gets five levels down can pass `INT_MAX` in
`pathcode`, and a signed overflow is undefined. -/

def intMax : Nat := 2 ^ 31 - 1

/-- Every code the slot loop of `search` computes fits. -/
def scanFits {κ : Type} [DecidableEq κ] (g : Scheme κ) (views : Nat → View κ) (point : Point)
    (startSlot : Nat) : Nat → Bool
  | 0 => true
  | todo + 1 =>
    let i := g.width - (todo + 1)
    let slot := (startSlot + i) % g.width
    let fits := decide (point.pathcode * g.width + slot ≤ intMax)
    if views (1 + 2 * i) point.table point.index slot = g.empty then fits
    else if point.depth < g.maxSearchDepth - 1 then
      fits && scanFits g views point startSlot todo
    else scanFits g views point startSlot todo

/-- Every code the queue loop computes fits. -/
def searchFits {κ : Type} [DecidableEq κ] (g : Scheme κ) (views : Nat → Nat → View κ)
    (rand : Nat → Nat) : Nat → Nat → List Point → List κ → Bool
  | 0, _, _, _ => true
  | _ + 1, _, [], _ => true
  | fuel + 1, n, point :: q, paths =>
    let val := views n 0 point.table point.index (point.pathcode % g.width)
    if val ∈ paths then true
    else scanFits g (views n) point (rand n % g.width) g.width &&
      match scan g (views n) point (rand n % g.width) g.width [] with
      | .found _ => true
      | .pushed ps => searchFits g views rand fuel (n + 1) (q ++ ps) (val :: paths)

/-! ## Threads -/

/-- The step a thread takes next; after `write` its `insert` returns true. -/
inductive Pc where
  | idle
  | check (l : Locals)
  | search (l : Locals)
  | displace (l : Locals) (path : List Hop)
  | write (l : Locals) (table : Side) (index slot : Nat)
  | resize (l : Locals)
  deriving DecidableEq, Repr

/-- The tables with the states they went through, latest first, the threads, and
the answers in the order of the steps that decided them. -/
structure State (ι : Type) where
  cuckoo : Cuckoo
  past : List Cuckoo
  pc : ι → Pc
  log : List (Op × Bool)

variable {ι : Type} [DecidableEq ι]

namespace State

def start (c : Cuckoo) : State ι := ⟨c, [], fun _ => .idle, []⟩

def reads (s : State ι) (choice : Choice) : Reads Val where
  search n i := ((s.cuckoo :: s.past).getD (choice.search n i) s.cuckoo).view
  path i := ((s.cuckoo :: s.past).getD (choice.path i) s.cuckoo).view

def goto (s : State ι) (t : ι) (c : Cuckoo) (pc : Pc) : State ι :=
  ⟨c, s.cuckoo :: s.past, update s.pc t pc, s.log⟩

def finish (s : State ι) (t : ι) (c : Cuckoo) (op : Op) (answer : Bool) : State ι :=
  ⟨c, s.cuckoo :: s.past, update s.pc t .idle, s.log ++ [(op, answer)]⟩

/-- What the public `insert` does with a result. -/
def settle (s : State ι) (t : ι) (l : Locals) (c : Cuckoo) : Result → State ι
  | .duplicate => s.finish t c (.insert l.val) false
  | .resize => s.goto t c (.resize l)
  | .retry => s.goto t c (.check l)
  | .success table index slot => s.goto t c (.write l table index slot)

/-- The blocks of `insert` that follow the search. -/
def displaceNext (s : State ι) (t : ι) (l : Locals) : List Hop → Option (State ι)
  | [] => none
  | [hop] => some (s.settle t l s.cuckoo (s.cuckoo.claim hop))
  | dst :: src :: path =>
    match s.cuckoo.displace dst src with
    | none => some (s.settle t l s.cuckoo .retry)
    | some c =>
      if path = [] then some (s.settle t l c (.success src.table src.index src.slot))
      else some (s.goto t c (.displace l (src :: path)))

end State

/-- One step of one thread; `none` when the thread is elsewhere. A thread whose
search fails goes on to `resize`, and one whose search overflows has no defined
next step: these runs follow neither. -/
def step (s : State ι) : Event ι → Option (State ι)
  | .insert t val =>
    match s.pc t with
    | .idle => some (s.goto t s.cuckoo
        (.check ⟨val, hash s.cuckoo.buckets val .one, hash s.cuckoo.buckets val .two⟩))
    | _ => none
  | .remove t val =>
    match s.pc t with
    | .idle => some (s.finish t (remove s.cuckoo val).2 (.remove val) (remove s.cuckoo val).1)
    | _ => none
  | .contains t val =>
    match s.pc t with
    | .idle => some (s.finish t s.cuckoo (.contains val) (contains s.cuckoo val))
    | _ => none
  | .next t choice =>
    match s.pc t with
    | .idle | .resize _ => none
    | .check l =>
      match firstCheck s.cuckoo l.val l.idx1 l.idx2 with
      | some r => some (s.settle t l s.cuckoo r)
      | none => some (s.goto t s.cuckoo (.search l))
    | .search l =>
      let g := scheme s.cuckoo
      if searchFits g (s.reads choice).search choice.rand
          (2 * treeSize g.width g.maxSearchDepth + 1) 0
          [⟨.one, l.idx1, 0, 0⟩, ⟨.two, l.idx2, 1, 0⟩] [] then
        match findPath g (s.reads choice) choice.rand l.idx1 l.idx2 with
        | none => some (s.settle t l s.cuckoo .resize)
        | some path => some (s.goto t s.cuckoo (.displace l path))
      else none
    | .displace l path => s.displaceNext t l path
    | .write l table index slot =>
      some (s.finish t (s.cuckoo.write table index slot l.val) (.insert l.val) true)

end ConcurrentComputing.TMCuckoo
