import ConcurrentComputing.KMeans
import ConcurrentComputing.TruncatedSum

/-! # K-means in parallel

`KMeans::run` of `kmeans475-paralell.cpp`. Its differences and its sums are of type
`int`: what does not fit into one has no defined value, and the run none then. The
loop over the points runs in any order, and in any interleaving of the locked steps
of its bodies; the range of a sum is cut in any way. -/

namespace ConcurrentComputing.KMeans

open Function TruncatedSum FirstMinimum

def intMin : Int := -2 ^ 31
def intMax : Int := 2 ^ 31 - 1

def toInt (x : ℚ) : Option Int := checked intMin intMax (trunc x)

variable {k d n : Nat}

namespace Parallel

/-- `int val = ...; sum += val * val`. -/
def sumOfSquares (center point : Fin d → ℚ) : Option ℚ :=
  (List.finRange d).foldlM (fun sum j => do
    let val ← toInt (center j - point j)
    let square ← checked intMin intMax (val * val)
    return sum + square) 0

/-- The loop over the centres, with the best one so far and its sum. -/
def nearestLoop (sums : Fin (k + 1) → Option ℚ) : Fin (k + 1) → ℚ → List (Fin (k + 1)) →
    Option (Fin (k + 1))
  | best, _, [] => some best
  | best, min, c :: rest =>
    (sums c).bind fun dist =>
      if dist < min then nearestLoop sums c dist rest else nearestLoop sums best min rest

def getIDNearestCenter (clusters : Fin (k + 1) → Cluster k d) (point : Point k d) :
    Option (Fin (k + 1)) :=
  let sums := fun c => sumOfSquares (clusters c).central_values point.values
  (sums 0).bind fun min => nearestLoop sums 0 min (List.finRange (k + 1)).tail

end Parallel

/-! ## The assignment pass -/

/-- How far the body for a point has come: it may have removed the point from its
cluster, and not yet added it to the nearest. -/
inductive Phase (k : Nat) where
  | start
  | removed (id_nearest_center : Fin (k + 1))
  | finished
  deriving DecidableEq

structure Pass (k d n : Nat) where
  state : State k d n
  phase : Fin n → Phase k
  done : Bool

/-- The next locked step of the body for a point, whatever finds the nearest centre. -/
def Pass.step (nearest : (Fin (k + 1) → Cluster k d) → Point k d → Option (Fin (k + 1)))
    (p : Pass k d n) (i : Fin n) : Option (Pass k d n) :=
  match p.phase i with
  | .start => (nearest p.state.clusters (p.state.points i)).map fun c =>
    match (p.state.points i).id_cluster with
    | none => ⟨p.state.move c i, update p.phase i .finished, false⟩
    | some old =>
      if old = c then ⟨p.state, update p.phase i .finished, p.done⟩
      else ⟨p.state.remove old i, update p.phase i (.removed c), p.done⟩
  | .removed c => some ⟨p.state.move c i, update p.phase i .finished, false⟩
  | .finished => some p

def Pass.start (s : State k d n) : Pass k d n := ⟨s, fun _ => .start, true⟩

/-- An interleaving of the bodies: every point has its turn until its body is through. -/
def Complete (schedule : List (Fin n)) : Prop := ∀ i, 2 ≤ schedule.count i

namespace Parallel

def pass (schedule : List (Fin n)) (s : State k d n) : Option (Pass k d n) :=
  schedule.foldlM (Pass.step getIDNearestCenter) (.start s)

/-! ## The centres -/

/-- `int sum = parallel_reduce(...)`, then the division of two `int`s. -/
def mean (split : Split) (points : List (Point k d)) (j : Fin d) : Option ℚ :=
  (split.eval intMin intMax 0 (points.map fun point => point.values j)).map fun sum =>
    ((sum.tdiv points.length : Int) : ℚ)

/-- The total of a coordinate, and with it the mean, is the same for every way to cut the
range, exactly when its values can be cut. -/
theorem mean_split (points : List (Point k d)) (j : Fin d) :
    (∃ sum : Int, ∀ split : Split,
      split.eval intMin intMax 0 (points.map fun point => point.values j) = some sum ∧
      mean split points j = some ((sum.tdiv points.length : Int) : ℚ)) ↔
      Splittable intMin intMax (points.map fun point => point.values j) := by
  constructor
  · intro h
    obtain ⟨sum, hsum⟩ := h
    exact Total.splittable fun split => (hsum split).1
  · intro h
    have htotal := total_iff.mpr ⟨h, rfl⟩
    exact ⟨_, fun split => ⟨htotal split, by rw [mean, htotal split, Option.map_some]⟩⟩

/-- `5/2` and `-1/2`, as one range and as two. -/
theorem mean_split_differs :
    let points : List (Point 0 1) := [⟨0, none, fun _ => 5 / 2⟩, ⟨1, none, fun _ => -1 / 2⟩]
    mean .leaf points 0 = some 0 ∧ mean (.fork 1 .leaf .leaf) points 0 = some 1 ∧
    Split.leaf.eval intMin intMax 0 (points.map fun point => point.values 0) = some 1 ∧
    (Split.fork 1 .leaf .leaf).eval intMin intMax 0 (points.map fun point => point.values 0) =
      some 2 := by
  decide +kernel

def center (split : Fin d → Split) (c : Cluster k d) : Option (Fin d → ℚ) :=
  if c.points = [] then some c.central_values
  else if h : ∀ j, (mean (split j) c.points j).isSome then
    some fun j => (mean (split j) c.points j).get (h j)
  else none

def recenter (split : Fin (k + 1) → Fin d → Split) (s : State k d n) : Option (State k d n) :=
  if h : ∀ c, (center (split c) (s.clusters c)).isSome then
    some { s with clusters := fun c =>
      { s.clusters c with central_values := (center (split c) (s.clusters c)).get (h c) } }
  else none

/-- How the parallel loops of an iteration fall out. -/
structure Choice (k d n : Nat) where
  schedule : List (Fin n)
  split : Fin (k + 1) → Fin d → Split

/-- An iteration: the state after it, with `done`. -/
def iteration (choice : Choice k d n) (s : State k d n) : Option (State k d n × Bool) :=
  (pass choice.schedule s).bind fun p => (recenter choice.split p.state).map fun s => (s, p.done)

def loop (choices : Nat → Choice k d n) : Nat → Nat → State k d n → Option (Outcome k d n)
  | iter, 0, s => (iteration (choices iter) s).map fun p => outcome p.1 iter
  | iter, remaining + 1, s => (iteration (choices iter) s).bind fun p =>
    if p.2 then some (outcome p.1 iter) else loop choices (iter + 1) remaining p.1

/-- `KMeans::run`. -/
def run (data : Fin n → Fin d → ℚ) (starts : Fin (k + 1) → Fin n) (max_iterations : Int)
    (choices : Nat → Choice k d n) : Option (Outcome k d n) :=
  loop choices 1 (max_iterations - 1).toNat (.start data starts)

end Parallel

end ConcurrentComputing.KMeans
