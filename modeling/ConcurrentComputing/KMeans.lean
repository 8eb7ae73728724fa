import ConcurrentComputing.FirstMinimum
import Mathlib.Algebra.Order.Ring.Unbundled.Rat
import Mathlib.Analysis.Real.Sqrt

/-! # K-means

The points, the clusters and `KMeans::run` of `kmeans475-serial.cpp`, with exact
arithmetic for `double`. The starting points, which the program draws, are given. -/

namespace ConcurrentComputing.KMeans

open Function FirstMinimum

/-- A point of `d` values; its cluster is one of `k + 1`, or `none` for −1. -/
structure Point (k d : Nat) where
  id_point : Int
  id_cluster : Option (Fin (k + 1))
  values : Fin d → ℚ

structure Cluster (k d : Nat) where
  central_values : Fin d → ℚ
  points : List (Point k d)

variable {k d n : Nat}

namespace Cluster

def addPoint (c : Cluster k d) (point : Point k d) : Cluster k d :=
  { c with points := c.points ++ [point] }

/-- The first point of that id. -/
def removePoint (c : Cluster k d) (id_point : Int) : Cluster k d :=
  { c with points := c.points.eraseP fun point => point.id_point = id_point }

end Cluster

/-- The vector of points that `run` is given, and the clusters, which hold copies. -/
structure State (k d n : Nat) where
  points : Fin n → Point k d
  clusters : Fin (k + 1) → Cluster k d

namespace State

/-- `clusters[c].removePoint(points[i].getID())`. -/
def remove (s : State k d n) (c : Fin (k + 1)) (i : Fin n) : State k d n :=
  { s with clusters := update s.clusters c ((s.clusters c).removePoint (s.points i).id_point) }

/-- `points[i].setCluster(c)`, then `clusters[c].addPoint(points[i])`. -/
def move (s : State k d n) (c : Fin (k + 1)) (i : Fin n) : State k d n :=
  { points := update s.points i { s.points i with id_cluster := some c }
    clusters := update s.clusters c
      ((s.clusters c).addPoint { s.points i with id_cluster := some c }) }

/-- The starting points in their clusters, as their centres. -/
def start (data : Fin n → Fin d → ℚ) (starts : Fin (k + 1) → Fin n) : State k d n :=
  { points := fun i => ⟨i, (List.finRange (k + 1)).find? fun c => starts c = i, data i⟩
    clusters := fun c => ⟨data (starts c), [⟨starts c, some c, data (starts c)⟩]⟩ }

end State

/-! ## The serial program -/

/-- The `sum` whose root is the distance. -/
def sumOfSquares (center point : Fin d → ℚ) : ℚ :=
  (List.finRange d).foldl (fun sum j => sum + (center j - point j) ^ 2) 0

theorem sumOfSquares_nonneg (center point : Fin d → ℚ) : 0 ≤ sumOfSquares center point := by
  have h : ∀ (l : List (Fin d)) (sum : ℚ), 0 ≤ sum →
      0 ≤ l.foldl (fun sum j => sum + (center j - point j) ^ 2) sum := by
    intro l
    induction l with
    | nil => exact fun _ h => h
    | cons j l ih => exact fun sum h => ih _ (add_nonneg h (sq_nonneg _))
  exact h _ 0 le_rfl

/-- The roots compare as the sums do. -/
theorem sqrt_lt_iff (a b point : Fin d → ℚ) :
    √(sumOfSquares a point : ℝ) < √(sumOfSquares b point : ℝ) ↔
      sumOfSquares a point < sumOfSquares b point := by
  rw [Real.sqrt_lt_sqrt_iff (by exact_mod_cast sumOfSquares_nonneg a point), Rat.cast_lt]

def getIDNearestCenter (clusters : Fin (k + 1) → Cluster k d) (point : Point k d) : Fin (k + 1) :=
  firstMin (fun c => sumOfSquares (clusters c).central_values point.values) (0 : Fin k.succ)
    (List.finRange (k + 1)).tail

/-- The body of the loop over the points, with `done`. -/
def reassign (p : State k d n × Bool) (i : Fin n) : State k d n × Bool :=
  let id_old_cluster := (p.1.points i).id_cluster
  let id_nearest_center := getIDNearestCenter p.1.clusters (p.1.points i)
  if id_old_cluster = some id_nearest_center then p
  else match id_old_cluster with
    | some c => ((p.1.remove c i).move id_nearest_center i, false)
    | none => (p.1.move id_nearest_center i, false)

def pass (s : State k d n) : State k d n × Bool := (List.finRange n).foldl reassign (s, true)

def center (c : Cluster k d) : Fin d → ℚ :=
  if c.points = [] then c.central_values
  else fun j => c.points.foldl (fun sum point => sum + point.values j) 0 / c.points.length

/-- The loop that recalculates the centres. -/
def recenter (s : State k d n) : State k d n :=
  { s with clusters := fun c => { s.clusters c with central_values := center (s.clusters c) } }

/-- The clusters of the points, the centres and the count that is printed. -/
structure Outcome (k d n : Nat) where
  cluster : Fin n → Option (Fin (k + 1))
  centers : Fin (k + 1) → Fin d → ℚ
  iterations : Nat
  deriving DecidableEq

def outcome (s : State k d n) (iter : Nat) : Outcome k d n :=
  ⟨fun i => (s.points i).id_cluster, fun c => (s.clusters c).central_values, iter⟩

/-- `while(true)`, with the iterations left after this one; `done` breaks it, and
`iter >= max_iterations`. -/
def loop : Nat → Nat → State k d n → Outcome k d n
  | iter, 0, s => outcome (recenter (pass s).1) iter
  | iter, remaining + 1, s =>
    if (pass s).2 then outcome (recenter (pass s).1) iter
    else loop (iter + 1) remaining (recenter (pass s).1)

/-- `KMeans::run`. -/
def run (data : Fin n → Fin d → ℚ) (starts : Fin (k + 1) → Fin n) (max_iterations : Int) :
    Outcome k d n :=
  loop 1 (max_iterations - 1).toNat (.start data starts)

end ConcurrentComputing.KMeans
