import Mathlib.Algebra.BigOperators.Field
import Mathlib.Algebra.BigOperators.Ring.Finset
import Mathlib.Algebra.Order.BigOperators.Group.Finset
import Mathlib.Algebra.Order.Field.Basic
import Mathlib.Algebra.Order.Ring.Unbundled.Basic
import Mathlib.Data.Fintype.BigOperators
import Mathlib.Data.Prod.Lex
import Mathlib.Tactic.Ring

/-! # Least squares

Vectors in groups, a centre for each group, and the sum of the squared distances to the
centres. The mean of a group is at least as good as any other centre, and a nearer centre
at least as good as a farther one. -/

namespace ConcurrentComputing.LeastSquares

open Finset

variable {ι κ δ K : Type*} [Field K]

def mean (S : Finset ι) (x : ι → δ → K) (j : δ) : K := (∑ i ∈ S, x i j) / #S

theorem sum_eq_card_mul_mean [CharZero K] (S : Finset ι) (x : ι → δ → K) (j : δ) :
    ∑ i ∈ S, x i j = #S * mean S x j := by
  rcases S.eq_empty_or_nonempty with rfl | hne
  · simp
  · have hcard : (#S : K) ≠ 0 := Nat.cast_ne_zero.mpr (Finset.card_ne_zero.mpr hne)
    rw [mean, mul_div_cancel₀ _ hcard]

/-- A centre is off by its own distance from the mean, once for each vector. -/
theorem sum_sq_eq [CharZero K] (S : Finset ι) (x : ι → δ → K) (j : δ) (c : K) :
    ∑ i ∈ S, (c - x i j) ^ 2 =
      ∑ i ∈ S, (mean S x j - x i j) ^ 2 + #S * (c - mean S x j) ^ 2 := by
  have hterm : ∀ i, (c - x i j) ^ 2 = (mean S x j - x i j) ^ 2 +
      ((c - mean S x j) ^ 2 + 2 * (c - mean S x j) * (mean S x j - x i j)) := by
    intro i
    ring
  have hcross : ∑ i ∈ S, (mean S x j - x i j) = 0 := by
    rw [sum_sub_distrib, sum_const, nsmul_eq_mul, sum_eq_card_mul_mean, sub_self]
  rw [sum_congr rfl fun i _ => hterm i, sum_add_distrib, sum_add_distrib, ← mul_sum, hcross,
    sum_const, nsmul_eq_mul, mul_zero, add_zero]

variable [LinearOrder K] [IsStrictOrderedRing K]

theorem sum_sq_mean_le (S : Finset ι) (x : ι → δ → K) (j : δ) (c : K) :
    ∑ i ∈ S, (mean S x j - x i j) ^ 2 ≤ ∑ i ∈ S, (c - x i j) ^ 2 := by
  rw [sum_sq_eq S x j c]
  exact le_add_of_nonneg_right (mul_nonneg (Nat.cast_nonneg _) (sq_nonneg _))

/-! ## The cost of a grouping -/

variable [Fintype ι] [Fintype δ]

def sqDist (c x : δ → K) : K := ∑ j, (c j - x j) ^ 2

abbrev members [DecidableEq κ] (own : ι → κ) (c : κ) : Finset ι := {i | own i = c}

def cost (x : ι → δ → K) (own : ι → κ) (centers : κ → δ → K) : K :=
  ∑ i, sqDist (centers (own i)) (x i)

variable {x : ι → δ → K} {own own' : ι → κ} {centers centers' : κ → δ → K}

/-- Every vector goes to a centre that is no farther. -/
theorem cost_nearer (h : ∀ i, sqDist (centers (own' i)) (x i) ≤ sqDist (centers (own i)) (x i)) :
    cost x own' centers ≤ cost x own centers :=
  sum_le_sum fun i _ => h i

/-- Every centre of a group goes to the mean of the group. -/
theorem cost_mean [Fintype κ] [DecidableEq κ]
    (h : ∀ i, centers' (own i) = mean (members own (own i)) x) :
    cost x own centers' ≤ cost x own centers := by
  have hmembers : ∀ centers : κ → δ → K, cost x own centers =
      ∑ c, ∑ j, ∑ i ∈ members own c, (centers c j - x i j) ^ 2 := by
    intro centers
    rw [cost, ← sum_fiberwise univ own]
    refine sum_congr rfl fun c _ => ?_
    rw [sum_comm]
    exact sum_congr rfl fun i hi => by rw [(mem_filter.mp hi).2, sqDist]
  rw [hmembers, hmembers]
  refine sum_le_sum fun c _ => sum_le_sum fun j _ => ?_
  rcases (members own c).eq_empty_or_nonempty with hempty | ⟨i, hi⟩
  · rw [hempty, sum_empty, sum_empty]
  · obtain rfl : own i = c := (mem_filter.mp hi).2
    rw [h i]
    exact sum_sq_mean_le (members own (own i)) x j _

/-! ## Groupings that get better -/

/-- The cost of a grouping around its means, and then its indices. -/
def potential {m : ℕ} (x : ι → δ → K) (own : ι → Fin m) : K ×ₗ ℕ :=
  toLex (cost x own fun c => mean (members own c) x, ∑ i, (own i : ℕ))

/-- Every vector goes to a centre that is nearer, or as near and of no higher index. -/
theorem potential_lt {m : ℕ} {own own' : ι → Fin m} {c : Fin m → δ → K}
    (hmeans : ∀ i, c (own i) = mean (members own (own i)) x)
    (hnear : ∀ i, sqDist (c (own' i)) (x i) ≤ sqDist (c (own i)) (x i))
    (htie : ∀ i, sqDist (c (own' i)) (x i) = sqDist (c (own i)) (x i) →
      own' i ≤ own i) (hne : own' ≠ own) : potential x own' < potential x own := by
  have hold : cost x own c = cost x own fun c => mean (members own c) x :=
    sum_congr rfl fun i _ => by rw [hmeans]
  have hnew : (cost x own' fun c => mean (members own' c) x) ≤ cost x own' c :=
    cost_mean fun _ => rfl
  rw [potential, potential, Prod.Lex.toLex_lt_toLex']
  dsimp only
  rw [← hold]
  refine ⟨hnew.trans (cost_nearer hnear), fun he => ?_⟩
  -- no vector has come nearer, so one has gone to a lower index
  have hsame : cost x own' c = cost x own c :=
    le_antisymm (cost_nearer hnear) (he ▸ hnew)
  have hties := (sum_eq_sum_iff_of_le fun i _ => hnear i).mp hsame
  obtain ⟨i, hi⟩ := Function.ne_iff.mp hne
  refine sum_lt_sum (fun j _ => htie j (hties j (mem_univ j))) ⟨i, mem_univ i, ?_⟩
  exact lt_of_le_of_ne (htie i (hties i (mem_univ i))) (Fin.val_ne_of_ne hi)

omit [Field K] [LinearOrder K] [IsStrictOrderedRing K] [Fintype ι] [Fintype δ] in
/-- A sequence along which something goes down has no value twice. -/
theorem lt_card_of_descends {α β : Type*} [Fintype β] [Preorder α] (μ : β → α) (f : ℕ → β) {m : ℕ}
    (h : ∀ t < m, μ (f (t + 1)) < μ (f t)) : m < Fintype.card β := by
  have hlt : ∀ t u, t < u → u ≤ m → μ (f u) < μ (f t) := by
    intro t u htu hu
    induction u, htu using Nat.le_induction with
    | base => exact h t hu
    | succ u _ ih => exact (h u hu).trans (ih (Nat.le_of_succ_le hu))
  have hinj : Function.Injective fun t : Fin (m + 1) => f t := by
    intro t u he
    dsimp only at he
    by_contra hne
    rcases lt_or_gt_of_ne (Fin.val_ne_of_ne hne) with htu | hut
    · exact absurd (he ▸ hlt t u htu (Nat.le_of_lt_succ u.isLt)) (lt_irrefl _)
    · exact absurd (he ▸ hlt u t hut (Nat.le_of_lt_succ t.isLt)) (lt_irrefl _)
  have hcard := Fintype.card_le_of_injective _ hinj
  rwa [Fintype.card_fin] at hcard

end ConcurrentComputing.LeastSquares
