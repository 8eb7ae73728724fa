import Mathlib.Data.Fin.Basic
import Mathlib.Data.List.FinRange
import Mathlib.Order.Fin.Basic

/-! # The first minimum

The loop that keeps the best index so far and leaves it only for a smaller value:
it ends with the lowest index of the least value. -/

namespace ConcurrentComputing.FirstMinimum

variable {ι α : Type*}

/-- The loop over the indices left, with the best one so far. -/
def firstMin [LT α] [DecidableLT α] (f : ι → α) : ι → List ι → ι
  | best, [] => best
  | best, i :: rest => if f i < f best then firstMin f i rest else firstMin f best rest

/-- The lowest index of the least value. -/
structure First [LE ι] [LT ι] [LE α] [LT α] (f : ι → α) (c : ι) : Prop where
  least : ∀ i, f c ≤ f i
  lowest : ∀ i, i < c → f c < f i

instance {n : Nat} [LinearOrder α] (f : Fin n → α) (c : Fin n) : Decidable (First f c) :=
  decidable_of_iff ((∀ i, f c ≤ f i) ∧ ∀ i, i < c → f c < f i)
    ⟨fun h => ⟨h.1, h.2⟩, fun h => ⟨h.least, h.lowest⟩⟩

theorem First.unique [LinearOrder ι] [LinearOrder α] {f : ι → α} {c d : ι} (h : First f c)
    (h' : First f d) : c = d := by
  rcases lt_trichotomy c d with hlt | he | hlt
  · exact absurd (h.least d) (not_le.mpr (h'.lowest c hlt))
  · exact he
  · exact absurd (h'.least c) (not_le.mpr (h.lowest d hlt))

/-- What the loop returns, among the indices before and those left. -/
theorem firstMin_spec [LinearOrder ι] [LinearOrder α] (f : ι → α) (best : ι) (rest before : List ι)
    (hleast : ∀ i ∈ before, f best ≤ f i) (hlowest : ∀ i ∈ before, i < best → f best < f i)
    (hlt : ∀ i ∈ best :: before, ∀ j ∈ rest, i < j) (hsorted : rest.Pairwise (· < ·)) :
    ∀ i ∈ best :: (before ++ rest), f (firstMin f best rest) ≤ f i ∧
      (i < firstMin f best rest → f (firstMin f best rest) < f i) := by
  induction rest generalizing best before with
  | nil =>
    intro i hi
    rw [List.append_nil] at hi
    rcases List.mem_cons.mp hi with rfl | hi
    · exact ⟨le_rfl, fun h => absurd h (lt_irrefl _)⟩
    · exact ⟨hleast i hi, hlowest i hi⟩
  | cons j rest ih =>
    obtain ⟨hj, hsorted⟩ := List.pairwise_cons.mp hsorted
    have hbest := hlt best List.mem_cons_self j List.mem_cons_self
    have hmem : ∀ i ∈ best :: (before ++ j :: rest), i ∈ j :: (best :: before ++ rest) := by
      intro i hi
      simp only [List.mem_cons, List.mem_append, List.cons_append] at hi ⊢
      tauto
    rw [firstMin]
    split
    · rename_i hsmall
      -- the new index is the best of all so far
      intro i hi
      refine ih j (best :: before) ?_ ?_ ?_ hsorted i (hmem i hi)
      · intro i hi
        rcases List.mem_cons.mp hi with rfl | hi
        · exact hsmall.le
        · exact hsmall.le.trans (hleast i hi)
      · intro i hi _
        rcases List.mem_cons.mp hi with rfl | hi
        · exact hsmall
        · exact hsmall.trans_le (hleast i hi)
      · intro i hi k hk
        rcases List.mem_cons.mp hi with rfl | hi
        · exact hj k hk
        · exact hlt i hi k (List.mem_cons_of_mem _ hk)
    · rename_i hlarge
      intro i hi
      refine ih best (before ++ [j]) ?_ ?_ ?_ hsorted i ?_
      · intro i hi
        rcases List.mem_append.mp hi with hi | hi
        · exact hleast i hi
        · exact List.mem_singleton.mp hi ▸ not_lt.mp hlarge
      · intro i hi hib
        rcases List.mem_append.mp hi with hi | hi
        · exact hlowest i hi hib
        · rw [List.mem_singleton.mp hi] at hib
          exact absurd hib hbest.not_gt
      · intro i hi k hk
        rcases List.mem_cons.mp hi with rfl | hi
        · exact hlt i List.mem_cons_self k (List.mem_cons_of_mem _ hk)
        · rcases List.mem_append.mp hi with hi | hi
          · exact hlt i (List.mem_cons_of_mem _ hi) k (List.mem_cons_of_mem _ hk)
          · exact List.mem_singleton.mp hi ▸ hj k hk
      · simpa using hi

/-- Over all indices of a nonempty range, from the first. -/
theorem first_firstMin {k : Nat} [LinearOrder α] (f : Fin (k + 1) → α) :
    First f (firstMin f 0 ((List.finRange (k + 1)).tail)) := by
  have hrange : List.finRange (k + 1) = 0 :: (List.finRange (k + 1)).tail := by
    rw [List.finRange_succ, List.tail_cons]
  have hsorted : (List.finRange (k + 1)).Pairwise (· < ·) := List.pairwise_lt_finRange _
  rw [hrange, List.pairwise_cons] at hsorted
  have hspec := firstMin_spec f 0 (List.finRange (k + 1)).tail [] (by simp) (by simp)
    (fun i hi j hj => List.mem_singleton.mp hi ▸ hsorted.1 j hj) hsorted.2
  have hmem : ∀ i, i ∈ (0 : Fin (k + 1)) :: ([] ++ (List.finRange (k + 1)).tail) := by
    intro i
    rw [List.nil_append, ← hrange]
    exact List.mem_finRange i
  exact ⟨fun i => (hspec i (hmem i)).1, fun i => (hspec i (hmem i)).2⟩

end ConcurrentComputing.FirstMinimum
