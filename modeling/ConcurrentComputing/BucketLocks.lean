import ConcurrentComputing.LockOrder
import ConcurrentComputing.CuckooPath
import Mathlib.Tactic.Common

/-! # The bucket locks

`lock_two`, `lock_three` and their counterparts are the same text in
`CuckooHash/Cuckoo.hpp` and in the server's `Persistence/KeyValueStore/Cuckoo.hpp`:
spin locks, one for each bucket, taken in ascending order. Lock 0 of the array is
the `global_lock` of the first class; the spin lock of bucket `idx` comes after it. -/

namespace ConcurrentComputing.BucketLocks

open ReadWriteLock LockOrder CuckooPath Function

def bucket (idx : Nat) : Nat := idx + 1

def lockOne (idx : Nat) : LockOp := .acquire (bucket idx) .write
def unlockOne (idx : Nat) : LockOp := .release (bucket idx)

def rdlock : LockOp := .acquire 0 .read
def wrlock : LockOp := .acquire 0 .write
def unlock : LockOp := .release 0

def lockTwo (idx1 idx2 : Nat) : List LockOp :=
  if idx1 < idx2 then [lockOne idx1, lockOne idx2]
  else if idx1 > idx2 then [lockOne idx2, lockOne idx1]
  else [lockOne idx1]

def unlockTwo (idx1 idx2 : Nat) : List LockOp :=
  if idx1 ≠ idx2 then [unlockOne idx1, unlockOne idx2] else [unlockOne idx1]

def unlockThree (idx1 idx2 idx3 : Nat) : List LockOp :=
  if idx1 ≠ idx2 ∧ idx2 ≠ idx3 ∧ idx1 ≠ idx3 then
    [unlockOne idx1, unlockOne idx2, unlockOne idx3]
  else if idx1 = idx2 ∧ idx2 = idx3 then [unlockOne idx1]
  else if idx1 = idx2 then [unlockOne idx1, unlockOne idx3]
  else [unlockOne idx1, unlockOne idx2]

def lockThree (idx1 idx2 idx3 : Nat) : List LockOp :=
  if idx1 = idx2 ∧ idx2 = idx3 then [lockOne idx1]
  else if idx1 = idx2 then lockTwo idx1 idx3
  else if idx2 = idx3 then lockTwo idx1 idx2
  else if idx1 = idx3 then lockTwo idx1 idx2
  else if idx1 < idx2 then
    if idx1 < idx3 then
      if idx2 < idx3 then [lockOne idx1, lockOne idx2, lockOne idx3]
      else [lockOne idx1, lockOne idx3, lockOne idx2]
    else [lockOne idx3, lockOne idx1, lockOne idx2]
  else
    if idx2 < idx3 then
      if idx1 < idx3 then [lockOne idx2, lockOne idx1, lockOne idx3]
      else [lockOne idx2, lockOne idx3, lockOne idx1]
    else [lockOne idx3, lockOne idx2, lockOne idx1]

/-- What follows the displacement at depth 1: of the three buckets only that of
`path[1]` is given up, unless it is one of the other two. -/
def unlockOther (idx1 idx2 idx3 : Nat) : List LockOp :=
  if idx3 ≠ idx1 ∧ idx3 ≠ idx2 then [unlockOne idx3] else []

/-- The locks taken on the way into the section that handles a path. -/
def enter (idx1 idx2 : Nat) : List Hop → List LockOp
  | [] => []
  | [_] => lockTwo idx1 idx2
  | [dst, _] => lockThree idx1 idx2 dst.index
  | dst :: src :: _ => lockTwo dst.index src.index

/-- The buckets that section runs on. -/
def under (idx1 idx2 : Nat) : List Hop → Finset Nat
  | [] => ∅
  | [_] => {idx1, idx2}
  | [dst, _] => {idx1, idx2, dst.index}
  | dst :: src :: _ => {dst.index, src.index}

/-! ## What they hold -/

/-- The global lock in the given mode and the spin locks of some buckets. -/
def holding (m : Option Mode) (S : Finset Nat) : Nat → Option Mode
  | 0 => m
  | idx + 1 => if idx ∈ S then some .write else none

variable {m m' : Option Mode} {S T : Finset Nat} {Q : (Nat → Option Mode) → Prop}
  {ops : List LockOp} {held : Nat → Option Mode} {idx1 idx2 idx3 i : Nat}

@[simp] theorem holding_bucket : holding m S (bucket i) = if i ∈ S then some .write else none := rfl

theorem holding_ne_none : holding m S (bucket i) ≠ none ↔ i ∈ S := by
  simp

/-- A change at one bucket. -/
theorem holding_update (hT : ∀ j, j ≠ i → (j ∈ T ↔ j ∈ S)) :
    update (holding m S) (bucket i) (if i ∈ T then some .write else none) = holding m T := by
  funext b
  cases b with
  | zero => rfl
  | succ j =>
    by_cases hj : j = i
    · subst hj
      exact update_self _ _ _
    · simp [bucket, holding, hj, hT j hj]

theorem holding_insert : update (holding m S) (bucket i) (some .write) = holding m (insert i S) := by
  have h := holding_update (m := m) (i := i) (S := S) (T := insert i S) fun j hj =>
    Finset.mem_insert.trans (or_iff_right hj)
  rwa [if_pos (Finset.mem_insert_self i S)] at h

theorem holding_erase : update (holding m S) (bucket i) none = holding m (S.erase i) := by
  have h := holding_update (m := m) (i := i) (S := S) (T := S.erase i) fun j hj =>
    Finset.mem_erase.trans (and_iff_right hj)
  rwa [if_neg (Finset.notMem_erase i S)] at h

theorem holding_global : update (holding m S) 0 m' = holding m' S := by
  funext b
  cases b <;> rfl

theorem plan_done (hQ : Q (holding m S)) (h : S = T) : Plan Q (holding m S) [] (holding m T) :=
  ⟨hQ, by rw [h]⟩

theorem plan_lock (hQ : Q (holding m S)) (hi : ∀ j ∈ S, j < i)
    (h : Plan Q (holding m (insert i S)) ops held) :
    Plan Q (holding m S) (lockOne i :: ops) held := by
  refine ⟨hQ, fun b hb => ?_, ?_⟩
  · cases b with
    | zero => exact Nat.succ_pos i
    | succ j =>
      have hj : j ∈ S := by
        by_contra hn
        exact hb (if_neg hn)
      exact Nat.succ_lt_succ (hi j hj)
  · rw [lockOne, LockOp.after, holding_insert]
    exact h

theorem plan_unlock (hQ : Q (holding m S)) (hi : i ∈ S)
    (h : Plan Q (holding m (S.erase i)) ops held) :
    Plan Q (holding m S) (unlockOne i :: ops) held := by
  refine ⟨hQ, ?_, ?_⟩
  · rw [unlockOne, LockOp.Allowed, holding_bucket, if_pos hi]
    nofun
  · rw [unlockOne, LockOp.after, holding_erase]
    exact h

/-- Taking the global lock with nothing held. -/
theorem plan_global {x : Mode} (hQ : Q (holding none ∅)) (h : Plan Q (holding (some x) ∅) ops held) :
    Plan Q (holding none ∅) (.acquire 0 x :: ops) held := by
  refine ⟨hQ, fun b hb => ?_, ?_⟩
  · cases b <;> exact absurd rfl hb
  · rw [LockOp.after, holding_global]
    exact h

theorem plan_unlock_global {x : Mode} (hQ : Q (holding (some x) S))
    (h : Plan Q (holding none S) ops held) : Plan Q (holding (some x) S) (unlock :: ops) held := by
  refine ⟨hQ, nofun, ?_⟩
  rw [unlock, LockOp.after, holding_global]
  exact h

theorem unlockOther_plan (h3 : Q (holding m {idx1, idx2, idx3})) (h2 : Q (holding m {idx1, idx2})) :
    Plan Q (holding m {idx1, idx2, idx3}) (unlockOther idx1 idx2 idx3)
      (holding m {idx1, idx2}) := by
  unfold unlockOther
  split
  · have herase : ({idx1, idx2, idx3} : Finset Nat).erase idx3 = {idx1, idx2} := by
      ext j
      simp only [Finset.mem_erase, Finset.mem_insert, Finset.mem_singleton]
      omega
    exact plan_unlock h3 (by simp) (plan_done (herase ▸ h2) herase)
  · refine plan_done h3 ?_
    ext j
    simp only [Finset.mem_insert, Finset.mem_singleton]
    omega

section plans

variable (hQ : ∀ S, Q (holding m S))
include hQ

theorem lockTwo_plan : Plan Q (holding m ∅) (lockTwo idx1 idx2) (holding m {idx1, idx2}) := by
  unfold lockTwo
  split
  · rename_i hlt
    refine plan_lock (hQ _) (by simp) (plan_lock (hQ _) (by simp [hlt]) (plan_done (hQ _) ?_))
    ext j
    simp [or_comm]
  · split
    · rename_i hgt
      refine plan_lock (hQ _) (by simp) (plan_lock (hQ _) ?_ (plan_done (hQ _) ?_))
      · simpa using hgt
      · ext j
        simp
    · have heq : idx1 = idx2 := by omega
      subst heq
      refine plan_lock (hQ _) (by simp) (plan_done (hQ _) ?_)
      simp

theorem unlockTwo_plan : Plan Q (holding m {idx1, idx2}) (unlockTwo idx1 idx2) (holding m ∅) := by
  unfold unlockTwo
  split
  · rename_i hne
    refine plan_unlock (hQ _) (by simp) (plan_unlock (hQ _) ?_ (plan_done (hQ _) ?_))
    · simp [Ne.symm hne]
    · ext j
      simp only [Finset.mem_erase, Finset.mem_insert, Finset.mem_singleton, Finset.notMem_empty,
        iff_false]
      omega
  · rename_i heq
    rw [not_not] at heq
    subst heq
    refine plan_unlock (hQ _) (by simp) (plan_done (hQ _) ?_)
    simp

theorem unlockThree_plan : Plan Q (holding m {idx1, idx2, idx3}) (unlockThree idx1 idx2 idx3)
    (holding m ∅) := by
  unfold unlockThree
  split
  · rename_i hne
    refine plan_unlock (hQ _) (by simp) (plan_unlock (hQ _) ?_ (plan_unlock (hQ _) ?_
      (plan_done (hQ _) ?_)))
    · simp [Ne.symm hne.1]
    · simp [Ne.symm hne.2.1, Ne.symm hne.2.2]
    · ext j
      simp only [Finset.mem_erase, Finset.mem_insert, Finset.mem_singleton, Finset.notMem_empty,
        iff_false]
      omega
  · rename_i hne
    split
    · rename_i heq
      obtain ⟨rfl, rfl⟩ := heq
      refine plan_unlock (hQ _) (by simp) (plan_done (hQ _) ?_)
      simp
    · rename_i hne'
      -- two of the three coincide
      split
      · rename_i heq
        subst heq
        refine plan_unlock (hQ _) (by simp) (plan_unlock (hQ _) ?_ (plan_done (hQ _) ?_))
        · have : idx3 ≠ idx1 := by omega
          simp [this]
        · ext j
          simp only [Finset.mem_erase, Finset.mem_insert, Finset.mem_singleton,
            Finset.notMem_empty, iff_false]
          omega
      · rename_i hne12
        refine plan_unlock (hQ _) (by simp) (plan_unlock (hQ _) ?_ (plan_done (hQ _) ?_))
        · simp [Ne.symm hne12]
        · ext j
          simp only [Finset.mem_erase, Finset.mem_insert, Finset.mem_singleton,
            Finset.notMem_empty, iff_false]
          omega

/-- Three locks in ascending order. -/
theorem ascending_plan {i j k : Nat} (hij : i < j) (hjk : j < k)
    (h : ∀ x, x ∈ S ↔ x = i ∨ x = j ∨ x = k) :
    Plan Q (holding m ∅) [lockOne i, lockOne j, lockOne k] (holding m S) := by
  refine plan_lock (hQ _) (by simp) (plan_lock (hQ _) (by simpa using hij) (plan_lock (hQ _) ?_
    (plan_done (hQ _) ?_)))
  · simp only [Finset.mem_insert, Finset.notMem_empty, or_false]
    omega
  · ext x
    simp only [Finset.mem_insert, Finset.notMem_empty, or_false, h]
    omega

theorem lockThree_plan : Plan Q (holding m ∅) (lockThree idx1 idx2 idx3)
    (holding m {idx1, idx2, idx3}) := by
  have hmem : ∀ x, x ∈ ({idx1, idx2, idx3} : Finset Nat) ↔ x = idx1 ∨ x = idx2 ∨ x = idx3 := by
    intro x
    simp
  have htwo : ∀ {i j}, (∀ x, x ∈ ({idx1, idx2, idx3} : Finset Nat) ↔ x = i ∨ x = j) →
      Plan Q (holding m ∅) (lockTwo i j) (holding m {idx1, idx2, idx3}) := by
    intro i j h
    have heq : ({idx1, idx2, idx3} : Finset Nat) = {i, j} := by
      ext x
      rw [h]
      simp
    rw [heq]
    exact lockTwo_plan hQ
  unfold lockThree
  split
  · rename_i heq
    obtain ⟨rfl, rfl⟩ := heq
    refine plan_lock (hQ _) (by simp) (plan_done (hQ _) ?_)
    simp
  · split
    · exact htwo fun x => by rw [hmem]; omega
    · split
      · exact htwo fun x => by rw [hmem]; omega
      · split
        · exact htwo fun x => by rw [hmem]; omega
        · -- all three differ, and each branch lists them in order
          split
          · split
            · split
              · exact ascending_plan hQ (by omega) (by omega) fun x => by rw [hmem]
              · exact ascending_plan hQ (by omega) (by omega) fun x => by rw [hmem]; omega
            · exact ascending_plan hQ (by omega) (by omega) fun x => by rw [hmem]; omega
          · split
            · split
              · exact ascending_plan hQ (by omega) (by omega) fun x => by rw [hmem]; omega
              · exact ascending_plan hQ (by omega) (by omega) fun x => by rw [hmem]; omega
            · exact ascending_plan hQ (by omega) (by omega) fun x => by rw [hmem]; omega

theorem enter_plan (path : List Hop) :
    Plan Q (holding m ∅) (enter idx1 idx2 path) (holding m (under idx1 idx2 path)) := by
  match path with
  | [] => exact plan_done (hQ _) rfl
  | [_] => exact lockTwo_plan hQ
  | [_, _] => exact lockThree_plan hQ
  | _ :: _ :: _ :: _ => exact lockTwo_plan hQ

end plans

end ConcurrentComputing.BucketLocks
