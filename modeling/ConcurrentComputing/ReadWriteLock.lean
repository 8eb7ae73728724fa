import Mathlib.Data.Finset.Basic
import Mathlib.Logic.Function.Basic

/-! # Read-write locks

A lock with one writer or any number of readers, told by the mode in which every
thread holds it; then an array of locks beside threads that each know what they
hold. -/

namespace ConcurrentComputing.ReadWriteLock

open Function

inductive Mode where
  | read
  | write
  deriving DecidableEq, Repr

structure RWLock (ι : Type*) where
  writer : Option ι
  readers : Finset ι
  exclusive : writer ≠ none → readers = ∅

variable {ι : Type*} [DecidableEq ι]

namespace RWLock

def free : RWLock ι := ⟨none, ∅, fun _ => rfl⟩

/-- `none` while it has to wait. -/
def wrlock (l : RWLock ι) (i : ι) : Option (RWLock ι) :=
  if l.writer = none ∧ l.readers = ∅ then some ⟨some i, ∅, fun _ => rfl⟩ else none

def rdlock (l : RWLock ι) (i : ι) : Option (RWLock ι) :=
  if l.writer = none then some ⟨none, insert i l.readers, fun h => absurd rfl h⟩ else none

def unlock (l : RWLock ι) (i : ι) : RWLock ι :=
  if l.writer = some i then ⟨none, l.readers, fun h => absurd rfl h⟩
  else ⟨l.writer, l.readers.erase i, fun h => by rw [l.exclusive h, Finset.erase_empty]⟩

/-- How a thread holds the lock. -/
def mode (l : RWLock ι) (i : ι) : Option Mode :=
  if l.writer = some i then some .write else if i ∈ l.readers then some .read else none

variable {l l' : RWLock ι} {i j : ι}

theorem mode_free : (free : RWLock ι).mode i = none := rfl

/-- Beside a writer nobody holds the lock. -/
theorem eq_of_write (hi : l.mode i = some .write) (hj : l.mode j ≠ none) : i = j := by
  have hw : l.writer = some i := by
    unfold mode at hi
    split at hi
    · assumption
    · split at hi <;> cases hi
  have hr := l.exclusive (by rw [hw]; nofun)
  unfold mode at hj
  rw [hr, hw] at hj
  by_contra hne
  rw [if_neg fun h => hne (Option.some.inj h), if_neg (Finset.notMem_empty j)] at hj
  exact hj rfl

theorem wrlock_mode (h : l.wrlock i = some l') :
    (∀ j, l.mode j = none) ∧ l'.mode = update l.mode i (some .write) := by
  unfold wrlock at h
  split at h
  · rename_i hfree
    cases h
    have hnone : ∀ j, l.mode j = none := fun j => by
      simp [mode, hfree.1, hfree.2]
    refine ⟨hnone, funext fun j => ?_⟩
    by_cases hj : j = i
    · subst hj
      simp [mode]
    · rw [update_of_ne hj, hnone]
      simp [mode, Ne.symm hj]
  · cases h

theorem rdlock_mode (h : l.rdlock i = some l') :
    (∀ j, l.mode j ≠ some .write) ∧ l'.mode = update l.mode i (some .read) := by
  unfold rdlock at h
  split at h
  · rename_i hfree
    cases h
    refine ⟨fun j hj => ?_, funext fun j => ?_⟩
    · have hne : none ≠ some j := nofun
      rw [mode, hfree, if_neg hne] at hj
      split at hj <;> cases hj
    · by_cases hj : j = i
      · subst hj
        simp [mode]
      · simp [mode, hfree, hj]
  · cases h

theorem unlock_mode (l : RWLock ι) (i : ι) : (l.unlock i).mode = update l.mode i none := by
  funext j
  by_cases hw : l.writer = some i
  · have hr := l.exclusive (by rw [hw]; nofun)
    by_cases hj : j = i
    · subst hj
      simp [unlock, mode, hw, hr]
    · simp [unlock, mode, hw, hr, hj, Ne.symm hj]
  · by_cases hj : j = i
    · subst hj
      simp [unlock, mode, hw]
    · simp [unlock, mode, hw, hj]

end RWLock

/-! ## An array of locks -/

/-- Every thread holds every lock as it says. -/
def Holds (locks : Nat → RWLock ι) (held : ι → Nat → Option Mode) : Prop :=
  ∀ b i, (locks b).mode i = held i b

variable {locks : Nat → RWLock ι} {held : ι → Nat → Option Mode} {i j : ι} {b : Nat}

theorem Holds.eq_of_write (h : Holds locks held) (hi : held i b = some .write)
    (hj : held j b ≠ none) : i = j := by
  rw [← h b] at hi hj
  exact RWLock.eq_of_write hi hj

/-- A thread that holds what it held before. -/
theorem Holds.same {m : Nat → Option Mode} (h : Holds locks held) (hm : m = held i) :
    Holds locks (update held i m) := by
  rwa [hm, update_eq_self]

/-- A thread that changes how it holds one lock. -/
theorem Holds.change {l : RWLock ι} {x : Option Mode} {m : Nat → Option Mode}
    (h : Holds locks held) (hl : l.mode = update (locks b).mode i x)
    (hm : ∀ b', m b' = if b' = b then x else held i b') :
    Holds (update locks b l) (update held i m) := by
  intro b' j
  by_cases hb : b' = b
  · subst hb
    rw [update_self, hl]
    by_cases hj : j = i
    · subst hj
      rw [update_self, update_self, hm, if_pos rfl]
    · rw [update_of_ne hj, update_of_ne hj, h]
  · rw [update_of_ne hb, h]
    by_cases hj : j = i
    · subst hj
      rw [update_self, hm, if_neg hb]
    · rw [update_of_ne hj]

end ConcurrentComputing.ReadWriteLock
