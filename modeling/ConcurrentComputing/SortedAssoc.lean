import Mathlib.Order.Lattice
import Mathlib.Data.List.Basic
import Mathlib.Tactic.Common

/-! # Sorted lists of keys and values

The walk that stops at the first key that is not smaller, as a lookup, as an
insertion, as an assignment and as a removal, over any linear order: on a list with
its keys in order it finds what is bound. -/

namespace ConcurrentComputing.SortedAssoc

variable {K V : Type*} [LinearOrder K]

def find (key : K) : List (K × V) → Option V
  | [] => none
  | (k, v) :: rest => if k < key then find key rest else if k = key then some v else none

/-- Bind a key that is not bound. -/
def add (key : K) (val : V) : List (K × V) → List (K × V)
  | [] => [(key, val)]
  | (k, v) :: rest =>
    if k < key then (k, v) :: add key val rest
    else if k = key then (k, v) :: rest
    else (key, val) :: (k, v) :: rest

/-- Bind a key anew that is bound. -/
def assign (key : K) (val : V) : List (K × V) → List (K × V)
  | [] => []
  | (k, v) :: rest =>
    if k < key then (k, v) :: assign key val rest
    else if k = key then (k, val) :: rest
    else (k, v) :: rest

/-- Unbind a key. -/
def erase (key : K) : List (K × V) → List (K × V)
  | [] => []
  | (k, v) :: rest =>
    if k < key then (k, v) :: erase key rest
    else if k = key then rest
    else (k, v) :: rest

abbrev Sorted (l : List (K × V)) : Prop := l.Pairwise fun a b => a.1 < b.1

variable {l : List (K × V)} {key k : K} {val v : V}

theorem mem_add {a : K × V} (h : a ∈ add key val l) : a = (key, val) ∨ a ∈ l := by
  induction l with
  | nil => exact Or.inl (List.mem_singleton.mp h)
  | cons b l ih =>
    obtain ⟨k, v⟩ := b
    rw [add] at h
    split at h
    · rcases List.mem_cons.mp h with rfl | h
      · exact Or.inr List.mem_cons_self
      · exact (ih h).imp_right (List.mem_cons_of_mem _)
    · split at h
      · exact Or.inr h
      · exact (List.mem_cons.mp h)

theorem mem_assign {a : K × V} (h : a ∈ assign key val l) : ∃ v, (a.1, v) ∈ l := by
  induction l with
  | nil => cases h
  | cons b l ih =>
    obtain ⟨k, v⟩ := b
    rw [assign] at h
    split at h
    · rcases List.mem_cons.mp h with rfl | h
      · exact ⟨v, List.mem_cons_self⟩
      · obtain ⟨w, hw⟩ := ih h
        exact ⟨w, List.mem_cons_of_mem _ hw⟩
    · split at h
      · rcases List.mem_cons.mp h with rfl | h
        · exact ⟨v, List.mem_cons_self⟩
        · exact ⟨a.2, List.mem_cons_of_mem _ h⟩
      · exact ⟨a.2, h⟩

theorem Sorted.add (h : Sorted l) (key : K) (val : V) : Sorted (add key val l) := by
  induction l with
  | nil => exact List.pairwise_singleton _ _
  | cons b l ih =>
    obtain ⟨k, v⟩ := b
    obtain ⟨hfirst, hrest⟩ := List.pairwise_cons.mp h
    rw [SortedAssoc.add]
    split
    · rename_i hlt
      refine List.pairwise_cons.mpr ⟨fun a ha => ?_, ih hrest⟩
      rcases mem_add ha with rfl | ha
      · exact hlt
      · exact hfirst a ha
    · rename_i hge
      split
      · exact h
      · rename_i hne
        have hlt : key < k := lt_of_le_of_ne (not_lt.mp hge) (Ne.symm hne)
        refine List.pairwise_cons.mpr ⟨fun a ha => ?_, h⟩
        rcases List.mem_cons.mp ha with rfl | ha
        · exact hlt
        · exact hlt.trans (hfirst a ha)

theorem Sorted.assign (h : Sorted l) (key : K) (val : V) : Sorted (assign key val l) := by
  induction l with
  | nil => exact .nil
  | cons b l ih =>
    obtain ⟨k, v⟩ := b
    obtain ⟨hfirst, hrest⟩ := List.pairwise_cons.mp h
    rw [SortedAssoc.assign]
    split
    · refine List.pairwise_cons.mpr ⟨fun a ha => ?_, ih hrest⟩
      obtain ⟨w, hw⟩ := mem_assign ha
      exact hfirst (a.1, w) hw
    · split
      · exact List.pairwise_cons.mpr ⟨hfirst, hrest⟩
      · exact h

theorem erase_sublist (key : K) (l : List (K × V)) : (erase key l).Sublist l := by
  induction l with
  | nil => exact .slnil
  | cons b l ih =>
    obtain ⟨k, v⟩ := b
    rw [erase]
    split
    · exact ih.cons_cons _
    · split
      · exact List.sublist_cons_self _ _
      · exact .refl _

theorem Sorted.erase (h : Sorted l) (key : K) : Sorted (erase key l) :=
  h.sublist (erase_sublist key l)

/-- What is past the first key is not found under it or before it. -/
theorem find_eq_none (h : ∀ a ∈ l, key < a.1) : find key l = none := by
  cases l with
  | nil => rfl
  | cons b l =>
    have hlt : key < b.1 := h b List.mem_cons_self
    rw [find, if_neg hlt.not_gt, if_neg hlt.ne']

theorem find_eq_some (h : Sorted l) : find key l = some val ↔ (key, val) ∈ l := by
  induction l with
  | nil => simp [find]
  | cons b l ih =>
    obtain ⟨j, v⟩ := b
    obtain ⟨hfirst, hrest⟩ := List.pairwise_cons.mp h
    rcases lt_trichotomy j key with hj | rfl | hj
    · rw [find, if_pos hj, ih hrest, List.mem_cons, Prod.mk.injEq]
      exact ⟨Or.inr, fun hm => hm.resolve_left fun he => hj.ne' he.1⟩
    · rw [find, if_neg (lt_irrefl j), if_pos rfl, Option.some.injEq, List.mem_cons, Prod.mk.injEq]
      refine ⟨fun he => Or.inl ⟨rfl, he.symm⟩, fun hm => ?_⟩
      rcases hm with he | hm
      · exact he.2.symm
      · exact absurd (hfirst _ hm) (lt_irrefl j)
    · have hpast : ∀ a ∈ (j, v) :: l, key < a.1 := by
        intro a ha
        rcases List.mem_cons.mp ha with rfl | ha
        · exact hj
        · exact hj.trans (hfirst a ha)
      rw [find_eq_none hpast]
      exact ⟨fun he => absurd he.symm (Option.some_ne_none _),
        fun hm => absurd (hpast (key, val) hm) (lt_irrefl key)⟩

theorem find_add (h : Sorted l) :
    find k (add key val l) = if k = key then some ((find key l).getD val) else find k l := by
  induction l with
  | nil =>
    by_cases hk : k = key
    · subst hk
      simp [add, find]
    · simp [add, find, hk, Ne.symm hk]
  | cons b l ih =>
    obtain ⟨j, v⟩ := b
    obtain ⟨hfirst, hrest⟩ := List.pairwise_cons.mp h
    rcases lt_trichotomy j key with hj | rfl | hj
    · -- the walk goes on
      rw [add, if_pos hj, find, ih hrest]
      by_cases hk : k = key
      · subst hk
        rw [if_pos hj, if_pos rfl, if_pos rfl, find, if_pos hj]
      · rw [if_neg hk, if_neg hk, find]
    · rw [add, if_neg (lt_irrefl j), if_pos rfl]
      by_cases hk : k = j
      · subst hk
        rw [if_pos rfl, find, if_neg (lt_irrefl k), if_pos rfl, Option.getD_some]
      · rw [if_neg hk]
    · rw [add, if_neg hj.not_gt, if_neg hj.ne']
      by_cases hk : k = key
      · subst hk
        have hnone : find k ((j, v) :: l) = none := by
          rw [find, if_neg hj.not_gt, if_neg hj.ne']
        rw [if_pos rfl, hnone, find, if_neg (lt_irrefl k), if_pos rfl, Option.getD_none]
      · rw [if_neg hk]
        by_cases hlt : key < k
        · rw [find, if_pos hlt]
        · have hkj : k < j := (lt_of_le_of_ne (not_lt.mp hlt) hk).trans hj
          rw [find, if_neg hlt, if_neg (Ne.symm hk), find, if_neg hkj.not_gt, if_neg hkj.ne']

theorem find_assign (h : Sorted l) :
    find k (assign key val l) = if k = key then (find key l).map fun _ => val else find k l := by
  induction l with
  | nil => simp [assign, find]
  | cons b l ih =>
    obtain ⟨j, v⟩ := b
    obtain ⟨hfirst, hrest⟩ := List.pairwise_cons.mp h
    rcases lt_trichotomy j key with hj | rfl | hj
    · rw [assign, if_pos hj, find, ih hrest]
      by_cases hk : k = key
      · subst hk
        rw [if_pos hj, if_pos rfl, if_pos rfl, find, if_pos hj]
      · rw [if_neg hk, if_neg hk, find]
    · rw [assign, if_neg (lt_irrefl j), if_pos rfl]
      by_cases hk : k = j
      · subst hk
        rw [if_pos rfl, find, find, if_neg (lt_irrefl k), if_neg (lt_irrefl k), if_pos rfl,
          if_pos rfl, Option.map_some]
      · rw [if_neg hk, find, find, if_neg (Ne.symm hk), if_neg (Ne.symm hk)]
    · rw [assign, if_neg hj.not_gt, if_neg hj.ne']
      by_cases hk : k = key
      · subst hk
        rw [if_pos rfl, find, if_neg hj.not_gt, if_neg hj.ne', Option.map_none]
      · rw [if_neg hk]

theorem find_erase (h : Sorted l) :
    find k (erase key l) = if k = key then none else find k l := by
  induction l with
  | nil => simp [erase, find]
  | cons b l ih =>
    obtain ⟨j, v⟩ := b
    obtain ⟨hfirst, hrest⟩ := List.pairwise_cons.mp h
    rcases lt_trichotomy j key with hj | rfl | hj
    · rw [erase, if_pos hj, find, ih hrest]
      by_cases hk : k = key
      · subst hk
        rw [if_pos hj, if_pos rfl, if_pos rfl]
      · rw [if_neg hk, if_neg hk, find]
    · rw [erase, if_neg (lt_irrefl j), if_pos rfl]
      by_cases hk : k = j
      · subst hk
        rw [if_pos rfl, find_eq_none hfirst]
      · rw [if_neg hk, find, if_neg (Ne.symm hk)]
        by_cases hlt : j < k
        · rw [if_pos hlt]
        · have hkj : k < j := lt_of_le_of_ne (not_lt.mp hlt) hk
          rw [if_neg hlt, find_eq_none fun a ha => hkj.trans (hfirst a ha)]
    · rw [erase, if_neg hj.not_gt, if_neg hj.ne']
      by_cases hk : k = key
      · subst hk
        rw [if_pos rfl, find, if_neg hj.not_gt, if_neg hj.ne']
      · rw [if_neg hk]

end ConcurrentComputing.SortedAssoc
