import Mathlib.Data.Finset.Card
import Mathlib.Logic.Relation
import Mathlib.Order.Lattice
import Mathlib.Logic.Function.Basic

/-! # Sorted chains of cells

Cells that each point at most to one other, with keys that grow along the
pointers: what is reached from a root is a sorted chain. Pointing past a cell
takes it out of the chain, and nothing else; pointing to a cell that points to the
old target puts it in. -/

namespace ConcurrentComputing.SortedChain

open Function

variable {α K : Type*} [LinearOrder K] {next : α → Option α} {key : α → K} {root a b c n : α}

/-- `b` is reached from `a` along the pointers. -/
def Reaches (next : α → Option α) : α → α → Prop := Relation.ReflTransGen fun a b => next a = some b

/-- Keys grow along the pointers. -/
def Ascending (next : α → Option α) (key : α → K) : Prop := ∀ a b, next a = some b → key a < key b

theorem Reaches.refl : Reaches next a a := Relation.ReflTransGen.refl

theorem Reaches.step (h : Reaches next a b) (hb : next b = some c) : Reaches next a c :=
  Relation.ReflTransGen.tail h hb

theorem Ascending.eq_or_lt (h : Ascending next key) (hab : Reaches next a b) :
    a = b ∨ key a < key b := by
  induction hab with
  | refl => exact Or.inl rfl
  | tail _ hbc ih =>
    rcases ih with rfl | hlt
    · exact Or.inr (h _ _ hbc)
    · exact Or.inr (hlt.trans (h _ _ hbc))

theorem Ascending.le (h : Ascending next key) (hab : Reaches next a b) : key a ≤ key b := by
  rcases h.eq_or_lt hab with rfl | hlt
  · exact le_rfl
  · exact hlt.le

theorem Reaches.total (ha : Reaches next root a) (hb : Reaches next root b) :
    Reaches next a b ∨ Reaches next b a :=
  Relation.ReflTransGen.total_of_right_unique
    (fun _ _ _ h₁ h₂ => Option.some.inj (h₁.symm.trans h₂)) ha hb

/-- Two cells of the chain with one key are one cell. -/
theorem Ascending.key_inj (h : Ascending next key) (ha : Reaches next root a)
    (hb : Reaches next root b) (hk : key a = key b) : a = b := by
  rcases ha.total hb with hab | hba
  · exact (h.eq_or_lt hab).resolve_right hk.not_lt
  · exact ((h.eq_or_lt hba).resolve_right hk.symm.not_lt).symm

/-- No cell of the chain lies between two neighbours. -/
theorem Ascending.gap (h : Ascending next key) (ha : Reaches next root a) (hab : next a = some b)
    (hc : Reaches next root c) : key c ≤ key a ∨ key b ≤ key c := by
  rcases ha.total hc with hac | hca
  · rcases Relation.ReflTransGen.cases_head hac with rfl | ⟨d, hd, hdc⟩
    · exact Or.inl le_rfl
    · rw [hab] at hd
      cases hd
      exact Or.inr (h.le hdc)
  · exact Or.inl (h.le hca)

variable [DecidableEq α]

/-- Changing a pointer leaves the chain up to that cell. -/
theorem Ascending.reaches_update (h : Ascending next key) (x : Option α)
    (hc : Reaches next root c) (hk : key c ≤ key a) : Reaches (update next a x) root c := by
  induction hc with
  | refl => exact .refl
  | @tail d e _ hde ih =>
    have hlt := h _ _ hde
    refine (ih (hlt.le.trans hk)).step ?_
    rw [update_of_ne, hde]
    rintro rfl
    exact absurd hk hlt.not_ge

/-- Changing the pointer of a cell that is not in the chain changes nothing. -/
theorem reaches_update_iff (ha : ¬ Reaches next root a) (x : Option α) :
    Reaches (update next a x) root c ↔ Reaches next root c := by
  refine ⟨fun hc => ?_, fun hc => ?_⟩
  · induction hc with
    | refl => exact .refl
    | @tail d e _ hde ih =>
      refine ih.step ?_
      rwa [update_of_ne] at hde
      rintro rfl
      exact ha ih
  · induction hc with
    | refl => exact .refl
    | @tail d e hd hde ih =>
      refine ih.step ?_
      rwa [update_of_ne]
      rintro rfl
      exact ha hd

/-- Pointing past a cell loses no other. -/
theorem Ascending.reaches_skip (h : Ascending next key) (ha : Reaches next root a)
    (hab : next a = some b) (hc : Reaches next root c) :
    Reaches (update next a (next b)) root c ∨ c = b := by
  induction hc with
  | refl => exact Or.inl .refl
  | @tail d e _ hde ih =>
    by_cases hda : d = a
    · subst hda
      rw [hab] at hde
      exact Or.inr (Option.some.inj hde).symm
    · rcases ih with hd | rfl
      · exact Or.inl (hd.step (by rw [update_of_ne hda, hde]))
      · exact Or.inl ((h.reaches_update _ ha le_rfl).step (by rw [update_self, hde]))

omit [LinearOrder K] in
theorem Reaches.of_skip (hab : next a = some b) (hc : Reaches (update next a (next b)) root c) :
    Reaches next root c := by
  induction hc with
  | refl => exact .refl
  | @tail d e _ hde ih =>
    by_cases hda : d = a
    · subst hda
      rw [update_self] at hde
      exact (ih.step hab).step hde
    · rw [update_of_ne hda] at hde
      exact ih.step hde

/-- Pointing to a cell that points to the old target loses none. -/
theorem Ascending.reaches_insert (h : Ascending next key) (ha : Reaches next root a)
    (hab : next a = some b) (hn : n ≠ a) (hnb : next n = some b) (hc : Reaches next root c) :
    Reaches (update next a (some n)) root c := by
  have hn' : Reaches (update next a (some n)) root n :=
    (h.reaches_update _ ha le_rfl).step (update_self _ _ _)
  induction hc with
  | refl => exact .refl
  | @tail d e _ hde ih =>
    by_cases hda : d = a
    · subst hda
      rw [hab] at hde
      cases hde
      exact hn'.step (by rw [update_of_ne hn, hnb])
    · exact ih.step (by rw [update_of_ne hda, hde])

theorem Ascending.reaches_inserted (h : Ascending next key) (ha : Reaches next root a) :
    Reaches (update next a (some n)) root n :=
  (h.reaches_update _ ha le_rfl).step (update_self _ _ _)

omit [LinearOrder K] in
theorem Reaches.of_insert (hab : next a = some b) (hn : n ≠ a) (hnb : next n = some b)
    (ha : Reaches next root a) (hc : Reaches (update next a (some n)) root c) :
    Reaches next root c ∨ c = n := by
  induction hc with
  | refl => exact Or.inl .refl
  | @tail d e _ hde ih =>
    by_cases hda : d = a
    · subst hda
      rw [update_self] at hde
      exact Or.inr (Option.some.inj hde).symm
    · rw [update_of_ne hda] at hde
      rcases ih with hd | rfl
      · exact Or.inl (hd.step hde)
      · rw [hnb] at hde
        cases hde
        exact Or.inl (ha.step hab)

/-! ## Cells in a row -/

/-- From `a` the pointers lead through the cells of a list to `b`. -/
def Linked (next : α → Option α) : α → List α → α → Prop
  | a, [], b => next a = some b
  | a, c :: l, b => next a = some c ∧ Linked next c l b

variable {l l' : List α} {next' : α → Option α}

omit [LinearOrder K] [DecidableEq α] in
theorem linked_append : Linked next a (l ++ c :: l') b ↔ Linked next a l c ∧ Linked next c l' b := by
  induction l generalizing a with
  | nil => rfl
  | cons d l ih => simp only [List.cons_append, Linked, ih, and_assoc]

omit [DecidableEq α] in
/-- The last cell before `b` points to it. -/
theorem Linked.last (h : Linked next a l b) : next (l.getLastD a) = some b := by
  induction l generalizing a with
  | nil => exact h
  | cons c l ih =>
    rw [List.getLastD_cons]
    exact ih h.2

omit [DecidableEq α] in
theorem Linked.congr (h : Linked next a l b) (hsame : ∀ c ∈ a :: l, next' c = next c) :
    Linked next' a l b := by
  induction l generalizing a with
  | nil => exact (hsame a List.mem_cons_self).trans h
  | cons c l ih =>
    exact ⟨(hsame a List.mem_cons_self).trans h.1, ih h.2 fun d hd =>
      hsame d (List.mem_cons_of_mem _ hd)⟩

/-- Only the pointer to `b` changes. -/
theorem Linked.redirect (h : Linked next a l b) (hnd : (a :: l).Nodup) :
    Linked (update next (l.getLastD a) (some c)) a l c := by
  induction l generalizing a with
  | nil => exact update_self _ _ _
  | cons d l ih =>
    obtain ⟨hda, hnd⟩ := List.nodup_cons.mp hnd
    rw [List.getLastD_cons]
    refine ⟨?_, ih h.2 hnd⟩
    rw [update_of_ne, h.1]
    rintro rfl
    exact hda List.getLastD_mem_cons

omit [LinearOrder K] [DecidableEq α] in
theorem Linked.reaches (h : Linked next a l b) : ∀ c ∈ a :: (l ++ [b]), Reaches next a c := by
  induction l generalizing a with
  | nil =>
    intro c hc
    rcases List.mem_pair.mp hc with rfl | rfl
    · exact .refl
    · exact Reaches.refl.step h
  | cons d l ih =>
    intro c hc
    rcases List.mem_cons.mp hc with rfl | hc
    · exact .refl
    · exact .head h.1 (ih h.2 c hc)

omit [LinearOrder K] [DecidableEq α] in
/-- All that is reached is in the row to the last cell. -/
theorem Linked.mem (h : Linked next a l b) (hb : next b = none) (hc : Reaches next a c) :
    c ∈ a :: (l ++ [b]) := by
  induction l generalizing a with
  | nil =>
    rcases Relation.ReflTransGen.cases_head hc with rfl | ⟨d, hd, hdc⟩
    · exact List.mem_cons_self
    · obtain rfl := Option.some.inj (hd.symm.trans h)
      rcases Relation.ReflTransGen.cases_head hdc with rfl | ⟨e, he, -⟩
      · exact List.mem_cons_of_mem _ List.mem_cons_self
      · rw [hb] at he
        cases he
  | cons d l ih =>
    rcases Relation.ReflTransGen.cases_head hc with rfl | ⟨e, he, hec⟩
    · exact List.mem_cons_self
    · obtain rfl := Option.some.inj (he.symm.trans h.1)
      exact List.mem_cons_of_mem _ (ih h.2 hec)

omit [DecidableEq α] in
theorem Ascending.pairwise (h : Ascending next key) (hl : Linked next a l b) :
    (a :: (l ++ [b])).Pairwise fun c d => key c < key d := by
  induction l generalizing a with
  | nil => exact List.pairwise_pair.mpr (h _ _ hl)
  | cons d l ih =>
    refine List.pairwise_cons.mpr ⟨fun c hc => ?_, ih hl.2⟩
    exact (h _ _ hl.1).trans_le (h.le (hl.2.reaches c hc))

/-- How many cells have a greater key. -/
def above (s : Finset α) (key : α → K) (a : α) : Nat := (s.filter fun c => key a < key c).card

omit [DecidableEq α] in
theorem above_le (s : Finset α) (key : α → K) (a : α) : above s key a ≤ s.card :=
  Finset.card_filter_le _ _

omit [DecidableEq α] in
theorem Ascending.above_lt (h : Ascending next key) (hab : next a = some b) {s : Finset α}
    (hb : b ∈ s) : above s key b < above s key a := by
  refine Finset.card_lt_card (Finset.ssubset_iff_subset_ne.mpr ⟨fun d hd => ?_, fun he => ?_⟩)
  · obtain ⟨hd, hlt⟩ := Finset.mem_filter.mp hd
    exact Finset.mem_filter.mpr ⟨hd, (h _ _ hab).trans hlt⟩
  · have hmem : b ∈ s.filter fun c => key a < key c := Finset.mem_filter.mpr ⟨hb, h _ _ hab⟩
    rw [← he] at hmem
    exact lt_irrefl _ (Finset.mem_filter.mp hmem).2

omit [DecidableEq α] in
/-- Where only finitely many cells are pointed to, a row comes to an end. -/
theorem Ascending.exists_linked (h : Ascending next key) (s : Finset α)
    (hs : ∀ a b, next a = some b → b ∈ s) (hab : next a = some b) :
    ∃ l c, Linked next a l c ∧ next c = none := by
  induction hn : above s key a using Nat.strong_induction_on generalizing a b with
  | _ n ih =>
    rcases hb : next b with _ | c
    · exact ⟨[], b, hab, hb⟩
    · obtain ⟨l, d, hl, hd⟩ := ih _ (hn ▸ h.above_lt hab (hs _ _ hab)) hb rfl
      exact ⟨b :: l, d, ⟨hab, hl⟩, hd⟩

/-- A cell that is pointed past is out of the chain. -/
theorem Ascending.not_reaches_skip (h : Ascending next key) (ha : Reaches next root a)
    (hab : next a = some b) : ¬ Reaches (update next a (next b)) root b := by
  intro hb
  have hasc : Ascending (update next a (next b)) key := by
    intro c d hcd
    rw [update_apply] at hcd
    split at hcd
    · rename_i he
      exact he ▸ (h _ _ hab).trans (h _ _ hcd)
    · exact h _ _ hcd
  have hlt := h _ _ hab
  rcases (h.reaches_update _ ha le_rfl).total hb with hab' | hba
  · rcases Relation.ReflTransGen.cases_head hab' with rfl | ⟨c, hc, hcb⟩
    · exact lt_irrefl _ hlt
    · rw [update_self] at hc
      exact absurd (hasc.le hcb) (h _ _ hc).not_ge
  · exact absurd (hasc.le hba) hlt.not_ge

omit [DecidableEq α] in
/-- A sorted row falls into what is below a key and what is not. -/
theorem exists_split (h : l.Pairwise fun a b => key a < key b) (k : K) :
    ∃ l₁ l₂, l = l₁ ++ l₂ ∧ (∀ a ∈ l₁, key a < k) ∧ ∀ a ∈ l₂, k ≤ key a := by
  induction l with
  | nil => exact ⟨[], [], rfl, nofun, nofun⟩
  | cons a l ih =>
    obtain ⟨ha, hl⟩ := List.pairwise_cons.mp h
    rcases lt_or_ge (key a) k with hlt | hge
    · obtain ⟨l₁, l₂, rfl, h₁, h₂⟩ := ih hl
      refine ⟨a :: l₁, l₂, rfl, fun b hb => ?_, h₂⟩
      rcases List.mem_cons.mp hb with rfl | hb
      · exact hlt
      · exact h₁ b hb
    · refine ⟨[], a :: l, rfl, nofun, fun b hb => ?_⟩
      rcases List.mem_cons.mp hb with rfl | hb
      · exact hge
      · exact hge.trans (ha b hb).le

end ConcurrentComputing.SortedChain
