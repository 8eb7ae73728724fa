import Mathlib.Algebra.BigOperators.Group.Finset.Piecewise
import Mathlib.Algebra.Order.BigOperators.Group.Finset
import Mathlib.Data.Finset.Card
import Mathlib.Data.Set.Insert
import Mathlib.Logic.Function.Basic
import Mathlib.Tactic.Common

/-! # Entries placed in cells

A store of cells, each empty or holding one entry: `c : P → Option α`. Every
entry has home cells where it may sit (`Placed`), and no two cells hold entries
of one key (`Unique`). A store changes by writing a cell, emptying a cell, or
moving an entry into an empty home cell; the lemmas say what each of these keeps
and what it does to the set and the number of entries stored. -/

namespace ConcurrentComputing.Placement

open Function

variable {P α κ : Type*}

/-- The entries some cell holds. -/
def stored (c : P → Option α) : Set α := {a | ∃ p, c p = some a}

/-- Every entry sits in one of its home cells. -/
def Placed (home : α → P → Prop) (c : P → Option α) : Prop :=
  ∀ p a, c p = some a → home a p

/-- No two cells hold entries of the same key. -/
def Unique (key : α → κ) (c : P → Option α) : Prop :=
  ∀ p q a b, c p = some a → c q = some b → key a = key b → p = q

theorem mem_stored {c : P → Option α} {a : α} : a ∈ stored c ↔ ∃ p, c p = some a := Iff.rfl

variable [DecidableEq P] {home : α → P → Prop} {key : α → κ} {c : P → Option α}
  {p q : P} {a b : α}

theorem update_some_iff {o : Option α} :
    update c p o q = some b ↔ (q = p ∧ o = some b) ∨ (q ≠ p ∧ c q = some b) := by
  by_cases h : q = p
  · subst h; simp
  · simp [h]

/-! ## Writing and emptying a cell -/

theorem Placed.put (h : Placed home c) (ha : home a p) : Placed home (update c p (some a)) := by
  intro q b hb
  rcases update_some_iff.mp hb with ⟨rfl, he⟩ | ⟨_, hc⟩
  · cases he; exact ha
  · exact h q b hc

theorem Placed.erase (h : Placed home c) : Placed home (update c p none) := by
  intro q b hb
  rcases update_some_iff.mp hb with ⟨_, he⟩ | ⟨_, hc⟩
  · cases he
  · exact h q b hc

theorem Unique.put (h : Unique key c) (hk : ∀ q b, c q = some b → key b = key a → q = p) :
    Unique key (update c p (some a)) := by
  intro q r b d hb hd hkey
  rcases update_some_iff.mp hb with ⟨rfl, he⟩ | ⟨hq, hc⟩ <;>
    rcases update_some_iff.mp hd with ⟨rfl, he'⟩ | ⟨hr, hc'⟩
  · rfl
  · cases he; exact (hk r d hc' hkey.symm).symm
  · cases he'; exact hk q b hc hkey
  · exact h q r b d hc hc' hkey

theorem Unique.erase (h : Unique key c) : Unique key (update c p none) := by
  intro q r b d hb hd hkey
  rcases update_some_iff.mp hb with ⟨_, he⟩ | ⟨_, hc⟩
  · cases he
  rcases update_some_iff.mp hd with ⟨_, he'⟩ | ⟨_, hc'⟩
  · cases he'
  · exact h q r b d hc hc' hkey

theorem stored_put (hp : c p = none) : stored (update c p (some a)) = insert a (stored c) := by
  ext b
  simp only [mem_stored, Set.mem_insert_iff, update_some_iff]
  constructor
  · rintro ⟨q, ⟨_, he⟩ | ⟨_, hc⟩⟩
    · exact Or.inl (Option.some.inj he).symm
    · exact Or.inr ⟨q, hc⟩
  · rintro (rfl | ⟨q, hc⟩)
    · exact ⟨p, Or.inl ⟨rfl, rfl⟩⟩
    · have hq : q ≠ p := fun he => by rw [he, hp] at hc; cases hc
      exact ⟨q, Or.inr ⟨hq, hc⟩⟩

theorem stored_erase (h : Unique key c) (hp : c p = some a) :
    stored (update c p none) = stored c \ {a} := by
  ext b
  simp only [mem_stored, Set.mem_sdiff, Set.mem_singleton_iff, update_some_iff]
  constructor
  · rintro ⟨q, ⟨_, he⟩ | ⟨hq, hc⟩⟩
    · cases he
    · exact ⟨⟨q, hc⟩, fun hb => hq (h q p b a hc hp (congrArg key hb))⟩
  · rintro ⟨⟨q, hc⟩, hb⟩
    exact ⟨q, Or.inr ⟨fun hq => hb (by rw [hq, hp] at hc; exact (Option.some.inj hc).symm), hc⟩⟩

/-- Overwriting a cell replaces its entry. -/
theorem stored_replace (h : Unique key c) (hp : c p = some a) :
    stored (update c p (some b)) = insert b (stored c \ {a}) := by
  rw [← stored_erase h hp, ← stored_put (c := update c p none) (p := p) (by simp)]
  simp

/-! ## Moving an entry -/

/-- The entry of `src` goes to `dst`; `src` is left empty. -/
def move (c : P → Option α) (dst src : P) : P → Option α :=
  update (update c dst (c src)) src none

theorem Placed.move {dst src : P} (h : Placed home c) (hs : c src = some a)
    (ha : home a dst) : Placed home (move c dst src) := by
  unfold Placement.move
  rw [hs]
  exact (h.put ha).erase

theorem Unique.move {dst src : P} (h : Unique key c) (hs : c src = some a)
    (hd : c dst = none) : Unique key (move c dst src) := by
  have hne : dst ≠ src := fun he => by rw [he, hs] at hd; cases hd
  unfold Placement.move
  rw [update_comm hne, hs]
  apply h.erase.put
  intro q b hb hkey
  rcases update_some_iff.mp hb with ⟨_, he⟩ | ⟨hq, hc⟩
  · cases he
  · exact absurd (h q src b a hc hs hkey) hq

theorem stored_move {dst src : P} (hs : c src = some a) (hd : c dst = none) :
    stored (move c dst src) = stored c := by
  have hne : dst ≠ src := fun he => by rw [he, hs] at hd; cases hd
  ext b
  simp only [mem_stored, Placement.move, update_some_iff, hs]
  constructor
  · rintro ⟨q, ⟨_, he⟩ | ⟨hq, ⟨_, he⟩ | ⟨_, hc⟩⟩⟩
    · cases he
    · exact ⟨src, hs.trans he⟩
    · exact ⟨q, hc⟩
  · rintro ⟨q, hc⟩
    by_cases hq : q = src
    · subst hq
      exact ⟨dst, Or.inr ⟨hne, Or.inl ⟨rfl, hs.symm.trans hc⟩⟩⟩
    · refine ⟨q, Or.inr ⟨hq, Or.inr ⟨fun he => ?_, hc⟩⟩⟩
      rw [he, hd] at hc; cases hc

/-- A finite series of moves, each of an entry to an empty home cell. -/
inductive Moves (home : α → P → Prop) : (P → Option α) → (P → Option α) → Prop
  | refl (c : P → Option α) : Moves home c c
  | tail {c d : P → Option α} {dst src : P} {a : α} : Moves home c d → d src = some a →
      d dst = none → home a dst → Moves home c (move d dst src)

theorem Moves.head {dst src : P} {d : P → Option α} (hs : c src = some a) (hd : c dst = none)
    (ha : home a dst) (h : Moves home (move c dst src) d) : Moves home c d := by
  induction h with
  | refl => exact .tail (.refl c) hs hd ha
  | tail _ hs' hd' ha' ih => exact .tail ih hs' hd' ha'

theorem Moves.trans {d e : P → Option α} (h : Moves home c d) (h' : Moves home d e) :
    Moves home c e := by
  induction h' with
  | refl => exact h
  | tail _ hs hd ha ih => exact .tail ih hs hd ha

theorem Moves.placed {d : P → Option α} (h : Moves home c d) (hp : Placed home c) :
    Placed home d := by
  induction h with
  | refl => exact hp
  | tail _ hs _ ha ih => exact ih.move hs ha

theorem Moves.unique {d : P → Option α} (h : Moves home c d) (hu : Unique key c) :
    Unique key d := by
  induction h with
  | refl => exact hu
  | tail _ hs hd _ ih => exact ih.move hs hd

theorem Moves.stored_eq {d : P → Option α} (h : Moves home c d) : stored d = stored c := by
  induction h with
  | refl => rfl
  | tail _ hs hd _ ih => rw [stored_move hs hd, ih]

/-! ## Counting entries -/

/-- How many of the cells hold an entry that `f` accepts. -/
def tally (cells : Finset P) (f : α → Bool) (c : P → Option α) : Nat :=
  (cells.filter fun p => (c p).any f).card

variable {cells : Finset P} {f : α → Bool}

omit [DecidableEq P] in
theorem tally_eq_sum : tally cells f c = ∑ p ∈ cells, ((c p).any f).toNat := by
  unfold tally
  rw [Finset.card_filter]
  apply Finset.sum_congr rfl
  intro p _
  cases (c p).any f <;> rfl

/-- A counting loop over `0, …, n - 1`. -/
theorem foldl_add_eq_sum (f : Nat → Nat) (n acc : Nat) :
    (List.range n).foldl (fun s i => s + f i) acc = acc + ∑ i ∈ Finset.range n, f i := by
  induction n generalizing acc with
  | zero => simp
  | succ n ih =>
    rw [List.range_succ, List.foldl_append, ih, Finset.sum_range_succ]
    simp [Nat.add_assoc]

theorem tally_put (hm : p ∈ cells) (hp : c p = none) :
    tally cells f (update c p (some a)) = tally cells f c + (f a).toNat := by
  unfold tally
  cases hf : f a with
  | false =>
    congr 1
    apply Finset.filter_congr
    intro q _
    by_cases hq : q = p
    · subst hq; simp [hp, hf]
    · simp [hq]
  | true =>
    have : cells.filter (fun q => ((update c p (some a)) q).any f) =
        insert p (cells.filter fun q => (c q).any f) := by
      ext q
      by_cases hq : q = p
      · subst hq; simp [hf, hm]
      · simp [hq]
    rw [this, Finset.card_insert_of_notMem (by simp [hp])]
    simp

theorem tally_erase (hm : p ∈ cells) (hp : c p = some a) :
    tally cells f (update c p none) + (f a).toNat = tally cells f c := by
  have h := tally_put (c := update c p none) (a := a) (f := f) hm (by simp)
  rw [update_idem, ← hp, update_eq_self] at h
  exact h.symm

theorem tally_move {dst src : P} (hdm : dst ∈ cells) (hsm : src ∈ cells) (hs : c src = some a)
    (hd : c dst = none) : tally cells f (move c dst src) = tally cells f c := by
  have hne : dst ≠ src := fun he => by rw [he, hs] at hd; cases hd
  have hput := tally_put (f := f) (a := a) hdm hd
  have herase := tally_erase (f := f) (c := update c dst (some a)) (a := a) hsm
    (by rw [update_of_ne (Ne.symm hne), hs])
  unfold move
  rw [hs]
  omega

theorem Moves.tally_eq {d : P → Option α} (h : Moves home c d)
    (hcells : ∀ e : P → Option α, Placed home e → ∀ p a, e p = some a → p ∈ cells)
    (hhome : ∀ a p, home a p → p ∈ cells) (hp : Placed home c) :
    tally cells f d = tally cells f c := by
  induction h with
  | refl => rfl
  | tail hm hs hd ha ih =>
    rw [tally_move (hhome _ _ ha) (hcells _ (hm.placed hp) _ _ hs) hs hd, ih]

omit [DecidableEq P] in
/-- With unique keys, counting the occupied cells counts the keys. -/
theorem tally_eq_card (hu : Unique key c)
    (hcells : ∀ p a, c p = some a → p ∈ cells) (S : Finset κ)
    (hS : ∀ k, k ∈ S ↔ ∃ a ∈ stored c, key a = k) :
    tally cells (fun _ => true) c = S.card := by
  have hsome : ∀ p, p ∈ cells.filter (fun p => (c p).any fun _ => true) →
      ∃ a, c p = some a := by
    intro p hp
    cases h : c p with
    | none => simp [h] at hp
    | some a => exact ⟨a, rfl⟩
  apply Finset.card_bij (fun p hp => key (Classical.choose (hsome p hp)))
  · intro p hp
    exact (hS _).mpr ⟨_, ⟨p, Classical.choose_spec (hsome p hp)⟩, rfl⟩
  · intro p hp q hq he
    exact hu p q _ _ (Classical.choose_spec (hsome p hp)) (Classical.choose_spec (hsome q hq)) he
  · intro k hk
    obtain ⟨a, ⟨p, hp⟩, rfl⟩ := (hS k).mp hk
    have hmem : p ∈ cells.filter (fun p => (c p).any fun _ => true) := by
      simp [hcells p a hp, hp]
    have hspec := Classical.choose_spec (hsome p hmem)
    exact ⟨p, hmem, congrArg key (Option.some.inj (hspec.symm.trans hp))⟩

end ConcurrentComputing.Placement
