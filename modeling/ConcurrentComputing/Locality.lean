import ConcurrentComputing.Timeline
import Mathlib.Data.Nat.Nth

/-! # Objects side by side

A run that moves one of several objects at each step. An object has a clock of its
own, which counts the steps that move it; the instant of such a step is told from what
the clock shows. So timelines of the objects make one timeline of them all. -/

namespace ConcurrentComputing.Sequential

variable {κ ο ο' : Type*} [DecidableEq κ] {β : Nat → κ} {b b' : κ} {n n' t now : Nat}

/-- What the clock of an object shows at an instant, where `β` are the objects moved. -/
def ticks (β : Nat → κ) (b : κ) (n : Nat) : Nat := Nat.count (fun k => β k = b) n

theorem ticks_succ_self (β : Nat → κ) (n : Nat) :
    ticks β (β n) (n + 1) = ticks β (β n) n + 1 := by
  rw [ticks, Nat.count_succ, if_pos rfl]
  rfl

theorem ticks_succ_of_ne (h : β n ≠ b) : ticks β b (n + 1) = ticks β b n := by
  rw [ticks, Nat.count_succ, if_neg h]
  rfl

theorem lt_of_ticks_lt (h : ticks β b n < ticks β b n') : n < n' :=
  Nat.lt_of_count_lt_count h

theorem ticks_lt (hn : β n = b) (h : n < n') : ticks β b n < ticks β b n' :=
  Nat.count_strict_mono hn h

/-- An instant that is not past by the clock is not past. -/
theorem le_of_ticks_le (hn : β n = b) (h : ticks β b n' ≤ ticks β b n) : n' ≤ n := by
  by_contra hlt
  exact absurd (ticks_lt hn (not_le.mp hlt)) (not_lt.mpr h)

/-- The step that a clock has counted. -/
theorem exists_tick (h : t < ticks β b now) : ∃ n < now, β n = b ∧ ticks β b n = t := by
  induction now with
  | zero => cases h
  | succ n ih =>
    by_cases hn : β n = b
    · subst hn
      rw [ticks_succ_self] at h
      rcases Nat.lt_or_eq_of_le (Nat.lt_succ_iff.mp h) with hlt | he
      · obtain ⟨k, hk, hrest⟩ := ih hlt
        exact ⟨k, hk.trans (Nat.lt_succ_self n), hrest⟩
      · exact ⟨n, Nat.lt_succ_self n, rfl, he.symm⟩
    · rw [ticks_succ_of_ne hn] at h
      obtain ⟨k, hk, hrest⟩ := ih h
      exact ⟨k, hk.trans (Nat.lt_succ_self n), hrest⟩

/-- The logs of the objects as one, under the names `f` that the operations have in it. -/
def interleave (β : Nat → κ) (f : κ → ο → ο') (logs : κ → List (Nat × ο)) (now : Nat) :
    List (Nat × ο') :=
  (List.range now).flatMap fun n =>
    ((during (logs (β n)) (ticks β (β n) n) (ticks β (β n) n + 1)).map (f (β n))).map (Prod.mk n)

variable {f : κ → ο → ο'} {logs : κ → List (Nat × ο)}

theorem mem_during_self {log : List (Nat × ο)} {o : ο} :
    o ∈ during log t (t + 1) ↔ (t, o) ∈ log := by
  unfold during
  rw [List.mem_map]
  constructor
  · rintro ⟨⟨u, o⟩, hmem, rfl⟩
    obtain ⟨hmem, hu⟩ := List.mem_filter.mp hmem
    have hu := of_decide_eq_true hu
    obtain rfl : t = u := Nat.le_antisymm hu.1 (Nat.lt_succ_iff.mp hu.2)
    exact hmem
  · intro hmem
    exact ⟨_, List.mem_filter.mpr ⟨hmem, decide_eq_true ⟨le_rfl, Nat.lt_succ_self t⟩⟩, rfl⟩

theorem mem_interleave {a : Nat × ο'} : a ∈ interleave β f logs now ↔
    a.1 < now ∧ ∃ o, (ticks β (β a.1) a.1, o) ∈ logs (β a.1) ∧ f (β a.1) o = a.2 := by
  obtain ⟨n, o'⟩ := a
  simp only [interleave, List.mem_flatMap, List.mem_range, List.mem_map, mem_during_self]
  constructor
  · rintro ⟨_, hn, _, ⟨o, ho, rfl⟩, he⟩
    obtain ⟨rfl, rfl⟩ := Prod.mk.inj he
    exact ⟨hn, o, ho, rfl⟩
  · rintro ⟨hn, o, ho, rfl⟩
    exact ⟨n, hn, _, ⟨o, ho, rfl⟩, rfl⟩

/-- **Locality.** Each operation is put at the step that its object's clock has counted,
where `put n` makes of the moved object's state that of them all. -/
theorem interleave_timeline {σ σ' : Type*} {spec : σ → ο → σ → Prop} {spec' : σ' → ο' → σ' → Prop}
    {abs : κ → Nat → σ} {abs' : Nat → σ'} (put : Nat → σ → σ')
    (h : ∀ b, Timeline spec (abs b) (ticks β b now) (logs b))
    (hspec : ∀ n < now, ∀ a ∈ logs (β n), ∀ x y, spec x a.2 y →
      spec' (put n x) (f (β n) a.2) (put n y))
    (hbefore : ∀ n < now, put n (abs (β n) (ticks β (β n) n)) = abs' n)
    (hafter : ∀ n < now, put n (abs (β n) (ticks β (β n) n + 1)) = abs' (n + 1)) :
    Timeline spec' abs' now (interleave β f logs now) := by
  refine timeline_flatMap _ fun n hn => ?_
  rw [← hbefore n hn, ← hafter n hn]
  refine ((h (β n)).plays _ _ (Nat.le_succ _) (ticks_lt rfl hn)).map fun o ho x y hxy => ?_
  exact hspec n hn _ (mem_during_self.mp ho) x y hxy

/-- Nothing is put twice. -/
theorem interleave_nodup {K : Type*} (key : ο' → K)
    (h : ∀ b, ((logs b).map fun a => key (f b a.2)).Nodup)
    (hne : ∀ b b', b ≠ b' → ∀ a ∈ logs b, ∀ a' ∈ logs b', key (f b a.2) ≠ key (f b' a'.2)) :
    ((interleave β f logs now).map fun a => key a.2).Nodup := by
  unfold interleave
  rw [List.map_flatMap, List.nodup_flatMap]
  constructor
  · intro n _
    rw [List.map_map, List.map_map, during, List.map_map]
    exact (h (β n)).sublist (List.filter_sublist.map _)
  · refine (List.nodup_range).pairwise_of_forall_ne fun n _ n' _ hnn => ?_
    intro k hk hk'
    simp only [List.map_map, List.mem_map, mem_during_self, Function.comp_apply] at hk hk'
    obtain ⟨o, ho, rfl⟩ := hk
    obtain ⟨o', ho', hkey⟩ := hk'
    by_cases hb : β n = β n'
    · rw [← hb] at ho' hkey
      obtain ⟨ht, -⟩ := Prod.mk.inj (List.inj_on_of_nodup_map (h (β n)) ho' ho hkey)
      exact hnn (Nat.count_injective (p := fun k => β k = β n) rfl hb.symm ht.symm)
    · exact hne _ _ hb _ ho _ ho' hkey.symm

end ConcurrentComputing.Sequential
