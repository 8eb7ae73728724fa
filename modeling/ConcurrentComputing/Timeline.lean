import Mathlib.Data.List.Basic
import Mathlib.Logic.Function.Basic
import Mathlib.Order.Nat
import Mathlib.Tactic.Common

/-! # Operations in the order of their instants

An object is given by what its operations do to its states, answers included. A
timeline puts operations on a shared object at instants of a run, so that between
any two instants the operations placed there take the object from its state at the
one to its state at the other. It grows with the run; an operation that leaves the
object as it is may be placed at any instant of the past. -/

namespace ConcurrentComputing.Sequential

variable {σ ο : Type*} {spec : σ → ο → σ → Prop}

/-- The operations, one after the other, lead from one state to another. -/
inductive Plays (spec : σ → ο → σ → Prop) : σ → List ο → σ → Prop
  | nil (x : σ) : Plays spec x [] x
  | cons {x y z : σ} {o : ο} {os : List ο} (h : spec x o y) (hs : Plays spec y os z) :
    Plays spec x (o :: os) z

theorem Plays.append {x y z : σ} {os ps : List ο} (h : Plays spec x os y)
    (hs : Plays spec y ps z) : Plays spec x (os ++ ps) z := by
  induction h with
  | nil => exact hs
  | cons ho _ ih => exact .cons ho (ih hs)

theorem Plays.snoc {x y z : σ} {os : List ο} {o : ο} (h : Plays spec x os y) (ho : spec y o z) :
    Plays spec x (os ++ [o]) z :=
  h.append (.cons ho (.nil z))

theorem Plays.map {σ' ο' : Type*} {spec' : σ' → ο' → σ' → Prop} {f : ο → ο'} {g : σ → σ'}
    {x y : σ} {os : List ο} (hs : Plays spec x os y)
    (h : ∀ o ∈ os, ∀ x y, spec x o y → spec' (g x) (f o) (g y)) :
    Plays spec' (g x) (os.map f) (g y) := by
  induction hs with
  | nil => exact .nil _
  | cons ho _ ih =>
    exact .cons (h _ List.mem_cons_self _ _ ho) (ih fun o ho => h o (List.mem_cons_of_mem _ ho))

/-- The operations placed from one instant up to another. -/
def during (log : List (Nat × ο)) (t t' : Nat) : List ο :=
  (log.filter fun a => decide (t ≤ a.1 ∧ a.1 < t')).map Prod.snd

/-- A log of operations with their instants, over the states `abs t` the object
goes through up to `now`. -/
structure Timeline (spec : σ → ο → σ → Prop) (abs : Nat → σ) (now : Nat) (log : List (Nat × ο)) :
    Prop where
  sorted : log.Pairwise fun a b => a.1 ≤ b.1
  past : ∀ a ∈ log, a.1 < now
  plays : ∀ t t', t ≤ t' → t' ≤ now → Plays spec (abs t) (during log t t') (abs t')

variable {abs abs' : Nat → σ} {now t : Nat} {log : List (Nat × ο)} {o : ο}

theorem Timeline.zero : Timeline spec abs 0 [] where
  sorted := .nil
  past := nofun
  plays t t' h h' := by
    obtain rfl : t' = 0 := Nat.le_zero.mp h'
    obtain rfl : t = 0 := Nat.le_zero.mp h
    exact .nil _

theorem Timeline.congr (h : Timeline spec abs now log) (habs : ∀ t ≤ now, abs' t = abs t) :
    Timeline spec abs' now log where
  sorted := h.sorted
  past := h.past
  plays t t' ht ht' := by
    rw [habs t (ht.trans ht'), habs t' ht']
    exact h.plays t t' ht ht'

theorem during_append (log₁ log₂ : List (Nat × ο)) (t t' : Nat) :
    during (log₁ ++ log₂) t t' = during log₁ t t' ++ during log₂ t t' := by
  simp [during]

theorem during_self (log : List (Nat × ο)) (t : Nat) : during log t t = [] := by
  simp [during]

/-- Nothing lies beyond the last instant. -/
theorem during_past (h : ∀ a ∈ log, a.1 < now) : during log t (now + 1) = during log t now := by
  have hsame : log.filter (fun a => decide (t ≤ a.1 ∧ a.1 < now + 1)) =
      log.filter fun a => decide (t ≤ a.1 ∧ a.1 < now) := by
    refine List.filter_congr fun a ha => ?_
    have hlt := h a ha
    simp only [decide_eq_decide]
    omega
  rw [during, during, hsame]

/-- A step that is some operations, one after the other. -/
theorem Timeline.acts {os : List ο} (h : Timeline spec abs now log)
    (ho : Plays spec (abs now) os (abs (now + 1))) :
    Timeline spec abs (now + 1) (log ++ os.map (Prod.mk now)) where
  sorted := by
    rw [List.pairwise_append, List.pairwise_map]
    refine ⟨h.sorted, List.pairwise_of_forall fun _ _ => le_rfl, fun a ha b hb => ?_⟩
    obtain ⟨o, -, rfl⟩ := List.mem_map.mp hb
    exact (h.past a ha).le
  past a ha := by
    rcases List.mem_append.mp ha with ha | ha
    · exact (h.past a ha).trans (Nat.lt_succ_self _)
    · obtain ⟨o, -, rfl⟩ := List.mem_map.mp ha
      exact Nat.lt_succ_self _
  plays t t' ht ht' := by
    rw [during_append]
    rcases Nat.lt_or_eq_of_le ht' with hlt | rfl
    · have hnone : during (os.map (Prod.mk now)) t t' = [] := by
        rw [during, List.map_eq_nil_iff, List.filter_eq_nil_iff]
        intro a ha
        obtain ⟨o, -, rfl⟩ := List.mem_map.mp ha
        simpa using fun _ => Nat.lt_succ_iff.mp hlt
      rw [hnone, List.append_nil]
      exact h.plays t t' ht (Nat.lt_succ_iff.mp hlt)
    · rcases Nat.lt_or_eq_of_le ht with hlt | rfl
      · have hall : during (os.map (Prod.mk now)) t (now + 1) = os := by
          simp [during, List.filter_map, Function.comp_def, Nat.lt_succ_iff.mp hlt]
        rw [hall, during_past h.past]
        exact (h.plays t now (Nat.lt_succ_iff.mp hlt) le_rfl).append ho
      · rw [← during_append, during_self]
        exact .nil _

/-- A step that does nothing to the object. -/
theorem Timeline.idle (h : Timeline spec abs now log) (hsame : abs (now + 1) = abs now) :
    Timeline spec abs (now + 1) log := by
  have hacts : Timeline spec abs (now + 1) (log ++ [].map (Prod.mk now)) :=
    h.acts (hsame ▸ .nil _)
  rwa [List.map_nil, List.append_nil] at hacts

/-- A step that is an operation. -/
theorem Timeline.act (h : Timeline spec abs now log) (ho : spec (abs now) o (abs (now + 1))) :
    Timeline spec abs (now + 1) (log ++ [(now, o)]) :=
  h.acts (.cons ho (.nil _))

/-- What happens at the instants, one after the other. -/
theorem timeline_flatMap (f : Nat → List ο)
    (h : ∀ n < now, Plays spec (abs n) (f n) (abs (n + 1))) :
    Timeline spec abs now ((List.range now).flatMap fun n => (f n).map (Prod.mk n)) := by
  induction now with
  | zero => exact .zero
  | succ n ih =>
    rw [List.range_succ, List.flatMap_append, List.flatMap_singleton]
    exact (ih fun k hk => h k (hk.trans (Nat.lt_succ_self n))).acts (h n (Nat.lt_succ_self n))

/-- The state at the next instant, which the past does not depend on. -/
theorem Timeline.next (h : Timeline spec abs now log) (y : σ) :
    Timeline spec (Function.update abs (now + 1) y) now log :=
  h.congr fun _ ht => Function.update_of_ne (Nat.ne_of_lt (Nat.lt_succ_of_le ht)) _ _

theorem Timeline.next_idle (h : Timeline spec abs now log) :
    Timeline spec (Function.update abs (now + 1) (abs now)) (now + 1) log := by
  refine (h.next _).idle ?_
  rw [Function.update_self, Function.update_of_ne (Nat.ne_of_lt (Nat.lt_succ_self now))]

theorem Timeline.next_act {y : σ} (h : Timeline spec abs now log) (ho : spec (abs now) o y) :
    Timeline spec (Function.update abs (now + 1) y) (now + 1) (log ++ [(now, o)]) := by
  refine (h.next _).act ?_
  rwa [Function.update_self, Function.update_of_ne (Nat.ne_of_lt (Nat.lt_succ_self now))]

/-- The log with an operation placed before all that are not earlier. -/
def place (log : List (Nat × ο)) (t : Nat) (o : ο) : List (Nat × ο) :=
  (log.filter fun a => decide (a.1 < t)) ++ (t, o) :: log.filter fun a => decide (t ≤ a.1)

theorem place_perm (log : List (Nat × ο)) (t : Nat) (o : ο) :
    (place log t o).Perm ((t, o) :: log) := by
  refine List.perm_middle.trans (List.Perm.cons _ ?_)
  have hnot : (fun a : Nat × ο => decide (t ≤ a.1)) = fun a => !decide (a.1 < t) := by
    funext a
    rw [← decide_not, decide_eq_decide, not_lt]
  rw [hnot]
  exact List.filter_append_perm _ log

/-- Two filters in a row are one. -/
theorem filter_window {p q r : Nat × ο → Prop} [DecidablePred p] [DecidablePred q]
    [DecidablePred r] (log : List (Nat × ο)) (h : ∀ a, p a ∧ q a ↔ r a) :
    (log.filter fun a => decide (q a)).filter (fun a => decide (p a)) =
      log.filter fun a => decide (r a) := by
  rw [List.filter_filter]
  refine List.filter_congr fun a _ => ?_
  rw [← Bool.decide_and, decide_eq_decide]
  exact h a

/-- The operations of a window of the placed log. -/
theorem during_place (log : List (Nat × ο)) (u : Nat) (o : ο) (t t' : Nat) :
    during (place log u o) t t' = if t ≤ u ∧ u < t' then during log t u ++ o :: during log u t'
      else during log t t' := by
  unfold during place
  rw [List.filter_append, List.map_append, List.filter_cons]
  by_cases hu : t ≤ u ∧ u < t'
  · rw [if_pos hu, if_pos (decide_eq_true hu)]
    rw [filter_window (r := fun a => t ≤ a.1 ∧ a.1 < u) log fun a => by omega,
      filter_window (r := fun a => u ≤ a.1 ∧ a.1 < t') log fun a => by omega]
    rfl
  · rw [if_neg hu, if_neg (by simpa using hu)]
    rcases Nat.lt_or_ge u t with hlt | hge
    · rw [filter_window (r := fun _ => False) log fun a => iff_of_false (by omega) id,
        filter_window (r := fun a => t ≤ a.1 ∧ a.1 < t') log fun a => by omega]
      simp
    · rw [filter_window (r := fun a => t ≤ a.1 ∧ a.1 < t') log fun a => by omega,
        filter_window (r := fun _ => False) log fun a => iff_of_false (by omega) id]
      simp

/-- An operation that finds the object at a past instant and leaves it so. -/
theorem Timeline.look (h : Timeline spec abs now log) (ht : t < now) (ho : spec (abs t) o (abs t)) :
    Timeline spec abs now (place log t o) where
  sorted := by
    unfold place
    rw [List.pairwise_append, List.pairwise_cons]
    refine ⟨h.sorted.filter _, ⟨fun a ha => ?_, h.sorted.filter _⟩, fun a ha b hb => ?_⟩
    · simpa using (List.mem_filter.mp ha).2
    · have hlt : a.1 < t := by simpa using (List.mem_filter.mp ha).2
      rcases List.mem_cons.mp hb with rfl | hb
      · exact hlt.le
      · have hge : t ≤ b.1 := by simpa using (List.mem_filter.mp hb).2
        exact hlt.le.trans hge
  past a ha := by
    rcases List.mem_cons.mp ((place_perm log t o).mem_iff.mp ha) with rfl | ha
    · exact ht
    · exact h.past a ha
  plays u u' hu hu' := by
    rw [during_place]
    split
    · rename_i hin
      exact (h.plays u t hin.1 ht.le).append (.cons ho (h.plays t u' hin.2.le hu'))
    · exact h.plays u u' hu hu'

/-- The whole log, in order. -/
theorem Timeline.plays_all (h : Timeline spec abs now log) :
    Plays spec (abs 0) (log.map Prod.snd) (abs now) := by
  have hall : during log 0 now = log.map Prod.snd := by
    unfold during
    rw [List.filter_eq_self.mpr]
    intro a ha
    simpa using h.past a ha
  exact hall ▸ h.plays 0 now (Nat.zero_le _) le_rfl

end ConcurrentComputing.Sequential
