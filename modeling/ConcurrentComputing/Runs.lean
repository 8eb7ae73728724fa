import Mathlib.Data.List.Induction
import Mathlib.Logic.Function.Basic
import Mathlib.Tactic.Common

/-! # Runs of a partial step function

An interleaving semantics is a step function `σ → ε → Option σ`: the event says
who moves and how the choices of that move fall, `none` that the event is not
enabled. A run is a list of events, oldest first. The rules below carry a fact
from one step to whole runs; `Meets` restricts a run to steps that satisfy a
condition on the state before them. -/

namespace ConcurrentComputing.Runs

variable {σ ε : Type*} (step : σ → ε → Option σ)

/-- The state a run ends in, `none` when one of its events is not enabled. -/
def exec : σ → List ε → Option σ
  | s, [] => some s
  | s, e :: es => (step s e).bind fun s' => exec s' es

/-- Every step of the run satisfies `P` in the state it starts from. -/
def Meets (P : σ → ε → Prop) : σ → List ε → Prop
  | _, [] => True
  | s, e :: es => P s e ∧ ∀ s', step s e = some s' → Meets P s' es

variable {step}

/-- On a concrete run the condition can be evaluated. -/
instance decidableMeets {P : σ → ε → Prop} [∀ s e, Decidable (P s e)] :
    ∀ (s : σ) (es : List ε), Decidable (Meets step P s es)
  | _, [] => isTrue trivial
  | s, e :: es =>
    match h : step s e with
    | none => decidable_of_iff (P s e)
        ⟨fun hp => ⟨hp, fun s' hs => by rw [h] at hs; cases hs⟩, And.left⟩
    | some s' =>
      have := decidableMeets (P := P) s' es
      decidable_of_iff (P s e ∧ Meets step P s' es)
        ⟨fun hp => ⟨hp.1, fun t ht => by rw [h] at ht; cases ht; exact hp.2⟩,
          fun hp => ⟨hp.1, hp.2 s' h⟩⟩

@[simp] theorem exec_nil (s : σ) : exec step s [] = some s := rfl

theorem exec_cons {s t : σ} {e : ε} {es : List ε} :
    exec step s (e :: es) = some t ↔ ∃ u, step s e = some u ∧ exec step u es = some t := by
  simp only [exec, Option.bind_eq_some_iff]

theorem exec_eq_foldlM (s : σ) (es : List ε) : exec step s es = es.foldlM step s := by
  induction es generalizing s with
  | nil => rfl
  | cons e es ih =>
    rw [exec, List.foldlM_cons]
    exact congrArg _ (funext ih)

theorem exec_append {s t : σ} {es fs : List ε} :
    exec step s (es ++ fs) = some t ↔
      ∃ u, exec step s es = some u ∧ exec step u fs = some t := by
  induction es generalizing s with
  | nil => simp
  | cons e es ih =>
    simp only [List.cons_append, exec_cons, ih]
    constructor
    · rintro ⟨u, hu, v, hv, ht⟩
      exact ⟨v, ⟨u, hu, hv⟩, ht⟩
    · rintro ⟨v, ⟨u, hu, hv⟩, ht⟩
      exact ⟨u, hu, v, hv, ht⟩

theorem exec_snoc {s t : σ} {es : List ε} {e : ε} :
    exec step s (es ++ [e]) = some t ↔
      ∃ u, exec step s es = some u ∧ step u e = some t := by
  simp [exec_append, exec_cons]

theorem meets_append {P : σ → ε → Prop} {s : σ} {es fs : List ε} :
    Meets step P s (es ++ fs) ↔
      Meets step P s es ∧ ∀ u, exec step s es = some u → Meets step P u fs := by
  induction es generalizing s with
  | nil => simp [Meets]
  | cons e es ih =>
    simp only [List.cons_append, Meets, ih, exec_cons]
    constructor
    · rintro ⟨hp, hs⟩
      exact ⟨⟨hp, fun v hv => (hs v hv).1⟩, fun u ⟨v, hv, hu⟩ => (hs v hv).2 u hu⟩
    · rintro ⟨⟨hp, hs⟩, hu⟩
      exact ⟨hp, fun v hv => ⟨hs v hv, fun u h => hu u ⟨v, hv, h⟩⟩⟩

theorem Meets.mono {P Q : σ → ε → Prop} (hpq : ∀ s e, P s e → Q s e) :
    ∀ {s : σ} {es : List ε}, Meets step P s es → Meets step Q s es
  | _, [], _ => trivial
  | s, e :: _, h => ⟨hpq s e h.1, fun s' hs => (h.2 s' hs).mono hpq⟩

/-- Induction along a run whose steps meet a condition: the fact may speak about
the events so far and the state they lead to. -/
theorem exec_induction_of_meets {P : σ → ε → Prop} {s : σ} {motive : List ε → σ → Prop}
    (nil : motive [] s)
    (snoc : ∀ es u e t, exec step s es = some u → motive es u → P u e →
      step u e = some t → motive (es ++ [e]) t) :
    ∀ {es : List ε} {t : σ}, exec step s es = some t → Meets step P s es → motive es t := by
  intro es
  induction es using List.reverseRecOn with
  | nil =>
    intro t h _
    cases h
    exact nil
  | append_singleton es e ih =>
    intro t h hm
    obtain ⟨u, hu, ht⟩ := exec_snoc.mp h
    obtain ⟨hm, hp⟩ := meets_append.mp hm
    exact snoc es u e t hu (ih hu hm) (hp u hu).1 ht

/-- Every run meets the empty condition. -/
theorem meets_true : ∀ (s : σ) (es : List ε), Meets step (fun _ _ => True) s es
  | _, [] => trivial
  | _, _ :: es => ⟨trivial, fun s' _ => meets_true s' es⟩

theorem exec_induction {s : σ} {motive : List ε → σ → Prop} (nil : motive [] s)
    (snoc : ∀ es u e t, exec step s es = some u → motive es u → step u e = some t →
      motive (es ++ [e]) t)
    {es : List ε} {t : σ} (h : exec step s es = some t) : motive es t :=
  exec_induction_of_meets (P := fun _ _ => True) nil
    (fun es u e t hu hm _ hs => snoc es u e t hu hm hs) h (meets_true s es)

/-- An invariant of every step holds at the end of every run. -/
theorem exec_invariant {I : σ → Prop} {s t : σ} {es : List ε} (init : I s)
    (preserved : ∀ u e t, I u → step u e = some t → I t)
    (h : exec step s es = some t) : I t :=
  exec_induction (motive := fun _ u => I u) init
    (fun _ u e t _ hu hs => preserved u e t hu hs) h

/-- An invariant of the steps that the run may take. -/
theorem exec_invariant_of_mem {E : ε → Prop} {I : σ → Prop} {s t : σ} {es : List ε} (init : I s)
    (preserved : ∀ u e t, E e → I u → step u e = some t → I t) (hes : ∀ e ∈ es, E e)
    (h : exec step s es = some t) : I t := by
  refine exec_induction (motive := fun es u => (∀ e ∈ es, E e) → I u) (fun _ => init) ?_ h hes
  intro es u e t _ ih hs hes
  have hu := ih fun x hx => hes x (List.mem_append_left _ hx)
  exact preserved u e t (hes e (List.mem_append_right _ List.mem_cons_self)) hu hs

/-- Where a step from a good state ends in a good state exactly when it meets a
condition, every state of a run is good exactly when every step meets it. The
events may be known to satisfy `E`, and the states to keep an invariant `I`. -/
theorem prefixes_iff_meets {P : σ → ε → Prop} {E : ε → Prop} {I G : σ → Prop}
    (hstep : ∀ s e s', E e → I s → G s → step s e = some s' → I s' ∧ (G s' ↔ P s e))
    {s t : σ} {es : List ε} (hi : I s) (hg : G s) (hes : ∀ e ∈ es, E e)
    (h : exec step s es = some t) :
    (∀ k u, exec step s (es.take k) = some u → G u) ↔ Meets step P s es := by
  induction es generalizing s with
  | nil =>
    refine ⟨fun _ => trivial, fun _ k u hu => ?_⟩
    rw [List.take_nil, exec_nil] at hu
    cases hu
    exact hg
  | cons e es ih =>
    obtain ⟨u, hs, hrest⟩ := exec_cons.mp h
    have hrest' : ∀ e ∈ es, E e := fun x hx => hes x (List.mem_cons_of_mem _ hx)
    obtain ⟨hiu, hgu⟩ := hstep s e u (hes e List.mem_cons_self) hi hg hs
    constructor
    · intro hall
      have hu := hall 1 u (by simp [exec_cons, hs])
      refine ⟨hgu.mp hu, fun u' hu' => ?_⟩
      rw [hs] at hu'
      cases hu'
      exact (ih hiu hu hrest' hrest).mp fun k w hw => hall (k + 1) w (exec_cons.mpr ⟨u, hs, hw⟩)
    · intro ⟨hp, hm⟩ k w hw
      cases k with
      | zero =>
        cases hw
        exact hg
      | succ k =>
        obtain ⟨u', hu', hw⟩ := exec_cons.mp hw
        rw [hs] at hu'
        cases hu'
        exact (ih hiu (hgu.mpr hp) hrest' hrest).mpr (hm u hs) k w hw

/-! ## Instants -/

/-- The state after the first `t` steps of a run. -/
def At (step : σ → ε → Option σ) (s : σ) (es : List ε) (t : Nat) (u : σ) : Prop :=
  t ≤ es.length ∧ exec step s (es.take t) = some u

variable {s u v : σ} {es : List ε} {e : ε} {t : Nat}

theorem At.unique (hu : At step s es t u) (hv : At step s es t v) : u = v :=
  Option.some.inj (hu.2.symm.trans hv.2)

theorem at_zero : At step s es 0 s := ⟨Nat.zero_le _, rfl⟩

theorem at_length (h : exec step s es = some u) : At step s es es.length u :=
  ⟨Nat.le_refl _, by rwa [List.take_length]⟩

theorem exists_at (h : exec step s es = some v) (ht : t ≤ es.length) : ∃ u, At step s es t u := by
  rw [← List.take_append_drop t es, exec_append] at h
  obtain ⟨u, hu, -⟩ := h
  exact ⟨u, ht, hu⟩

theorem At.succ (hu : At step s es t u) (hv : At step s es (t + 1) v) :
    ∃ e, es[t]? = some e ∧ step u e = some v := by
  have hlt := Nat.lt_of_succ_le hv.1
  have hrun := hv.2
  rw [← List.take_append_getElem hlt, exec_snoc] at hrun
  obtain ⟨w, hw, hs⟩ := hrun
  cases hu.2.symm.trans hw
  exact ⟨_, List.getElem?_eq_getElem hlt, hs⟩

/-- The steps between two instants of a run are a run from the first to the second. -/
theorem At.between {t' : Nat} (hu : At step s es t u) (hv : At step s es t' v) (ht : t ≤ t') :
    exec step u ((es.take t').drop t) = some v := by
  have hsplit : es.take t' = es.take t ++ (es.take t').drop t := by
    conv_lhs => rw [← List.take_append_drop t (es.take t'), List.take_take, Nat.min_eq_left ht]
  have hrun := hv.2
  rw [hsplit, exec_append] at hrun
  obtain ⟨w, hw, hrest⟩ := hrun
  cases hu.2.symm.trans hw
  exact hrest

theorem at_snoc (ht : t ≤ es.length) : At step s (es ++ [e]) t u ↔ At step s es t u := by
  unfold At
  rw [List.take_append_of_le_length ht, List.length_append]
  exact and_congr_left fun _ => ⟨fun _ => ht, fun _ => Nat.le_trans ht (Nat.le_add_right _ _)⟩

/-- An instant of a run with one more step is an instant of the run, or the end. -/
theorem at_snoc_cases (hu : At step s (es ++ [e]) t u) (h : exec step s (es ++ [e]) = some v) :
    (t ≤ es.length ∧ At step s es t u) ∨ (t = es.length + 1 ∧ u = v) := by
  have hlen : (es ++ [e]).length = es.length + 1 := by simp
  rcases Nat.lt_or_ge es.length t with hlt | hle
  · have ht : t = es.length + 1 := Nat.le_antisymm (hlen ▸ hu.1) hlt
    refine Or.inr ⟨ht, ?_⟩
    rw [ht, ← hlen] at hu
    exact hu.unique (at_length h)
  · exact Or.inl ⟨hle, (at_snoc hle).mp hu⟩

/-! ## Simulation -/

/-- Each step of the one system is some steps of the other, or none. -/
def Simulates {σ' ε' : Type*} (step : σ → ε → Option σ) (step' : σ' → ε' → Option σ')
    (R : σ → σ' → Prop) : Prop :=
  ∀ s e t s', R s s' → step s e = some t → ∃ es' t', exec step' s' es' = some t' ∧ R t t'

theorem Simulates.run {σ' ε' : Type*} {step' : σ' → ε' → Option σ'} {R : σ → σ' → Prop} {s' : σ'}
    (hsim : Simulates step step' R) (hr : R s s') (h : exec step s es = some v) :
    ∃ es' v', exec step' s' es' = some v' ∧ R v v' := by
  refine exec_induction (motive := fun _ v => ∃ es' v', exec step' s' es' = some v' ∧ R v v')
    ⟨[], s', rfl, hr⟩ ?_ h
  intro _ u e t _ ih hs
  obtain ⟨es₁, u', hu', hr⟩ := ih
  obtain ⟨es₂, t', ht', hr⟩ := hsim u e t u' hr hs
  exact ⟨es₁ ++ es₂, t', exec_append.mpr ⟨u', hu', ht'⟩, hr⟩

/-! ## Tables of threads -/

/-- What a table holds once one thread has moved: the new entry of that thread, or the
old one of another. -/
theorem update_cases {ι β : Type*} [DecidableEq ι] {f : ι → β} {i j : ι} {x y : β}
    (h : Function.update f i x j = y) : (j = i ∧ x = y) ∨ (j ≠ i ∧ f j = y) := by
  by_cases hj : j = i
  · subst hj
    rw [Function.update_self] at h
    exact Or.inl ⟨rfl, h⟩
  · rw [Function.update_of_ne hj] at h
    exact Or.inr ⟨hj, h⟩

end ConcurrentComputing.Runs
