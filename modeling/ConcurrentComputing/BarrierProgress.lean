import ConcurrentComputing.Barrier
import Mathlib.Algebra.Order.BigOperators.Group.Finset
import Mathlib.Data.Fintype.BigOperators

/-! # No call is left behind

Every call that has a number is over or in the hands of one thread. When the threads
have nothing left to do, the calls of the rounds that are full are over and the others
sleep, and it does not take long to get there. -/

namespace ConcurrentComputing.Barrier

open Function Runs

variable {ι : Type} [DecidableEq ι] {n : Nat} {s s' : State ι} {t u : ι} {pc : Pc}
  {events : List (Event ι)} {e : Event ι}

/-! ## The calls -/

/-- Where the call of a thread has a number. -/
def Pc.counted : Pc → Bool
  | .idle | .lock | .enter => false
  | _ => true

structure Accounted (s : State ι) : Prop where
  bounds : ∀ t, (s.pc t).counted = true → 1 ≤ s.number t ∧ s.number t ≤ s.arrived
  apart : ∀ t u, (s.pc t).counted = true → (s.pc u).counted = true → s.number t = s.number u →
    t = u
  unreturned : ∀ t, (s.pc t).counted = true → s.number t ∉ s.returned
  past : ∀ call ∈ s.returned, 1 ≤ call ∧ call ≤ s.arrived
  once : s.returned.Nodup
  all : ∀ call, 1 ≤ call → call ≤ s.arrived →
    call ∈ s.returned ∨ ∃ t, (s.pc t).counted = true ∧ s.number t = call

omit [DecidableEq ι] in
theorem Accounted.init : Accounted (State.init : State ι) where
  bounds _ h := by cases h
  apart _ _ h := by cases h
  unreturned _ h := by cases h
  past := nofun
  once := .nil
  all call h h' := absurd (h.trans h') (by simp [State.init])

omit [DecidableEq ι] in
/-- A step within the calls. -/
theorem Accounted.same (h : Accounted s) (hpc : ∀ u, (s'.pc u).counted = (s.pc u).counted)
    (hnumber : s'.number = s.number) (harrived : s'.arrived = s.arrived)
    (hreturned : s'.returned = s.returned) : Accounted s' := by
  refine ⟨fun t ht => ?_, fun t u ht hu he => ?_, fun t ht => ?_, ?_, ?_, fun call hlo hhi => ?_⟩
  · rw [hpc] at ht
    rw [hnumber, harrived]
    exact h.bounds t ht
  · rw [hpc] at ht hu
    rw [hnumber] at he
    exact h.apart t u ht hu he
  · rw [hpc] at ht
    rw [hnumber, hreturned]
    exact h.unreturned t ht
  · rw [hreturned, harrived]
    exact h.past
  · rw [hreturned]
    exact h.once
  · rw [harrived] at hhi
    rw [hreturned]
    refine (h.all call hlo hhi).imp_right fun ⟨t, ht, he⟩ => ⟨t, ?_, ?_⟩
    · rw [hpc, ht]
    · rw [hnumber, he]

theorem Accounted.goto (h : Accounted s) (hpc : pc.counted = (s.pc t).counted)
    (mutex : Option ι) : Accounted { s.goto t pc with mutex := mutex } := by
  refine h.same (fun u => ?_) rfl rfl rfl
  dsimp only [State.goto]
  by_cases hu : u = t
  · rw [hu, update_self, hpc]
  · rw [update_of_ne hu]

/-- A call gets the next number. -/
theorem Accounted.enter (h : Accounted s) (hpc : s.pc t = .enter) :
    Accounted { s.goto t .test with
      crossing := s.crossing + 1
      arrived := s.arrived + 1
      number := update s.number t (s.arrived + 1) } := by
  have hcases : ∀ u, (update s.pc t .test u).counted = true →
      (u = t ∧ update s.number t (s.arrived + 1) u = s.arrived + 1) ∨
        ((s.pc u).counted = true ∧ update s.number t (s.arrived + 1) u = s.number u) := by
    intro u hu
    by_cases hut : u = t
    · exact Or.inl ⟨hut, by rw [hut, update_self]⟩
    · rw [update_of_ne hut] at hu
      exact Or.inr ⟨hu, update_of_ne hut _ _⟩
  refine ⟨fun u hu => ?_, fun u v hu hv he => ?_, fun u hu => ?_, fun call hcall => ?_, h.once,
    fun call hlo hhi => ?_⟩
  · rcases hcases u hu with ⟨-, he⟩ | ⟨hu, he⟩ <;> dsimp only <;> rw [he]
    · omega
    · have hb := h.bounds u hu
      omega
  · dsimp only at he
    rcases hcases u hu with ⟨hut, he'⟩ | ⟨hu, he'⟩ <;>
    rcases hcases v hv with ⟨hvt, he''⟩ | ⟨hv, he''⟩ <;> rw [he', he''] at he
    · rw [hut, hvt]
    · have hb := h.bounds v hv
      omega
    · have hb := h.bounds u hu
      omega
    · exact h.apart u v hu hv he
  · rcases hcases u hu with ⟨-, he⟩ | ⟨hu, he⟩ <;> dsimp only <;> rw [he]
    · intro hmem
      have hb := h.past _ hmem
      omega
    · exact h.unreturned u hu
  · have hb := h.past call hcall
    exact ⟨hb.1, Nat.le_succ_of_le hb.2⟩
  · dsimp only at hhi ⊢
    rcases Nat.lt_or_eq_of_le hhi with hlt | rfl
    · refine (h.all call hlo (Nat.lt_succ_iff.mp hlt)).imp_right fun ⟨u, hu, he⟩ => ⟨u, ?_⟩
      have hut : u ≠ t := by
        rintro rfl
        rw [hpc] at hu
        cases hu
      dsimp only [State.goto]
      rw [update_of_ne hut, update_of_ne hut]
      exact ⟨hu, he⟩
    · refine Or.inr ⟨t, ?_⟩
      dsimp only [State.goto]
      rw [update_self, update_self]
      exact ⟨rfl, rfl⟩

/-- A call is over. -/
theorem Accounted.leave (h : Accounted s) (hpc : s.pc t = .ret) :
    Accounted { s.goto t .idle with returned := s.number t :: s.returned } := by
  have ht : (s.pc t).counted = true := by rw [hpc]; rfl
  have hothers : ∀ u, (update s.pc t .idle u).counted = true → u ≠ t ∧ (s.pc u).counted = true := by
    intro u hu
    by_cases hut : u = t
    · rw [hut, update_self] at hu
      cases hu
    · rw [update_of_ne hut] at hu
      exact ⟨hut, hu⟩
  refine ⟨fun u hu => h.bounds u (hothers u hu).2,
    fun u v hu hv he => h.apart u v (hothers u hu).2 (hothers v hv).2 he, fun u hu hmem => ?_,
    fun call hcall => ?_, List.nodup_cons.mpr ⟨h.unreturned t ht, h.once⟩, fun call hlo hhi => ?_⟩
  · obtain ⟨hut, hu⟩ := hothers u hu
    rcases List.mem_cons.mp hmem with he | hmem
    · exact hut (h.apart u t hu ht he)
    · exact h.unreturned u hu hmem
  · rcases List.mem_cons.mp hcall with rfl | hcall
    · exact h.bounds t ht
    · exact h.past call hcall
  · rcases h.all call hlo hhi with hmem | ⟨u, hu, rfl⟩
    · exact Or.inl (List.mem_cons_of_mem _ hmem)
    · by_cases hut : u = t
      · rw [hut]
        exact Or.inl List.mem_cons_self
      · refine Or.inr ⟨u, ?_, rfl⟩
        dsimp only [State.goto]
        rwa [update_of_ne hut]

theorem Accounted.step (h : Accounted s) (hs : Barrier.step n s e = some s') : Accounted s' := by
  cases e with
  | spurious t =>
    simp only [Barrier.step] at hs
    split at hs <;> cases hs
    rename_i hsleep
    exact h.goto (by rw [hsleep.1]; rfl) _
  | step t =>
    rw [Barrier.step] at hs
    cases hpc : s.pc t with
    | idle | wait | unlock =>
      rw [hpc] at hs
      cases hs
      exact h.goto (by rw [hpc]; rfl) _
    | lock | woken =>
      simp only [hpc] at hs
      split at hs <;> cases hs
      exact h.goto (by rw [hpc]; rfl) _
    | enter => rw [hpc] at hs; cases hs; exact h.enter hpc
    | test =>
      rw [hpc] at hs
      cases hs
      refine h.goto ?_ s.mutex
      split <;> rw [hpc] <;> rfl
    | sleep => rw [hpc] at hs; cases hs
    | broadcast =>
      rw [hpc] at hs
      cases hs
      refine h.same (fun u => ?_) rfl rfl rfl
      dsimp only
      by_cases hu : u = t
      · rw [hu, update_self, hpc]
        rfl
      · rw [update_of_ne hu]
        split
        · rename_i hsleep
          rw [hsleep]
          rfl
        · rfl
    | reset =>
      rw [hpc] at hs
      cases hs
      have hunlock : Accounted { s.goto t .unlock with mutex := s.mutex } :=
        h.goto (by rw [hpc]; rfl) _
      exact hunlock.same (fun _ => rfl) rfl rfl rfl
    | ret => rw [hpc] at hs; cases hs; exact h.leave hpc

/-! ## What a step does to the others -/

/-- What another thread does to one. -/
theorem step_others (hs : Barrier.step n s (.step t) = some s') (hu : u ≠ t) :
    s'.pc u = s.pc u ∨ (s.pc u = .sleep ∧ s'.pc u = .woken) := by
  rw [Barrier.step] at hs
  cases hpc : s.pc t with
  | idle | enter | test | wait | reset | unlock | ret =>
    rw [hpc] at hs
    cases hs
    exact Or.inl (update_of_ne hu _ _)
  | sleep => rw [hpc] at hs; cases hs
  | lock | woken =>
    simp only [hpc] at hs
    split at hs <;> cases hs
    exact Or.inl (update_of_ne hu _ _)
  | broadcast =>
    rw [hpc] at hs
    cases hs
    dsimp only
    rw [update_of_ne hu]
    split
    · exact Or.inr ⟨by assumption, rfl⟩
    · exact Or.inl rfl

/-- What a step does to the number of calls that have arrived, and to whether the call of
the thread is one of them. -/
theorem step_counted (hs : Barrier.step n s (.step t) = some s') :
    (s.pc t = .enter ∧ (s'.pc t).counted = true ∧ s'.arrived = s.arrived + 1) ∨
      (s.pc t = .ret ∧ s'.pc t = .idle ∧ s'.arrived = s.arrived) ∨
        (s.pc t ≠ .ret ∧ s'.pc t ≠ .idle ∧ (s'.pc t).counted = (s.pc t).counted ∧
          s'.arrived = s.arrived) := by
  rw [Barrier.step] at hs
  cases hpc : s.pc t with
  | enter =>
    rw [hpc] at hs
    cases hs
    exact Or.inl ⟨rfl, by simp [State.goto, Pc.counted], rfl⟩
  | ret =>
    rw [hpc] at hs
    cases hs
    exact Or.inr (Or.inl ⟨rfl, update_self _ _ _, rfl⟩)
  | idle | wait | broadcast | reset | unlock =>
    rw [hpc] at hs
    cases hs
    exact Or.inr (Or.inr ⟨by simp, by simp [State.goto], by simp [State.goto, Pc.counted], rfl⟩)
  | test =>
    rw [hpc] at hs
    cases hs
    refine Or.inr (Or.inr ⟨by simp, ?_, ?_, rfl⟩)
    · dsimp only [State.goto]
      rw [update_self]
      split <;> simp
    · dsimp only [State.goto]
      rw [update_self]
      split <;> rfl
  | sleep => rw [hpc] at hs; cases hs
  | lock | woken =>
    simp only [hpc] at hs
    split at hs <;> cases hs
    exact Or.inr (Or.inr ⟨by simp, by simp [State.goto], by simp [State.goto, Pc.counted], rfl⟩)

/-- Whichever round is over, the first is. -/
theorem RoundOver.le (h : RoundOver n arrived call) (hn : 1 ≤ n) (hcall : 1 ≤ call) :
    n ≤ arrived := by
  have hdiv := Nat.div_add_mod (call - 1) n
  have hmod := Nat.mod_lt (call - 1) hn
  have hround := h ((call - 1) / n + 1)
  rw [Nat.add_sub_cancel, Nat.succ_mul, Nat.mul_comm] at hround
  have hle := hround (by omega) (by omega)
  omega

/-! ## How long it takes -/

/-- How many steps a call may still take. -/
def Pc.left : Pc → Nat
  | .idle => 0
  | .lock => 10
  | .enter => 9
  | .test => 8
  | .wait | .broadcast => 7
  | .sleep | .reset => 6
  | .woken => 5
  | .unlock => 4
  | .ret => 3

theorem Pc.left_le (pc : Pc) : pc.left ≤ 10 := by
  cases pc <;> decide

theorem left_goto (h : pc.left < (s.pc t).left) (u : ι) :
    (update s.pc t pc u).left ≤ (s.pc u).left ∧ (update s.pc t pc t).left < (s.pc t).left := by
  rw [update_self]
  refine ⟨?_, h⟩
  by_cases hu : u = t
  · rw [hu, update_self]
    exact h.le
  · rw [update_of_ne hu]

/-- A thread inside a call comes nearer to the end of it, and keeps nobody further off. -/
theorem step_left (ht : s.pc t ≠ .idle) (hs : Barrier.step n s (.step t) = some s') (u : ι) :
    (s'.pc u).left ≤ (s.pc u).left ∧ (s'.pc t).left < (s.pc t).left := by
  rw [Barrier.step] at hs
  cases hpc : s.pc t with
  | idle => exact absurd hpc ht
  | sleep => rw [hpc] at hs; cases hs
  | enter | wait | reset | unlock | ret =>
    rw [hpc] at hs
    cases hs
    rw [← hpc]
    exact left_goto (by rw [hpc]; decide) u
  | lock | woken =>
    simp only [hpc] at hs
    split at hs <;> cases hs
    rw [← hpc]
    exact left_goto (by rw [hpc]; decide) u
  | test =>
    rw [hpc] at hs
    cases hs
    rw [← hpc]
    refine left_goto ?_ u
    split <;> rw [hpc] <;> decide
  | broadcast =>
    rw [hpc] at hs
    cases hs
    dsimp only
    rw [update_self]
    refine ⟨?_, by decide⟩
    by_cases hu : u = t
    · rw [hu, update_self, hpc]
      decide
    · rw [update_of_ne hu]
      split
      · rename_i hsleep
        rw [hsleep]
        decide
      · exact le_rfl

section finite

variable [Fintype ι]

def State.left (s : State ι) : Nat := ∑ t, (s.pc t).left

omit [DecidableEq ι] in
theorem State.left_le (s : State ι) : s.left ≤ 10 * Fintype.card ι := by
  have hle : s.left ≤ ∑ _ : ι, 10 := Finset.sum_le_sum fun t _ => Pc.left_le _
  rwa [Finset.sum_const, Finset.card_univ, nsmul_eq_mul, Nat.cast_id, mul_comm] at hle

/-- A thread goes on with its call. -/
def InCall (s : State ι) : Event ι → Prop
  | .step t => s.pc t ≠ .idle
  | .spurious _ => False

instance (s : State ι) : (e : Event ι) → Decidable (InCall s e)
  | .step t => inferInstanceAs (Decidable (s.pc t ≠ .idle))
  | .spurious _ => isFalse id

theorem run_left {more : List (Event ι)} (hcalls : Meets (Barrier.step n) InCall s more)
    (hrun : exec (Barrier.step n) s more = some s') : more.length + s'.left ≤ s.left := by
  induction more generalizing s with
  | nil =>
    cases hrun
    simp
  | cons e more ih =>
    obtain ⟨v, hs, hafter⟩ := exec_cons.mp hrun
    have hrest := ih (hcalls.2 v hs) hafter
    cases e with
    | spurious t => exact hcalls.1.elim
    | step t =>
      have hless : v.left < s.left := Finset.sum_lt_sum (fun u _ => (step_left hcalls.1 hs u).1)
        ⟨t, Finset.mem_univ t, (step_left hcalls.1 hs t).2⟩
      rw [List.length_cons]
      omega

end finite

/-! ## At rest -/

/-- The rounds that are full are over, and the calls of the one that is not sleep. -/
structure Settled (n : Nat) (s : State ι) : Prop where
  once : s.returned.Nodup
  returned : ∀ call, call ∈ s.returned ↔ 1 ≤ call ∧ call ≤ s.arrived / n * n
  sleeping : ∀ call, s.arrived / n * n < call → call ≤ s.arrived →
    ∃ t, s.pc t = .sleep ∧ s.number t = call
  threads : ∀ t, s.pc t = .idle ∨ (s.pc t = .sleep ∧ s.arrived / n * n < s.number t)

/-- Whoever is in a call and does not sleep can go on, or the owner of the mutex can. -/
theorem Inv.stuck (h : Inv n s) (hstuck : ∀ t, s.pc t ≠ .idle → Barrier.step n s (.step t) = none) :
    s.mutex = none ∧ ∀ t, s.pc t = .idle ∨ s.pc t = .sleep := by
  have howner : ∀ t, (s.pc t).owns = false := by
    intro t
    rw [← Bool.not_eq_true]
    intro howns
    have hnone := hstuck t fun hidle => by
      rw [hidle] at howns
      cases howns
    rw [Barrier.step] at hnone
    cases hpc : s.pc t with
    | enter | test | wait | broadcast | reset | unlock => rw [hpc] at hnone; cases hnone
    | idle | lock | sleep | woken | ret => rw [hpc] at howns; cases howns
  have hfree : s.mutex = none := by
    cases hm : s.mutex with
    | none => rfl
    | some t =>
      have howns := (h.owner t).mpr hm
      rw [howner t] at howns
      cases howns
  refine ⟨hfree, fun t => ?_⟩
  cases hpc : s.pc t with
  | idle => exact Or.inl rfl
  | sleep => exact Or.inr rfl
  | enter | test | wait | broadcast | reset | unlock =>
    have howns := howner t
    rw [hpc] at howns
    cases howns
  | lock | woken | ret =>
    have hnone := hstuck t (by simp [hpc])
    rw [Barrier.step] at hnone
    simp only [hpc] at hnone
    first
    | cases hnone
    | rw [if_pos hfree] at hnone; cases hnone

omit [DecidableEq ι] in
theorem settled (hn : 1 ≤ n) (h : Inv n s) (hw : Waiting s) (ha : Accounted s)
    (hfree : s.mutex = none) (hrest : ∀ t, s.pc t = .idle ∨ s.pc t = .sleep) : Settled n s := by
  have hlt : s.crossing < n := h.lt (h.no_last hfree)
  obtain ⟨k, hk⟩ := h.rounds
  have hdiv : s.arrived / n = k := by
    rw [hk, Nat.add_comm, Nat.add_mul_div_right _ _ (by omega), Nat.div_eq_of_lt hlt, Nat.zero_add]
  have hsleep : ∀ t, s.pc t = .sleep → k * n < s.number t := by
    intro t ht
    have hcurrent := hw.current t (by rw [ht]; rfl)
    omega
  have hcounted : ∀ t, (s.pc t).counted = true → s.pc t = .sleep := by
    intro t ht
    refine (hrest t).resolve_left fun hidle => ?_
    rw [hidle] at ht
    cases ht
  have hreturned : ∀ call ∈ s.returned, call ≤ k * n := by
    intro call hcall
    by_contra hgt
    have hround : (k + 1) * n = k * n + n := Nat.succ_mul k n
    have hpast := ha.past call hcall
    have hover := h.returned call hcall (k + 1) (by rw [Nat.add_sub_cancel]; omega) (by omega)
    omega
  refine ⟨ha.once, fun call => ⟨fun hcall => ?_, fun hcall => ?_⟩, fun call hlo hhi => ?_,
    fun t => ?_⟩
  · rw [hdiv]
    exact ⟨(ha.past call hcall).1, hreturned call hcall⟩
  · rw [hdiv] at hcall
    refine (ha.all call hcall.1 (by omega)).resolve_right fun ⟨t, ht, he⟩ => ?_
    have hgt := hsleep t (hcounted t ht)
    omega
  · rw [hdiv] at hlo
    rcases ha.all call (by omega) hhi with hcall | ⟨t, ht, he⟩
    · exact absurd (hreturned call hcall) (by omega)
    · exact ⟨t, hcounted t ht, he⟩
  · rw [hdiv]
    exact (hrest t).imp_right fun ht => ⟨ht, hsleep t ht⟩

/-- **No call is left behind.** As long as every `pthread_cond_wait` returns because of a
broadcast: once no thread begins another call, ten steps for each thread are enough to
come to rest, and at rest the calls of the rounds that are full are over, each once, and
those of the last round sleep. -/
theorem barrier_settles [Fintype ι] (hn : 1 ≤ n) {more : List (Event ι)}
    (hwoken : ∀ e ∈ events, ∀ t, e ≠ .spurious t) (hrun : exec (step n) .init events = some s)
    (hcalls : Meets (step n) InCall s more) (hmore : exec (step n) s more = some s') :
    more.length ≤ 10 * Fintype.card ι ∧
      ((∀ t, s'.pc t ≠ .idle → step n s' (.step t) = none) → Settled n s') := by
  refine ⟨?_, fun hstuck => ?_⟩
  · have hleft := run_left hcalls hmore
    have hle := s.left_le
    omega
  · have hall : exec (step n) .init (events ++ more) = some s' := exec_append.mpr ⟨s, hrun, hmore⟩
    obtain ⟨hinv, hwaiting⟩ := Waiting.init.run (Inv.init hn) hn hwoken hrun
    have hsteps : Inv n s' ∧ Waiting s' := by
      refine exec_induction_of_meets (motive := fun _ v => Inv n v ∧ Waiting v)
        ⟨hinv, hwaiting⟩ ?_ hmore hcalls
      rintro _ v e v' - hv hcall hs
      cases e with
      | spurious t => exact hcall.elim
      | step t => exact ⟨hv.1.step hn hs, hv.2.step hv.1 hs⟩
    have haccounted : Accounted s' :=
      exec_invariant Accounted.init (fun _ _ _ hv hs => hv.step hs) hall
    obtain ⟨hfree, hrest⟩ := hsteps.1.stuck hstuck
    exact settled hn hsteps.1 hsteps.2 haccounted hfree hrest

/-- The rest of three calls at a barrier for two. -/
def crossThree : List (Event (Option Bool)) :=
  (List.replicate 4 none ++ List.replicate 7 (some false) ++ List.replicate 4 (some true) ++
    List.replicate 3 none).map .step

/-- The first two are let through and the third sleeps. -/
theorem barrier_settles_three : ∃ s s' : State (Option Bool),
    exec (step 2) .init ([none, some false, some true].map .step) = some s ∧
      exec (step 2) s crossThree = some s' ∧ Settled 2 s' ∧ s'.pc (some true) = .sleep := by
  have hrun : (exec (step 2) (.init : State (Option Bool))
      ([none, some false, some true].map .step)).bind (fun s => (exec (step 2) s crossThree).map
        fun s' => (decide (Meets (step 2) InCall s crossThree), s'.pc none, s'.pc (some false),
          s'.pc (some true))) = some (true, .idle, .idle, .sleep) := by
    decide
  obtain ⟨s, hs, hmap⟩ := Option.bind_eq_some_iff.mp hrun
  obtain ⟨s', hs', hend⟩ := Option.map_eq_some_iff.mp hmap
  obtain ⟨hcalls, hend⟩ := Prod.mk.inj hend
  obtain ⟨hpc₀, hend⟩ := Prod.mk.inj hend
  obtain ⟨hpc₁, hpc₂⟩ := Prod.mk.inj hend
  have hstuck : ∀ t, s'.pc t ≠ .idle → step 2 s' (.step t) = none
    | none, ht => absurd hpc₀ ht
    | some false, ht => absurd hpc₁ ht
    | some true, _ => by rw [Barrier.step, hpc₂]
  exact ⟨s, s', hs, hs', (barrier_settles (by decide) (by decide) hs (of_decide_eq_true hcalls)
    hs').2 hstuck, hpc₂⟩

end ConcurrentComputing.Barrier
