import ConcurrentComputing.Runs
import Mathlib.Algebra.Order.Ring.Nat

/-! # The barrier

`barrier_cross` of `Common/locks.hpp`, the same text in `CuckooHash/utils.hpp`: any
threads, any number of times each. A thread that has been woken does not look at
anything again, so all rests on who wakes it. -/

namespace ConcurrentComputing.Barrier

open Function Runs

/-- The statement a thread is at. -/
inductive Pc where
  | idle
  | lock
  | enter
  | test
  | wait
  /-- inside `pthread_cond_wait`, and has not been woken -/
  | sleep
  /-- inside `pthread_cond_wait`, and is to have the mutex again -/
  | woken
  | broadcast
  | reset
  | unlock
  | ret
  deriving DecidableEq, Repr

/-- `barrier_t`, with the owner of its mutex, and the threads. The calls are numbered from
one by their `crossing++`: `arrived` counts them, `number` has the call a thread is in, and
`returned` those that are over. -/
structure State (ι : Type) where
  crossing : Nat
  mutex : Option ι
  pc : ι → Pc
  arrived : Nat
  number : ι → Nat
  returned : List Nat

/-- A thread goes on, or its `pthread_cond_wait` returns although nobody has called
`pthread_cond_broadcast`. -/
inductive Event (ι : Type) where
  | step (t : ι)
  | spurious (t : ι)
  deriving DecidableEq

def Event.thread {ι : Type} : Event ι → ι
  | .step t | .spurious t => t

variable {ι : Type} [DecidableEq ι]

namespace State

/-- `barrier_init`. -/
def init : State ι := ⟨0, none, fun _ => .idle, 0, fun _ => 0, []⟩

def goto (s : State ι) (t : ι) (pc : Pc) : State ι := { s with pc := update s.pc t pc }

end State

/-- A barrier for `n`. -/
def step (n : Nat) (s : State ι) : Event ι → Option (State ι)
  | .spurious t =>
    if s.pc t = .sleep ∧ s.mutex = none then some { s.goto t .unlock with mutex := some t } else none
  | .step t =>
    match s.pc t with
    | .idle => some (s.goto t .lock)
    | .lock => if s.mutex = none then some { s.goto t .enter with mutex := some t } else none
    | .enter => some { s.goto t .test with
        crossing := s.crossing + 1
        arrived := s.arrived + 1
        number := update s.number t (s.arrived + 1) }
    | .test => some (s.goto t (if s.crossing < n then .wait else .broadcast))
    | .wait => some { s.goto t .sleep with mutex := none }
    | .sleep => none
    | .woken => if s.mutex = none then some { s.goto t .unlock with mutex := some t } else none
    | .broadcast => some { s with
        pc := update (fun u => if s.pc u = .sleep then .woken else s.pc u) t .reset }
    | .reset => some { s.goto t .unlock with crossing := 0 }
    | .unlock => some { s.goto t .ret with mutex := none }
    | .ret => some { s.goto t .idle with returned := s.number t :: s.returned }

/-! ## The invariant -/

/-- Where a thread owns the mutex. -/
def Pc.owns : Pc → Bool
  | .enter | .test | .wait | .broadcast | .reset | .unlock => true
  | _ => false

/-- Where `crossing` may have come to the count. -/
def Pc.last : Pc → Bool
  | .test | .broadcast | .reset => true
  | _ => false

/-- All `n` calls of the round that the call belongs to have arrived. -/
def RoundOver (n arrived call : Nat) : Prop :=
  ∀ k, (k - 1) * n < call → call ≤ k * n → k * n ≤ arrived

/-- What a thread knows of its call. -/
def Known (n crossing arrived call : Nat) : Pc → Prop
  | .idle | .lock | .enter => True
  | .test | .wait | .sleep => call ≤ arrived
  | .broadcast | .reset => call ≤ arrived ∧ crossing = n
  | .woken | .unlock | .ret => RoundOver n arrived call

structure Inv (n : Nat) (s : State ι) : Prop where
  owner : ∀ t, (s.pc t).owns = true ↔ s.mutex = some t
  rounds : ∃ k, s.arrived = k * n + s.crossing
  le : s.crossing ≤ n
  last : s.crossing < n ∨ ∃ t, (s.pc t).last = true
  known : ∀ t, Known n s.crossing s.arrived (s.number t) (s.pc t)
  returned : ∀ call ∈ s.returned, RoundOver n s.arrived call

variable {n : Nat} {s s' : State ι} {t : ι} {crossing arrived arrived' call : Nat} {pc : Pc}

theorem Pc.owns_of_last (h : pc.last = true) : pc.owns = true := by
  cases pc <;> first | rfl | cases h

theorem RoundOver.mono (h : RoundOver n arrived call) (hle : arrived ≤ arrived') :
    RoundOver n arrived' call := fun k hlo hhi => (h k hlo hhi).trans hle

/-- When the last round is full, all are over. -/
theorem roundOver_of_full (hfull : ∃ k, arrived = k * n) (hle : call ≤ arrived) :
    RoundOver n arrived call := by
  obtain ⟨k, rfl⟩ := hfull
  intro j hlo _
  have hlt : j - 1 < k := lt_of_mul_lt_mul_right (hlo.trans_le hle) (Nat.zero_le n)
  exact Nat.mul_le_mul_right n (by omega)

/-- A thread that does not count on `crossing` knows the same after another arrival. -/
theorem Known.mono (h : Known n crossing arrived call pc) (hpc : pc.last = false)
    (hle : arrived ≤ arrived') (crossing' : Nat) : Known n crossing' arrived' call pc := by
  cases pc with
  | idle => trivial
  | lock => trivial
  | enter => trivial
  | test => cases hpc
  | wait => exact Nat.le_trans h hle
  | sleep => exact Nat.le_trans h hle
  | woken => exact RoundOver.mono h hle
  | broadcast => cases hpc
  | reset => cases hpc
  | unlock => exact RoundOver.mono h hle
  | ret => exact RoundOver.mono h hle

omit [DecidableEq ι] in
theorem Inv.init (hn : 1 ≤ n) : Inv n (State.init : State ι) where
  owner := fun t => iff_of_false Bool.false_ne_true (Option.some_ne_none t).symm
  rounds := ⟨0, by simp [State.init]⟩
  le := Nat.zero_le n
  last := Or.inl hn
  known := fun _ => trivial
  returned := fun _ h => absurd h List.not_mem_nil

omit [DecidableEq ι] in
theorem Inv.others (h : Inv n s) (ht : (s.pc t).owns = true) {u : ι} (hu : u ≠ t) :
    (s.pc u).owns = false := by
  rw [← Bool.not_eq_true, h.owner u, (h.owner t).mp ht]
  exact fun he => hu (Option.some.inj he).symm

omit [DecidableEq ι] in
theorem Inv.others_last (h : Inv n s) (ht : (s.pc t).owns = true) {u : ι} (hu : u ≠ t) :
    (s.pc u).last = false := by
  rw [← Bool.not_eq_true]
  exact fun hlast => Bool.false_ne_true ((h.others ht hu).symm.trans (Pc.owns_of_last hlast))

omit [DecidableEq ι] in
theorem Inv.no_last (h : Inv n s) (hfree : s.mutex = none) (u : ι) : (s.pc u).last = false := by
  rw [← Bool.not_eq_true]
  intro hlast
  have hmutex := (h.owner u).mp (Pc.owns_of_last hlast)
  rw [hfree] at hmutex
  cases hmutex

/-- The owner goes on with the mutex. -/
theorem Inv.owner_update (h : Inv n s) (ht : (s.pc t).owns = true) (hpc : pc.owns = true) (u : ι) :
    (update s.pc t pc u).owns = true ↔ s.mutex = some u := by
  by_cases hu : u = t
  · rw [hu, update_self]
    exact iff_of_true hpc ((h.owner t).mp ht)
  · rw [update_of_ne hu]
    exact h.owner u

omit [DecidableEq ι] in
/-- Outside of the last statements of a round `crossing` is short of the count. -/
theorem Inv.lt (h : Inv n s) (ht : ∀ u, (s.pc u).last = false) : s.crossing < n := by
  rcases h.last with hlt | ⟨u, hu⟩
  · exact hlt
  · rw [ht u] at hu
    cases hu

/-! ## One step -/

/-- A thread moves on, and may take or release the mutex. -/
theorem Inv.move (h : Inv n s) {mutex : Option ι} (howns : pc.owns = true ↔ mutex = some t)
    (hothers : ∀ u, u ≠ t → (s.mutex = some u ↔ mutex = some u))
    (hknown : Known n s.crossing s.arrived (s.number t) pc)
    (hlast : (s.pc t).last = true → pc.last = true ∨ s.crossing < n) :
    Inv n { s.goto t pc with mutex := mutex } where
  owner := fun u => by
    by_cases hu : u = t
    · subst hu
      simpa [State.goto] using howns
    · simpa [State.goto, hu] using (h.owner u).trans (hothers u hu)
  rounds := h.rounds
  le := h.le
  last := by
    rcases h.last with hlt | ⟨u, hu⟩
    · exact Or.inl hlt
    · by_cases hut : u = t
      · subst hut
        exact (hlast hu).symm.imp_right fun hpc => ⟨u, by simpa [State.goto] using hpc⟩
      · exact Or.inr ⟨u, by simpa [State.goto, hut] using hu⟩
  known := fun u => by
    by_cases hu : u = t
    · subst hu
      simpa [State.goto] using hknown
    · simpa [State.goto, hu] using h.known u
  returned := h.returned

/-- The mutex was free. -/
theorem Inv.acquire (h : Inv n s) (hfree : s.mutex = none) (howns : pc.owns = true)
    (hknown : Known n s.crossing s.arrived (s.number t) pc) :
    Inv n { s.goto t pc with mutex := some t } := by
  refine h.move (iff_of_true howns rfl) (fun u hu => ?_) hknown fun hlast => ?_
  · rw [hfree]
    exact iff_of_false (Option.some_ne_none u).symm fun he => hu (Option.some.inj he).symm
  · exact absurd ((h.no_last hfree t).symm.trans hlast) Bool.false_ne_true

theorem Inv.release (h : Inv n s) (hpc : (s.pc t).owns = true) (hlast : (s.pc t).last = false)
    (howns : pc.owns = false) (hknown : Known n s.crossing s.arrived (s.number t) pc) :
    Inv n { s.goto t pc with mutex := none } := by
  refine h.move (iff_of_false (by simp [howns]) (Option.some_ne_none t).symm) (fun u hu => ?_)
    hknown fun he => absurd (hlast.symm.trans he) Bool.false_ne_true
  rw [(h.owner t).mp hpc]
  exact iff_of_false (fun he => hu (Option.some.inj he).symm) (Option.some_ne_none u).symm

/-- With the mutex, or without it before and after. -/
theorem Inv.goto (h : Inv n s) (howns : pc.owns = (s.pc t).owns)
    (hknown : Known n s.crossing s.arrived (s.number t) pc)
    (hlast : (s.pc t).last = true → pc.last = true ∨ s.crossing < n) : Inv n (s.goto t pc) :=
  h.move (by rw [howns]; exact h.owner t) (fun _ _ => Iff.rfl) hknown hlast

/-- `crossing++`. -/
theorem Inv.enter (h : Inv n s) (hpc : s.pc t = .enter) :
    Inv n { s.goto t .test with
      crossing := s.crossing + 1
      arrived := s.arrived + 1
      number := update s.number t (s.arrived + 1) } := by
  have howns : (s.pc t).owns = true := by rw [hpc]; rfl
  have hnolast : ∀ u, (s.pc u).last = false := by
    intro u
    by_cases hu : u = t
    · rw [hu, hpc]
      rfl
    · exact h.others_last howns hu
  obtain ⟨k, hk⟩ := h.rounds
  refine ⟨h.owner_update howns rfl, ⟨k, by simp only [hk, Nat.add_assoc]⟩, h.lt hnolast,
    Or.inr ⟨t, by simp [State.goto, Pc.last]⟩, fun u => ?_, ?_⟩
  · by_cases hu : u = t
    · subst hu
      simp [State.goto, Known]
    · simpa [State.goto, hu] using (h.known u).mono (hnolast u) (Nat.le_succ _) _
  · exact fun call hcall => (h.returned call hcall).mono (Nat.le_succ _)

/-- The last of a round wakes the others of it, and finds all of them arrived. -/
theorem Inv.broadcast (h : Inv n s) (hpc : s.pc t = .broadcast) :
    Inv n { s with pc := update (fun u => if s.pc u = .sleep then .woken else s.pc u) t .reset } := by
  have hknown := h.known t
  rw [hpc] at hknown
  obtain ⟨hcall, hfull⟩ := hknown
  have hover : ∀ call ≤ s.arrived, RoundOver n s.arrived call := by
    obtain ⟨k, hk⟩ := h.rounds
    refine fun call hle => roundOver_of_full ⟨k + 1, ?_⟩ hle
    rw [hk, hfull, Nat.succ_mul]
  have howns : (s.pc t).owns = true := by rw [hpc]; rfl
  refine ⟨fun u => ?_, h.rounds, h.le, Or.inr ⟨t, by simp [Pc.last]⟩, fun u => ?_, h.returned⟩
  · by_cases hu : u = t
    · subst hu
      simp only [update_self]
      exact iff_of_true rfl ((h.owner u).mp howns)
    · simp only [update_of_ne hu]
      split
      · rename_i hsleep
        rw [← h.owner u, hsleep]
        rfl
      · exact h.owner u
  · by_cases hu : u = t
    · subst hu
      simpa [Known] using And.intro hcall hfull
    · simp only [update_of_ne hu]
      have hu' := h.known u
      split
      · rename_i hsleep
        rw [hsleep] at hu'
        exact hover _ hu'
      · exact hu'

/-- `crossing = 0`: the next round begins. -/
theorem Inv.reset (h : Inv n s) (hn : 1 ≤ n) (hpc : s.pc t = .reset) :
    Inv n { s.goto t .unlock with crossing := 0 } := by
  have hknown := h.known t
  rw [hpc] at hknown
  obtain ⟨hcall, hfull⟩ := hknown
  have howns : (s.pc t).owns = true := by rw [hpc]; rfl
  obtain ⟨k, hk⟩ := h.rounds
  have hround : s.arrived = (k + 1) * n := by rw [hk, hfull, Nat.succ_mul]
  refine ⟨h.owner_update howns rfl, ⟨k + 1, hround⟩, Nat.zero_le n, Or.inl hn, fun u => ?_,
    h.returned⟩
  by_cases hu : u = t
  · subst hu
    simpa [State.goto, Known] using roundOver_of_full ⟨k + 1, hround⟩ hcall
  · simpa [State.goto, hu] using (h.known u).mono (h.others_last howns hu) le_rfl 0

/-- Unless a wait returns with nobody having called `pthread_cond_broadcast`. -/
theorem Inv.step (h : Inv n s) (hn : 1 ≤ n) (hs : Barrier.step n s (.step t) = some s') :
    Inv n s' := by
  have hknown := h.known t
  rw [Barrier.step] at hs
  cases hpc : s.pc t with
  | idle =>
    rw [hpc] at hs
    cases hs
    exact h.goto (by rw [hpc]; rfl) trivial (by rw [hpc]; simp [Pc.last])
  | lock =>
    simp only [hpc] at hs
    split at hs
    · rename_i hfree
      cases hs
      exact h.acquire hfree rfl trivial
    · cases hs
  | enter =>
    rw [hpc] at hs
    cases hs
    exact h.enter hpc
  | test =>
    rw [hpc] at hs hknown
    cases hs
    by_cases hlt : s.crossing < n
    · rw [if_pos hlt]
      exact h.goto (by rw [hpc]; rfl) hknown fun _ => Or.inr hlt
    · rw [if_neg hlt]
      exact h.goto (by rw [hpc]; rfl) ⟨hknown, le_antisymm h.le (not_lt.mp hlt)⟩
        fun _ => Or.inl rfl
  | wait =>
    rw [hpc] at hs hknown
    cases hs
    exact h.release (by rw [hpc]; rfl) (by rw [hpc]; rfl) rfl hknown
  | sleep =>
    rw [hpc] at hs
    cases hs
  | woken =>
    rw [hpc] at hknown
    simp only [hpc] at hs
    split at hs
    · rename_i hfree
      cases hs
      exact h.acquire hfree rfl hknown
    · cases hs
  | broadcast =>
    rw [hpc] at hs
    cases hs
    exact h.broadcast hpc
  | reset =>
    rw [hpc] at hs
    cases hs
    exact h.reset hn hpc
  | unlock =>
    rw [hpc] at hs hknown
    cases hs
    exact h.release (by rw [hpc]; rfl) (by rw [hpc]; rfl) rfl hknown
  | ret =>
    rw [hpc] at hs hknown
    cases hs
    have hidle : Inv n (s.goto t .idle) :=
      h.goto (by rw [hpc]; rfl) trivial (by rw [hpc]; simp [Pc.last])
    refine ⟨hidle.owner, hidle.rounds, hidle.le, hidle.last, hidle.known, fun call hcall => ?_⟩
    rcases List.mem_cons.mp hcall with rfl | hcall
    · exact hknown
    · exact h.returned call hcall

/-! ## Whole runs -/

theorem Inv.run (h : Inv n s) (hn : 1 ≤ n) {events : List (Event ι)}
    (hwoken : ∀ e ∈ events, ∀ t, e ≠ .spurious t) (hrun : exec (Barrier.step n) s events = some s') :
    Inv n s' := by
  refine exec_invariant_of_mem h (fun u e u' he hinv hs => ?_) hwoken hrun
  cases e with
  | step t => exact hinv.step hn hs
  | spurious t => exact absurd rfl (he t)

/-- Whatever the threads and the interleaving: as long as every `pthread_cond_wait` returns
because of a broadcast, no call is over before all of its round have arrived. -/
theorem barrier_safe (hn : 1 ≤ n) {events : List (Event ι)}
    (hwoken : ∀ e ∈ events, ∀ t, e ≠ .spurious t) (hrun : exec (step n) .init events = some s) :
    ∀ call ∈ s.returned, ∀ k, (k - 1) * n < call → call ≤ k * n → k * n ≤ s.arrived :=
  ((Inv.init hn).run hn hwoken hrun).returned

/-- Two threads cross a barrier for two, the first to arrive being woken by the second. -/
theorem barrier_safe_two : ∃ s : State Bool,
    exec (step 2) .init ((List.replicate 5 false ++ List.replicate 8 true ++
      List.replicate 3 false).map .step) = some s ∧ s.returned = [1, 2] ∧ 2 ≤ s.arrived := by
  have hrun : (exec (step 2) (.init : State Bool) ((List.replicate 5 false ++
      List.replicate 8 true ++ List.replicate 3 false).map .step)).map State.returned =
        some [1, 2] := by
    decide
  obtain ⟨s, hs, hreturned⟩ := Option.map_eq_some_iff.mp hrun
  exact ⟨s, hs, hreturned, barrier_safe (by decide) (by decide) hs 1 (by rw [hreturned]; simp) 1
    (by decide) (by decide)⟩

/-- One of two threads waits, wakes on its own and returns before the other has come. -/
theorem spurious_returns : ∃ s : State Bool,
    exec (step 2) .init ((List.replicate 5 false).map .step ++
      [.spurious false, .step false, .step false]) = some s ∧ 1 ∈ s.returned ∧ s.arrived = 1 := by
  have hrun : (exec (step 2) (.init : State Bool) ((List.replicate 5 false).map .step ++
      [.spurious false, .step false, .step false])).map (fun s => (s.returned, s.arrived)) =
        some ([1], 1) := by
    decide
  obtain ⟨s, hs, hend⟩ := Option.map_eq_some_iff.mp hrun
  obtain ⟨hreturned, harrived⟩ := Prod.mk.inj hend
  exact ⟨s, hs, by rw [hreturned]; simp, harrived⟩

/-! ## Why nothing less will do -/

/-- Where a call waits for its round, or is about to. -/
def Pc.waits : Pc → Bool
  | .test | .wait | .sleep => true
  | _ => false

theorem Pc.eq_sleep (h : pc.waits = true) (howns : pc.owns = false) : pc = .sleep := by
  cases pc <;>
    first | rfl | exact absurd h Bool.false_ne_true | exact absurd howns.symm Bool.false_ne_true

/-- Those who wait are of the round that is going on. -/
structure Waiting (s : State ι) : Prop where
  current : ∀ t, (s.pc t).waits = true → s.arrived < s.number t + s.crossing
  reset : ∀ t, s.pc t = .reset → ∀ u, s.pc u ≠ .sleep

omit [DecidableEq ι] in
theorem Waiting.init : Waiting (State.init : State ι) where
  current := fun _ h => absurd h Bool.false_ne_true
  reset := fun _ h => absurd h (by simp [State.init])

theorem Waiting.reset_update (w : Waiting s) (hreset : pc ≠ .reset)
    (hsleep : pc = .sleep → ∀ u, s.pc u ≠ .reset) (u : ι) (hu : update s.pc t pc u = .reset)
    (v : ι) : update s.pc t pc v ≠ .sleep := by
  intro hv
  obtain ⟨-, he⟩ | ⟨-, hu⟩ := update_cases hu
  · exact hreset he
  · obtain ⟨-, he⟩ | ⟨-, hv⟩ := update_cases hv
    · exact hsleep he u hu
    · exact w.reset u hu v hv

theorem Waiting.move (w : Waiting s) {mutex : Option ι}
    (hwaits : pc.waits = true → (s.pc t).waits = true) (hreset : pc ≠ .reset)
    (hsleep : pc = .sleep → ∀ u, s.pc u ≠ .reset) :
    Waiting { s.goto t pc with mutex := mutex } where
  current := fun u hu => by
    simp only [State.goto] at hu ⊢
    by_cases hut : u = t
    · subst hut
      rw [update_self] at hu
      exact w.current u (hwaits hu)
    · rw [update_of_ne hut] at hu
      exact w.current u hu
  reset := w.reset_update hreset hsleep

theorem Waiting.leave (w : Waiting s) {mutex : Option ι} (hwaits : pc.waits = false)
    (hreset : pc ≠ .reset) : Waiting { s.goto t pc with mutex := mutex } :=
  w.move (fun he => absurd (hwaits.symm.trans he) Bool.false_ne_true) hreset
    (by rintro rfl; cases hwaits)

/-- Another call of the round has arrived. -/
theorem Waiting.enter (w : Waiting s) :
    Waiting { s.goto t .test with
      crossing := s.crossing + 1
      arrived := s.arrived + 1
      number := update s.number t (s.arrived + 1) } where
  current := fun u hu => by
    simp only [State.goto] at hu ⊢
    by_cases hut : u = t
    · rw [hut, update_self]
      omega
    · rw [update_of_ne hut] at hu ⊢
      have hcurrent := w.current u hu
      omega
  reset := w.reset_update nofun nofun

/-- Nobody sleeps after the broadcast, -/
theorem Waiting.broadcast (w : Waiting s) : Waiting { s with
    pc := update (fun u => if s.pc u = .sleep then .woken else s.pc u) t .reset } where
  current := fun u hu => by
    simp only at hu ⊢
    by_cases hut : u = t
    · rw [hut, update_self] at hu
      cases hu
    · rw [update_of_ne hut] at hu
      split at hu
      · cases hu
      · exact w.current u hu
  reset := fun _ _ v hv => by
    simp only at hv
    obtain ⟨-, he⟩ | ⟨-, hv⟩ := update_cases hv
    · cases he
    · split at hv
      · cases hv
      · rename_i hawake
        exact hawake hv

/-- so that the next round begins with nobody waiting. -/
theorem Waiting.begin (w : Waiting s) (h : Inv n s) (hpc : s.pc t = .reset) :
    Waiting { s.goto t .unlock with crossing := 0 } where
  current := fun u hu => by
    simp only [State.goto] at hu
    have howns : (s.pc t).owns = true := by rw [hpc]; rfl
    by_cases hut : u = t
    · rw [hut, update_self] at hu
      cases hu
    · rw [update_of_ne hut] at hu
      exact absurd (Pc.eq_sleep hu (h.others howns hut)) (w.reset t hpc u)
  reset := w.reset_update nofun nofun

theorem Waiting.step (w : Waiting s) (h : Inv n s) (hs : Barrier.step n s (.step t) = some s') :
    Waiting s' := by
  rw [Barrier.step] at hs
  cases hpc : s.pc t with
  | idle =>
    rw [hpc] at hs
    cases hs
    exact w.leave rfl nofun
  | lock =>
    simp only [hpc] at hs
    split at hs
    · cases hs
      exact w.leave rfl nofun
    · cases hs
  | enter =>
    rw [hpc] at hs
    cases hs
    exact w.enter
  | test =>
    rw [hpc] at hs
    cases hs
    split
    · exact w.move (fun _ => by rw [hpc]; rfl) nofun nofun
    · exact w.leave rfl nofun
  | wait =>
    rw [hpc] at hs
    cases hs
    have howns : (s.pc t).owns = true := by rw [hpc]; rfl
    refine w.move (fun _ => by rw [hpc]; rfl) nofun fun _ u hu => ?_
    by_cases hut : u = t
    · rw [hut, hpc] at hu
      cases hu
    · have hothers := h.others howns hut
      rw [hu] at hothers
      cases hothers
  | sleep =>
    rw [hpc] at hs
    cases hs
  | woken =>
    simp only [hpc] at hs
    split at hs
    · cases hs
      exact w.leave rfl nofun
    · cases hs
  | broadcast =>
    rw [hpc] at hs
    cases hs
    exact w.broadcast
  | reset =>
    rw [hpc] at hs
    cases hs
    exact w.begin h hpc
  | unlock =>
    rw [hpc] at hs
    cases hs
    exact w.leave rfl nofun
  | ret =>
    rw [hpc] at hs
    cases hs
    have hidle : Waiting (s.goto t .idle) := w.leave rfl nofun
    exact ⟨hidle.current, hidle.reset⟩

theorem Waiting.run (w : Waiting s) (h : Inv n s) (hn : 1 ≤ n) {events : List (Event ι)}
    (hwoken : ∀ e ∈ events, ∀ t, e ≠ .spurious t) (hrun : exec (Barrier.step n) s events = some s') :
    Inv n s' ∧ Waiting s' := by
  refine exec_invariant_of_mem (I := fun u => Inv n u ∧ Waiting u) ⟨h, w⟩
    (fun u e u' he hu hs => ?_) hwoken hrun
  cases e with
  | step t => exact ⟨hu.1.step hn hs, hu.2.step hu.1 hs⟩
  | spurious t => exact absurd rfl (he t)

omit [DecidableEq ι] in
/-- While nobody has the mutex, who sleeps is of a round that is not over. -/
theorem Waiting.not_over (w : Waiting s) (h : Inv n s) (hsleep : s.pc t = .sleep)
    (hfree : s.mutex = none) : ¬ RoundOver n s.arrived (s.number t) := by
  have hlt : s.crossing < n := h.lt (h.no_last hfree)
  obtain ⟨k, hk⟩ := h.rounds
  have hcurrent := w.current t (by rw [hsleep]; rfl)
  have hknown := h.known t
  rw [hsleep] at hknown
  have hcall : s.number t ≤ s.arrived := hknown
  have hround : (k + 1) * n = k * n + n := Nat.succ_mul k n
  intro hover
  have hall := hover (k + 1) (by rw [Nat.add_sub_cancel]; omega) (by omega)
  omega

/-- The first `pthread_cond_wait` to return on its own lets a call be over too early, whatever
has happened before. -/
theorem spurious_too_early (hn : 1 ≤ n) {events : List (Event ι)}
    (hwoken : ∀ e ∈ events, ∀ t, e ≠ .spurious t) (hrun : exec (step n) .init events = some s)
    (hs : step n s (.spurious t) = some s') :
    ∃ s'', exec (step n) s' [.step t, .step t] = some s'' ∧
      ∃ call ∈ s''.returned, ¬ RoundOver n s''.arrived call := by
  obtain ⟨hinv, hwaiting⟩ := Waiting.init.run (Inv.init hn) hn hwoken hrun
  rw [Barrier.step] at hs
  split at hs
  · rename_i hasleep
    obtain ⟨hsleep, hfree⟩ := hasleep
    cases hs
    refine ⟨_, by simp [exec, Barrier.step, State.goto]; rfl, s.number t, by simp, ?_⟩
    exact hwaiting.not_over hinv hsleep hfree
  · cases hs

end ConcurrentComputing.Barrier
