import ConcurrentComputing.BarrierProgress
import ConcurrentComputing.WireProgress

/-! # The barrier of the master

The handlers of the master let their clients begin when they come back from
`barrier_cross`, which each of them calls once. Unless a `pthread_cond_wait` returns on
its own, that is when all clients have come. -/

namespace ConcurrentComputing.Tcp.Wire

open Function Runs HashMap LazyList

/-- The threads at the barrier are the handlers of the master, by client. -/
structure System (κ : Type) where
  wire : State κ
  barrier : Barrier.State κ

namespace System

def init (κ : Type) : System κ := ⟨.init κ, .init⟩

inductive Event (κ : Type) where
  | wire (e : Wire.Event κ)
  /-- in the `barrier_cross` of a handler -/
  | cross (e : Barrier.Event κ)

variable {κ : Type} [DecidableEq κ]

/-- A handler that is back from `barrier_cross` goes on to `send_initialization`. -/
def leave (s : State κ) (c : κ) : State κ :=
  s.put c { s.session c with
    handler := update (s.session c).handler 0 (.stream initialization) }

def step (nodes clients : Nat) (s : System κ) : Event κ → Option (System κ)
  | .wire (.release _) => none
  | .wire e => (Wire.step nodes clients s.wire e).map fun wire => { s with wire := wire }
  | .cross e =>
    match (s.wire.session e.thread).handler 0 with
    | .barrier => (Barrier.step clients s.barrier e).map fun barrier =>
        ⟨if s.barrier.pc e.thread = .ret then leave s.wire e.thread else s.wire, barrier⟩
    | _ => none

/-! ## Steps -/

variable {nodes clients clients' : Nat} {s s' : System κ} {e : Event κ} {es more : List (Event κ)}
  {c : κ} {w w' : State κ}

/-- A step of the barrier, or one that has nothing to do with it. -/
theorem step_cases (hs : step nodes clients s e = some s') :
    (∃ e', e = .wire e' ∧ (∀ c, e' ≠ .release c) ∧
      Wire.step nodes clients s.wire e' = some s'.wire ∧ s'.barrier = s.barrier) ∨
    (∃ e', e = .cross e' ∧ (s.wire.session e'.thread).handler 0 = .barrier ∧
      Barrier.step clients s.barrier e' = some s'.barrier ∧
      s'.wire = if s.barrier.pc e'.thread = .ret then leave s.wire e'.thread else s.wire) := by
  cases e with
  | wire e' =>
    by_cases hrelease : ∃ c, e' = .release c
    · obtain ⟨c, rfl⟩ := hrelease
      cases hs
    · have hother : ∀ c, e' ≠ .release c := fun c he => hrelease ⟨c, he⟩
      rw [step] at hs
      · obtain ⟨wire, hwire, rfl⟩ := Option.map_eq_some_iff.mp hs
        exact Or.inl ⟨e', rfl, hother, hwire, rfl⟩
      · exact fun c he => hother c he
  | cross e' =>
    simp only [step] at hs
    split at hs
    · obtain ⟨barrier, hbarrier, rfl⟩ := Option.map_eq_some_iff.mp hs
      exact Or.inr ⟨e', rfl, by assumption, hbarrier, rfl⟩
    · cases hs

theorem step_wire {e : Wire.Event κ} (hother : ∀ c, e ≠ .release c) :
    step nodes clients s (.wire e) =
      (Wire.step nodes clients s.wire e).map fun wire => { s with wire := wire } := by
  rw [step]
  exact fun c he => hother c he

theorem step_cross (e : Barrier.Event κ) (hat : (s.wire.session e.thread).handler 0 = .barrier) :
    step nodes clients s (.cross e) = (Barrier.step clients s.barrier e).map fun barrier =>
      ⟨if s.barrier.pc e.thread = .ret then leave s.wire e.thread else s.wire, barrier⟩ := by
  simp only [step, hat]

/-- How many clients there are matters to nothing but the release of the handlers. -/
theorem step_clients {e : Wire.Event κ} (hother : ∀ c, e ≠ .release c) :
    Wire.step nodes clients w e = Wire.step nodes clients' w e := by
  cases e with
  | release c => exact absurd rfl (hother c)
  | connect c | call c call | clientWrite c n | clientRead c | serverRead c j
  | serverHandle c j | serverWrite c j n => rfl

theorem release_eq (hat : (w.session c).handler 0 = .barrier) (hle : clients ≤ w.connected) :
    Wire.step nodes clients w (.release c) = some (leave w c) := by
  simp only [Wire.step, hat, if_pos hle, leave]

/-! ## Whatever the barrier does -/

/-- The handlers that come back from the barrier, sooner or later, are released. -/
theorem system_simulates : Simulates (step nodes clients) (Wire.step nodes 0)
    fun (s : System κ) w => w = s.wire := by
  rintro s e s' _ rfl hs
  rcases step_cases hs with ⟨e', -, hother, hwire, -⟩ | ⟨e', -, hat, -, hwire⟩
  · have hfree : Wire.step nodes 0 s.wire e' = some s'.wire := (step_clients hother).trans hwire
    exact ⟨[e'], _, exec_cons.mpr ⟨_, hfree, rfl⟩, rfl⟩
  · split at hwire
    · exact ⟨[.release e'.thread], _,
        exec_cons.mpr ⟨_, release_eq hat (Nat.zero_le _), rfl⟩, hwire.symm⟩
    · exact ⟨[], _, rfl, hwire.symm⟩

/-- **Bytes make up lines.** However the writes of the clients and of the servers are cut
and their reads interleaved, and whenever the barrier lets a handler go, the stores and the
answers are those of a run in which every line arrives whole, and with it those of one
set. -/
theorem system_refines_lines (hn : 0 < nodes) (h : exec (step nodes clients) (init κ) es = some s)
    (hr : ∀ p ∈ s.wire.calls, p.call.InRange) : ∃ es' t,
      exec (Tcp.step nodes) (.init κ) es' = some t ∧ Refines nodes s.wire t ∧ OneSet t := by
  obtain ⟨es', _, hrun, rfl⟩ := system_simulates.run rfl h
  exact bytes_refine_lines hn hrun hr

/-- The only client connects and begins, the master writing its line in two parts, -/
def aloneBegins : List (Event Unit) :=
  .wire (.connect ()) :: List.replicate 8 (.cross (.step ())) ++
    .map .wire ([.serverWrite () 0 2, .clientRead (), .serverWrite () 0 4] ++
      List.replicate 5 (.clientRead ()))

/-- and asks for a key, in two parts as well. -/
def oneGet : List (Event Unit) :=
  .map .wire ([.call () (.get 5), .clientWrite () 3] ++ List.replicate 3 (.serverRead () 0) ++
    [.clientWrite () 0, .clientWrite () 5] ++ List.replicate 5 (.serverRead () 0) ++
    [.serverHandle () 0, .serverWrite () 0 2] ++ List.replicate 2 (.clientRead ()))

theorem system_refines_lines_get : ∃ s : System Unit,
    exec (step 1 1) (init Unit) (aloneBegins ++ oneGet) = some s ∧
      s.wire.answered.map Answered.answer = [.false] ∧
      ∃ es' t, exec (Tcp.step 1) (.init Unit) es' = some t ∧ Refines 1 s.wire t ∧ OneSet t := by
  have hrun : (exec (step 1 1) (init Unit) (aloneBegins ++ oneGet)).map (fun s =>
      (s.wire.answered.map Answered.answer, s.wire.calls.map Sent.call)) =
        some ([.false], [.get 5]) := by
    decide +kernel
  obtain ⟨s, hs, hend⟩ := Option.map_eq_some_iff.mp hrun
  obtain ⟨hanswered, hcalls⟩ := Prod.mk.inj hend
  refine ⟨s, hs, hanswered, system_refines_lines (by decide) hs fun p hp => ?_⟩
  have hmem : p.call ∈ s.wire.calls.map Sent.call := List.mem_map_of_mem hp
  rw [hcalls] at hmem
  rw [List.mem_singleton.mp hmem]
  decide

/-! ## What the barrier does -/

/-- The handler of the master is where it was, or serves the client before and after. -/
def Stays (r r' : Session) : Prop :=
  r'.handler 0 = r.handler 0 ∨ (r.handler 0).serves = true ∧ (r'.handler 0).serves = true

theorem Stays.update {r : Session} {j : Nat} {x : HandlerPc} (hold : (r.handler j).serves = true)
    (hnew : x.serves = true) {r' : Session} (hr : r'.handler = Function.update r.handler j x) :
    Stays r r' := by
  rw [Stays, hr]
  by_cases hj : 0 = j
  · subst hj
    rw [update_self]
    exact Or.inr ⟨hold, hnew⟩
  · rw [update_of_ne hj]
    exact Or.inl rfl

theorem Stays.barrier {r r' : Session} (h : Stays r r') :
    r'.handler 0 = .barrier ↔ r.handler 0 = .barrier := by
  rcases h with he | ⟨hserves, hserves'⟩
  · rw [he]
  · refine iff_of_false (fun he => ?_) fun he => ?_
    · rw [he] at hserves'
      cases hserves'
    · rw [he] at hserves
      cases hserves

/-- A step of a session outside of the barrier. -/
def Outside (s : System κ) (c : κ) (r' : Session) (s' : System κ) : Prop :=
  s'.barrier = s.barrier ∧ s'.wire.session = (s.wire.put c r').session ∧
    (Stays (s.wire.session c) r' ∧ s'.wire.connected = s.wire.connected ∨
      (s.wire.session c).handler 0 = .absent ∧ r'.handler 0 = .barrier ∧
        s'.wire.connected = s.wire.connected + 1)

/-- It leaves the handler where it is, at the barrier or not, unless it brings it there. -/
theorem outside_of_effect {e : Wire.Event κ}
    (hi : (s.wire.session c).Inv nodes clients s.wire.connected)
    (h : Effect nodes clients s.wire c (s.wire.session c) e s'.wire)
    (hother : ∀ c, e ≠ .release c) (hbarrier : s'.barrier = s.barrier) :
    ∃ r', Outside s c r' s' := by
  generalize hw : s'.wire = w' at h
  simp only [Outside, hw]
  cases h with
  | @connect made hpc hlt =>
    have habsent : (s.wire.session c).handler made = .absent := by
      by_contra hp
      exact Nat.lt_irrefl _ (((hi.present made).mp hp).2 made hpc)
    refine ⟨_, hbarrier, rfl, ?_⟩
    by_cases hm : made = 0
    · subst hm
      exact Or.inr ⟨habsent, by simp, by simp⟩
    · exact Or.inl ⟨Or.inl (update_of_ne (Ne.symm hm) _ _), if_neg hm⟩
  | release hat hle => exact absurd rfl (hother c)
  | call hpc | clientWrite hpc hle | readGreeting hpc hread | clientRead hpc hread
  | receive hpc hread hanswer => exact ⟨_, hbarrier, rfl, Or.inl ⟨Or.inl rfl, rfl⟩⟩
  | serverRead hat hread =>
    exact ⟨_, hbarrier, rfl,
      Or.inl ⟨Stays.update (by rw [hat]; rfl) (by split <;> rfl) rfl, rfl⟩⟩
  | serverHandle hat hhandle =>
    exact ⟨_, hbarrier, rfl, Or.inl ⟨Stays.update (by rw [hat]; rfl) rfl rfl, rfl⟩⟩
  | serverWrite hat hle =>
    exact ⟨_, hbarrier, rfl,
      Or.inl ⟨Stays.update (by rw [hat]; rfl) (by split <;> rfl) rfl, rfl⟩⟩

/-- The handlers that have come to the barrier of the master and whose calls of
`barrier_cross` have not been counted. -/
def Coming (s : System κ) (c : κ) : Prop :=
  (s.wire.session c).handler 0 = .barrier ∧ (s.barrier.pc c).counted = false

/-- What holds as long as every `pthread_cond_wait` returns because of a broadcast: only the
handlers that are there are in `barrier_cross`, and of the clients that have come each has
been counted or will be. -/
structure Crossing (clients : Nat) (s : System κ) : Prop where
  inv : Barrier.Inv clients s.barrier
  waiting : Barrier.Waiting s.barrier
  accounted : Barrier.Accounted s.barrier
  outside : ∀ c, (s.wire.session c).handler 0 ≠ .barrier → s.barrier.pc c = .idle
  counts : ∃ P : Finset κ, (∀ c, c ∈ P ↔ s.Coming c) ∧
    P.card + s.barrier.arrived = s.wire.connected

omit [DecidableEq κ] in
theorem Crossing.init (hn : 1 ≤ clients) : Crossing clients (System.init κ) where
  inv := .init hn
  waiting := .init
  accounted := .init
  outside _ _ := rfl
  counts := ⟨∅, fun c => iff_of_false (Finset.notMem_empty c) fun h => absurd h.1 nofun, rfl⟩

theorem Crossing.outer (h : Crossing clients s) {r' : Session} (ho : Outside s c r' s') :
    Crossing clients s' := by
  obtain ⟨hbarrier, hsession, hc⟩ := ho
  have hself : s'.wire.session c = r' := by rw [hsession]; exact update_self _ _ _
  have hothers : ∀ u, u ≠ c → s'.wire.session u = s.wire.session u := fun u hu => by
    rw [hsession]
    exact update_of_ne hu _ _
  obtain ⟨P, hP, hcard⟩ := h.counts
  refine ⟨hbarrier ▸ h.inv, hbarrier ▸ h.waiting, hbarrier ▸ h.accounted, fun u hu => ?_, ?_⟩
  · rw [hbarrier]
    refine h.outside u fun hat => hu ?_
    by_cases huc : u = c
    · subst huc
      rw [hself]
      rcases hc with ⟨hsame, -⟩ | ⟨habsent, -⟩
      · exact hsame.barrier.mpr hat
      · exact absurd (habsent.symm.trans hat) nofun
    · rw [hothers u huc]
      exact hat
  · rcases hc with ⟨hsame, hconnected⟩ | ⟨habsent, hnew, hconnected⟩
    · refine ⟨P, fun u => (hP u).trans ?_, by rw [hbarrier, hconnected, hcard]⟩
      simp only [Coming, hbarrier]
      by_cases huc : u = c
      · subst huc
        rw [hself, hsame.barrier]
      · rw [hothers u huc]
    · have hnot : c ∉ P := fun hmem => absurd (habsent.symm.trans ((hP c).mp hmem).1) nofun
      refine ⟨insert c P, fun u => ?_, ?_⟩
      · simp only [Finset.mem_insert, Coming, hbarrier]
        by_cases huc : u = c
        · subst huc
          rw [hself, h.outside u (by rw [habsent]; nofun)]
          exact iff_of_true (Or.inl rfl) ⟨hnew, rfl⟩
        · rw [hothers u huc, or_iff_right huc]
          exact hP u
      · rw [Finset.card_insert_of_notMem hnot, hbarrier, hconnected, ← hcard]
        omega

/-- A step of a handler in `barrier_cross`, or its return. -/
theorem Crossing.cross (h : Crossing clients s) (hn : 1 ≤ clients)
    (hat : (s.wire.session c).handler 0 = .barrier)
    (hs : Barrier.step clients s.barrier (.step c) = some s'.barrier)
    (hwire : s'.wire = if s.barrier.pc c = .ret then leave s.wire c else s.wire) :
    Crossing clients s' := by
  have hothers : ∀ u, u ≠ c → s'.wire.session u = s.wire.session u := fun u hu => by
    rw [hwire]
    split
    · exact update_of_ne hu _ _
    · rfl
  have hcounted : ∀ u, u ≠ c → (s'.barrier.pc u).counted = (s.barrier.pc u).counted := by
    intro u hu
    rcases Barrier.step_others hs hu with he | ⟨hsleep, hwoken⟩
    · rw [he]
    · rw [hsleep, hwoken]
      rfl
  obtain ⟨P, hP, hcard⟩ := h.counts
  have hrest : ∀ u, u ≠ c → (u ∈ P ↔ s'.Coming u) := by
    intro u hu
    rw [hP u, Coming, Coming, hothers u hu, hcounted u hu]
  have houtside : ∀ u, u ≠ c → (s'.wire.session u).handler 0 ≠ .barrier →
      s'.barrier.pc u = .idle := by
    intro u hu hnot
    rw [hothers u hu] at hnot
    have hidle := h.outside u hnot
    rcases Barrier.step_others hs hu with he | ⟨hsleep, -⟩
    · rw [he, hidle]
    · exact absurd (hidle.symm.trans hsleep) nofun
  refine ⟨h.inv.step hn hs, h.waiting.step h.inv hs, h.accounted.step hs, fun u hu => ?_, ?_⟩
  · by_cases huc : u = c
    · subst huc
      rcases Barrier.step_counted hs with ⟨henter, -⟩ | ⟨-, hidle, -⟩ | ⟨hret, -⟩
      · rw [hwire, if_neg (by rw [henter]; nofun)] at hu
        exact absurd hat hu
      · exact hidle
      · rw [hwire, if_neg hret] at hu
        exact absurd hat hu
    · exact houtside u huc hu
  · rcases Barrier.step_counted hs with ⟨henter, hnow, harrived⟩ | ⟨hret, -, harrived⟩ |
      ⟨hret, -, hsame, harrived⟩
    · -- it is counted
      have hsame : s'.wire = s.wire := by rw [hwire, if_neg (by rw [henter]; nofun)]
      have hmem : c ∈ P := (hP c).mpr ⟨hat, by rw [henter]; rfl⟩
      refine ⟨P.erase c, fun u => ?_, ?_⟩
      · by_cases huc : u = c
        · subst huc
          exact iff_of_false (Finset.notMem_erase u P) fun hcoming =>
            absurd (hnow.symm.trans hcoming.2) nofun
        · rw [Finset.mem_erase, and_iff_right huc, hrest u huc]
      · have hpos := Finset.card_pos.mpr ⟨c, hmem⟩
        rw [Finset.card_erase_of_mem hmem, harrived, hsame, ← hcard]
        omega
    · -- it leaves, and has been counted before
      refine ⟨P, fun u => ?_, by rw [harrived, hcard, hwire, if_pos hret]; rfl⟩
      by_cases huc : u = c
      · subst huc
        refine iff_of_false (fun hmem => ?_) fun hcoming => ?_
        · have hnot := ((hP u).mp hmem).2
          rw [hret] at hnot
          cases hnot
        · have hstill := hcoming.1
          rw [hwire, if_pos hret] at hstill
          simp [leave, State.put] at hstill
      · exact hrest u huc
    · have hwire' : s'.wire = s.wire := by rw [hwire, if_neg hret]
      refine ⟨P, fun u => ?_, by rw [harrived, hcard, hwire']⟩
      by_cases huc : u = c
      · subst huc
        rw [hP u, Coming, Coming, hwire', hsame]
      · exact hrest u huc

omit [DecidableEq κ] in
/-- Who comes back from the barrier knows that all have come. -/
theorem Crossing.all_come (h : Crossing clients s) (hn : 1 ≤ clients)
    (hret : s.barrier.pc c = .ret) : clients ≤ s.wire.connected := by
  have hknown := h.inv.known c
  rw [hret] at hknown
  obtain ⟨hlo, -⟩ := h.accounted.bounds c (by rw [hret]; rfl)
  obtain ⟨P, -, hcard⟩ := h.counts
  have hle := Barrier.RoundOver.le hknown hn hlo
  omega

/-- It is a state of the system in which the handlers are released once all clients have
come. -/
def Follows (nodes clients : Nat) (s : System κ) : Prop :=
  Crossing clients s ∧ ∃ es, exec (Wire.step nodes clients) (.init κ) es = some s.wire

theorem Follows.step (h : Follows nodes clients s) (hn : 0 < nodes) (hclients : 1 ≤ clients)
    (hwoken : ∀ c, e ≠ .cross (.spurious c)) (hs : System.step nodes clients s e = some s') :
    Follows nodes clients s' := by
  obtain ⟨hcrossing, es, hrun⟩ := h
  rcases step_cases hs with ⟨e', -, hother, hwire, hbarrier⟩ | ⟨e', rfl, hat, hcross, hwire⟩
  · obtain ⟨r', ho⟩ := outside_of_effect ((reachable hn hrun).1 _) (step_effect hwire) hother
      hbarrier
    exact ⟨hcrossing.outer ho, _, exec_snoc.mpr ⟨_, hrun, hwire⟩⟩
  · cases e' with
    | spurious c => exact absurd rfl (hwoken c)
    | step c =>
      change s'.wire = if s.barrier.pc c = .ret then leave s.wire c else s.wire at hwire
      refine ⟨hcrossing.cross hclients hat hcross hwire, ?_⟩
      by_cases hret : s.barrier.pc c = .ret
      · rw [if_pos hret] at hwire
        exact ⟨_, exec_snoc.mpr ⟨_, hrun,
          (release_eq hat (hcrossing.all_come hclients hret)).trans (congrArg some hwire.symm)⟩⟩
      · rw [if_neg hret] at hwire
        exact ⟨es, by rw [hwire, hrun]⟩

/-- As long as no wait returns on its own. -/
theorem run_follows (hn : 0 < nodes) (hclients : 1 ≤ clients)
    (hwoken : ∀ e ∈ es, ∀ c, e ≠ .cross (.spurious c))
    (h : exec (step nodes clients) (init κ) es = some s) : Follows nodes clients s :=
  exec_invariant_of_mem (I := Follows nodes clients) ⟨.init hclients, [], rfl⟩
    (fun _ _ _ he hu hs => hu.step hn hclients he hs) hwoken h

/-- Who makes a call, or has made one, is not the first to come: all have. -/
theorem calls_after_all_connected [Fintype κ] (hn : 0 < nodes)
    (hwoken : ∀ e ∈ es, ∀ c, e ≠ .cross (.spurious c))
    (h : exec (step nodes (Fintype.card κ)) (init κ) es = some s)
    (hbegun : (s.wire.session c).pc.begun = true) (c' : κ) :
    (s.wire.session c').handler 0 ≠ .absent := by
  have hclients : 1 ≤ Fintype.card κ := Fintype.card_pos_iff.mpr ⟨c⟩
  obtain ⟨-, es', hrun⟩ := run_follows hn hclients hwoken h
  exact begun_after_all hn hrun hbegun c'

/-- Two clients of one server: the handler of the first sleeps until that of the second has
come, and the first is ready to call when the second has yet to read that it is. -/
def firstBegins : List (Event Bool) :=
  [.wire (.connect false), .wire (.connect true)] ++
    (List.replicate 5 false ++ List.replicate 8 true ++ List.replicate 3 false).map
      (fun c => .cross (.step c)) ++
    .wire (.serverWrite false 0 6) :: List.replicate 6 (.wire (.clientRead false))

theorem calls_after_both_connected : ∃ s : System Bool,
    exec (step 1 2) (init Bool) firstBegins = some s ∧
      (s.wire.session true).pc.begun = false ∧ (s.wire.session true).handler 0 ≠ .absent := by
  have hrun : (exec (step 1 2) (init Bool) firstBegins).map (fun s =>
      ((s.wire.session false).pc.begun, (s.wire.session true).pc.begun)) = some (true, false) := by
    decide +kernel
  obtain ⟨s, hs, hend⟩ := Option.map_eq_some_iff.mp hrun
  obtain ⟨hfirst, hsecond⟩ := Prod.mk.inj hend
  exact ⟨s, hs, hsecond,
    calls_after_all_connected (by decide) (by simp [firstBegins]) hs hfirst true⟩

/-- Its wait having returned on its own, the first begins before the second has come. -/
theorem spurious_begins : ∃ s : System Bool,
    exec (step 1 2) (init Bool) (.wire (.connect false) ::
      List.replicate 5 (.cross (.step false)) ++ .cross (.spurious false) ::
      List.replicate 2 (.cross (.step false)) ++ .wire (.serverWrite false 0 6) ::
      List.replicate 6 (.wire (.clientRead false))) = some s ∧
    (s.wire.session false).pc.begun = true ∧ (s.wire.session true).handler 0 = .absent := by
  have hrun : (exec (step 1 2) (init Bool) (.wire (.connect false) ::
      List.replicate 5 (.cross (.step false)) ++ .cross (.spurious false) ::
      List.replicate 2 (.cross (.step false)) ++ .wire (.serverWrite false 0 6) ::
      List.replicate 6 (.wire (.clientRead false)))).map (fun s =>
        ((s.wire.session false).pc.begun, ((s.wire.session true).handler 0).come)) =
          some (true, 0) := by
    decide +kernel
  obtain ⟨s, hs, hend⟩ := Option.map_eq_some_iff.mp hrun
  obtain ⟨hfirst, hsecond⟩ := Prod.mk.inj hend
  refine ⟨s, hs, hfirst, by_contra fun hcome => ?_⟩
  rw [HandlerPc.come_eq.mpr hcome] at hsecond
  cases hsecond

/-! ## What is left to do -/

/-- All but the calls, the writes that are interrupted and the waits that return on their
own. -/
def Event.Proceeds : Event κ → Prop
  | .wire e => e.Proceeds
  | .cross (.step _) => True
  | .cross (.spurious _) => False

omit [DecidableEq κ] in
theorem Event.Proceeds.woken (hp : e.Proceeds) (c : κ) : e ≠ .cross (.spurious c) := by
  rintro rfl
  exact hp

/-- How much of its `barrier_cross` a handler has before it. -/
def crossLeft : HandlerPc → Barrier.Pc → Nat
  | .absent, _ => 11
  | .barrier, .idle => 11
  | .barrier, pc => pc.left
  | _, _ => 0

theorem crossLeft_le (x : HandlerPc) (pc : Barrier.Pc) : crossLeft x pc ≤ 11 := by
  cases x with
  | barrier => cases pc <;> decide
  | absent | stream rest | line m | handle m => simp [crossLeft]

theorem crossLeft_serves {x : HandlerPc} (h : x.serves = true) (pc : Barrier.Pc) :
    crossLeft x pc = 0 := by
  cases x with
  | absent | barrier => cases h
  | stream rest | line m | handle m => rfl

theorem crossLeft_barrier {pc : Barrier.Pc} (h : pc ≠ .idle) :
    crossLeft .barrier pc = pc.left := by
  cases pc with
  | idle => exact absurd rfl h
  | lock | enter | test | wait | sleep | woken | broadcast | reset | unlock | ret => rfl

/-- To be woken brings a thread nearer to the end of its call. -/
theorem crossLeft_woken {pc pc' : Barrier.Pc} (h : pc' = pc ∨ (pc = .sleep ∧ pc' = .woken))
    (x : HandlerPc) : crossLeft x pc' ≤ crossLeft x pc := by
  rcases h with rfl | ⟨rfl, rfl⟩
  · exact le_rfl
  · cases x with
    | barrier => decide
    | absent | stream rest | line m | handle m => exact le_rfl

theorem crossLeft_self {b b' : Barrier.State κ} (hs : Barrier.step clients b (.step c) = some b')
    (hret : b.pc c ≠ .ret) : crossLeft .barrier (b'.pc c) < crossLeft .barrier (b.pc c) := by
  have hnext : b'.pc c ≠ .idle := by
    rcases Barrier.step_counted hs with ⟨-, hcounted, -⟩ | ⟨hstop, -⟩ | ⟨-, hnext, -⟩
    · intro hidle
      rw [hidle] at hcounted
      cases hcounted
    · exact absurd hstop hret
    · exact hnext
  rw [crossLeft_barrier hnext]
  by_cases hidle : b.pc c = .idle
  · rw [hidle]
    exact Nat.lt_succ_of_le (Barrier.Pc.left_le _)
  · rw [crossLeft_barrier hidle]
    exact (Barrier.step_left hidle hs c).2

theorem Outside.crossLeft {r' : Session} (ho : Outside s c r' s') (h : Crossing clients s) (u : κ) :
    crossLeft ((s'.wire.session u).handler 0) (s'.barrier.pc u) ≤
      crossLeft ((s.wire.session u).handler 0) (s.barrier.pc u) := by
  obtain ⟨hbarrier, hsession, hc⟩ := ho
  rw [hbarrier, hsession]
  by_cases huc : u = c
  · subst huc
    rw [show (s.wire.put u r').session u = r' from update_self _ _ _]
    rcases hc with ⟨he | ⟨-, hserves⟩, -⟩ | ⟨habsent, hnew, -⟩
    · rw [he]
    · rw [crossLeft_serves hserves]
      exact Nat.zero_le _
    · rw [habsent, hnew, h.outside u (by rw [habsent]; nofun)]
      exact le_rfl
  · rw [show (s.wire.put c r').session u = s.wire.session u from update_of_ne huc _ _]

section

variable [Fintype κ]

def left (nodes : Nat) (s : System κ) : Nat :=
  s.wire.left nodes + ∑ c, crossLeft ((s.wire.session c).handler 0) (s.barrier.pc c)

theorem left_lt (h : Follows nodes clients s) (hn : 0 < nodes) (hclients : 1 ≤ clients)
    (hs : step nodes clients s e = some s') (hp : e.Proceeds) : s'.left nodes < s.left nodes := by
  obtain ⟨hcrossing, es, hrun⟩ := h
  obtain ⟨hi, -⟩ := reachable hn hrun
  have hwire_lt : ∀ {e : Wire.Event κ}, e.Proceeds →
      Wire.step nodes clients s.wire e = some s'.wire → s'.wire.left nodes < s.wire.left nodes := by
    intro e hp hs
    have hle := run_left hn hi (exec_cons.mpr ⟨_, hs, rfl⟩) (List.forall_mem_singleton.mpr hp)
    rw [List.length_singleton] at hle
    omega
  unfold left
  rcases step_cases hs with ⟨e', rfl, hother, hwire, hbarrier⟩ | ⟨e', rfl, hat, hcross, hwire⟩
  · obtain ⟨r', ho⟩ := outside_of_effect (hi _) (step_effect hwire) hother hbarrier
    exact Nat.add_lt_add_of_lt_of_le (hwire_lt hp hwire)
      (Finset.sum_le_sum fun u _ => ho.crossLeft hcrossing u)
  · cases e' with
    | spurious c => exact hp.elim
    | step c =>
      change (s.wire.session c).handler 0 = .barrier at hat
      change s'.wire = if s.barrier.pc c = .ret then leave s.wire c else s.wire at hwire
      by_cases hret : s.barrier.pc c = .ret
      · rw [if_pos hret] at hwire
        have hrelease : Wire.step nodes clients s.wire (.release c) = some (leave s.wire c) :=
          release_eq hat (hcrossing.all_come hclients hret)
        rw [← hwire] at hrelease
        refine Nat.add_lt_add_of_lt_of_le (hwire_lt (e := .release c) trivial hrelease)
          (Finset.sum_le_sum fun u _ => ?_)
        by_cases huc : u = c
        · subst huc
          rw [crossLeft_serves (by rw [hwire]; simp [leave, State.put, HandlerPc.serves])]
          exact Nat.zero_le _
        · rw [hwire, show (leave s.wire c).session u = s.wire.session u from update_of_ne huc _ _]
          exact crossLeft_woken (Barrier.step_others hcross huc) _
      · rw [if_neg hret] at hwire
        rw [hwire]
        refine Nat.add_lt_add_left (Finset.sum_lt_sum (fun u _ => ?_) ⟨c, Finset.mem_univ c, ?_⟩) _
        · by_cases huc : u = c
          · rw [huc, hat]
            exact (crossLeft_self hcross hret).le
          · exact crossLeft_woken (Barrier.step_others hcross huc) _
        · rw [hat]
          exact crossLeft_self hcross hret

theorem run_left (h : Follows nodes clients s) (hn : 0 < nodes) (hclients : 1 ≤ clients)
    (hmore : exec (step nodes clients) s more = some s') (hp : ∀ e ∈ more, e.Proceeds) :
    more.length + s'.left nodes ≤ s.left nodes := by
  induction more generalizing s with
  | nil =>
    cases hmore
    exact (Nat.zero_add _).le
  | cons e more ih =>
    obtain ⟨u, hs, hafter⟩ := exec_cons.mp hmore
    have he := hp e List.mem_cons_self
    have hlt := left_lt h hn hclients hs he
    have hrest := ih (h.step hn hclients he.woken hs) hafter fun x hx =>
      hp x (List.mem_cons_of_mem _ hx)
    rw [List.length_cons]
    omega

theorem left_le (h : Follows nodes clients s) (hn : 0 < nodes)
    (hr : ∀ p ∈ s.wire.calls, p.call.InRange) :
    s.left nodes ≤ Fintype.card κ * (nodes + 74) := by
  obtain ⟨-, es, hrun⟩ := h
  have hwire := left_bound hn hrun hr
  have hcross : ∑ c, crossLeft ((s.wire.session c).handler 0) (s.barrier.pc c) ≤ ∑ _ : κ, 11 :=
    Finset.sum_le_sum fun _ _ => crossLeft_le _ _
  rw [Finset.sum_const, Finset.card_univ, nsmul_eq_mul, Nat.cast_id] at hcross
  rw [left, show nodes + 74 = nodes + 63 + 11 by omega, Nat.mul_add]
  omega

/-! ## Somebody can go on -/

/-- When all clients have come nobody is left at the barrier. -/
theorem Crossing.can_cross (h : Crossing clients s)
    (hall : s.wire.connected = clients) (hat : (s.wire.session c).handler 0 = .barrier) :
    ∃ u, step nodes clients s (.cross (.step u)) ≠ none := by
  by_contra hnone
  have hstuck : ∀ u, (s.wire.session u).handler 0 = .barrier →
      Barrier.step clients s.barrier (.step u) = none := by
    intro u hu
    by_contra hsome
    refine hnone ⟨u, ?_⟩
    rw [step_cross (.step u) hu, ne_eq, Option.map_eq_none_iff]
    exact hsome
  have hthere : ∀ u, s.barrier.pc u ≠ .idle → (s.wire.session u).handler 0 = .barrier :=
    fun u hu => by_contra fun hnot => hu (h.outside u hnot)
  obtain ⟨hfree, hrest⟩ := h.inv.stuck fun u hu => hstuck u (hthere u hu)
  have hsleep : ∀ u, (s.wire.session u).handler 0 = .barrier → s.barrier.pc u = .sleep := by
    refine fun u hu => (hrest u).resolve_left fun hidle => ?_
    have hstep := hstuck u hu
    rw [Barrier.step, hidle] at hstep
    cases hstep
  -- so all of the calls have been counted, and fill the round
  obtain ⟨P, hP, hcard⟩ := h.counts
  have hnobody : P = ∅ := Finset.eq_empty_of_forall_notMem fun u hu => by
    obtain ⟨hu, hcounted⟩ := (hP u).mp hu
    rw [hsleep u hu] at hcounted
    cases hcounted
  have hfull : s.barrier.arrived = 1 * clients := by
    rw [hnobody, Finset.card_empty] at hcard
    omega
  have hcall := h.inv.known c
  rw [hsleep c hat] at hcall
  exact h.waiting.not_over h.inv (hsleep c hat) hfree (Barrier.roundOver_of_full ⟨1, hfull⟩ hcall)

/-- Unless all clients are between two calls, some thread can go on. -/
theorem Follows.can_proceed (h : Follows nodes (Fintype.card κ) s) (hn : 0 < nodes)
    (hr : ∀ p ∈ s.wire.calls, p.call.InRange) (hc : (s.wire.session c).pc ≠ .idle) :
    ∃ e : Event κ, e.Proceeds ∧ System.step nodes (Fintype.card κ) s e ≠ none := by
  obtain ⟨hcrossing, es, hrun⟩ := h
  obtain ⟨e, hp, hstep⟩ := run_can_proceed hn hrun hr hc
  by_cases hrelease : ∃ u, e = .release u
  · obtain ⟨u, rfl⟩ := hrelease
    simp only [Wire.step] at hstep
    split at hstep
    · rename_i hat
      split at hstep
      · rename_i hall
        have hcome : s.wire.connected ≤ ∑ _ : κ, 1 := by
          rw [run_connected hn hrun]
          exact Finset.sum_le_sum fun _ _ => HandlerPc.come_le _
        rw [Finset.sum_const, Finset.card_univ, nsmul_eq_mul, Nat.cast_id, Nat.mul_one] at hcome
        obtain ⟨v, hv⟩ := hcrossing.can_cross (le_antisymm hcome hall) hat
        exact ⟨.cross (.step v), trivial, hv⟩
      · exact absurd rfl hstep
    · exact absurd rfl hstep
  · refine ⟨.wire e, hp, ?_⟩
    rw [step_wire fun u hu => hrelease ⟨u, hu⟩, ne_eq, Option.map_eq_none_iff]
    exact hstep

end

def Event.client : Event κ → κ
  | .wire e => e.client
  | .cross e => e.thread

end System

end ConcurrentComputing.Tcp.Wire
