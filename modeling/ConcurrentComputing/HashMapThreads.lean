import ConcurrentComputing.ConcurrentHashMap
import ConcurrentComputing.LazyListLinear
import ConcurrentComputing.LazyListRest
import ConcurrentComputing.Locality

/-! # The hash map in the hands of any threads

`ConcurrentHashMap.cpp` again, one shared access a step. A call stays in the list of
its key; what the threads do to one list is a run of that list, by a clock that counts
the steps in it. So the orders of the lists make one order of the map. -/

namespace ConcurrentComputing.HashMap

open Function Runs LazyList ConcurrentComputing.Sequential

/-- The clock counts the steps taken; nothing but the records of calls reads it. -/
structure State (ι : Type) where
  buckets : Nat
  map : Nat → Memory ι
  thread : ι → Option (Running ι)
  returned : List (Returned ι)
  clock : Nat

variable {ι : Type} [DecidableEq ι]

def start (buckets : Nat) : State ι := ⟨buckets, fun _ => .new, fun _ => none, [], 0⟩

/-- The state after thread `i` has made an access to list `b`. -/
def State.proceed (s : State ι) (i : ι) (r : Running ι) (b : Nat) (m : Memory ι) :
    Outcome → State ι
  | .goto pc =>
    ⟨s.buckets, update s.map b m, update s.thread i (some ⟨r.call, pc⟩), s.returned, s.clock + 1⟩
  | .answer result =>
    ⟨s.buckets, update s.map b m, update s.thread i none,
      s.returned ++ [⟨r.call, result, s.clock + 1⟩], s.clock + 1⟩

/-- A call needs buckets, and the number of its own has to be an `int`. -/
def step (s : State ι) : Event ι → Option (State ι)
  | .call i op =>
    match s.thread i with
    | none =>
      if 0 < s.buckets ∧ (translate op.key s.buckets : Int) ≤ intMax then some { s with
        thread := update s.thread i (some ⟨⟨i, op, s.clock + 1⟩, op.start⟩)
        clock := s.clock + 1 }
      else none
    | some _ => none
  | .next i =>
    match s.thread i with
    | none => none
    | some r =>
      (advance (s.map (translate r.call.op.key s.buckets)) i r.call.op r.pc).map fun (m, o) =>
        s.proceed i r (translate r.call.op.key s.buckets) m o

variable {s s' u : State ι} {es : List (Event ι)} {e : Event ι} {i : ι} {r : Running ι}
  {buckets b n : Nat} {β : Nat → Nat}

theorem step_cases (h : step s e = some s') :
    (∃ i op, e = .call i op ∧ s.thread i = none ∧ s' = { s with
      thread := update s.thread i (some ⟨⟨i, op, s.clock + 1⟩, op.start⟩)
      clock := s.clock + 1 }) ∨
    ∃ i r m o, e = .next i ∧ s.thread i = some r ∧
      advance (s.map (translate r.call.op.key s.buckets)) i r.call.op r.pc = some (m, o) ∧
      s' = s.proceed i r (translate r.call.op.key s.buckets) m o := by
  cases e with
  | call i op =>
    simp only [step] at h
    split at h
    · rename_i hi
      split at h
      · cases h
        exact Or.inl ⟨i, op, rfl, hi, rfl⟩
      · cases h
    · cases h
  | next i =>
    simp only [step] at h
    split at h
    · cases h
    · rename_i r hr
      obtain ⟨⟨m, o⟩, hadv, rfl⟩ := Option.map_eq_some_iff.mp h
      exact Or.inr ⟨i, r, m, o, rfl, hr, hadv, rfl⟩

/-! ## One list -/

/-- The list that a step is in. -/
def State.visits (s : State ι) : Event ι → Nat
  | .call _ op => translate op.key s.buckets
  | .next i => (s.thread i).elim 0 fun r => translate r.call.op.key s.buckets

/-- The call by the clock of a list. -/
def localCall (β : Nat → Nat) (b : Nat) (c : Call ι) : Call ι :=
  { c with called := ticks β b c.called }

def localRunning (β : Nat → Nat) (buckets b : Nat) (r : Running ι) : Option (Running ι) :=
  if translate r.call.op.key buckets = b then some ⟨localCall β b r.call, r.pc⟩ else none

def localReturned (β : Nat → Nat) (buckets b : Nat) (r : Returned ι) : Option (Returned ι) :=
  if translate r.call.op.key buckets = b then
    some ⟨localCall β b r.call, r.answer, ticks β b r.returned⟩
  else none

/-- One list with the calls that are in it. -/
def State.list (s : State ι) (β : Nat → Nat) (b : Nat) : LazyList.State ι :=
  ⟨s.map b, fun i => (s.thread i).bind (localRunning β s.buckets b),
    s.returned.filterMap (localReturned β s.buckets b), ticks β b s.clock⟩

omit [DecidableEq ι] in
theorem list_mem (s : State ι) (β : Nat → Nat) (b : Nat) : (s.list β b).mem = s.map b := rfl

theorem update_bind (f : ι → Option (Running ι)) (i : ι) (x : Option (Running ι))
    (g : Running ι → Option (Running ι)) :
    (fun j => (update f i x j).bind g) = update (fun j => (f j).bind g) i (x.bind g) :=
  Function.comp_update (fun y : Option (Running ι) => y.bind g) f i x

/-- A step in the list is a step of the list. -/
theorem step_list (h : step s e = some s') (hβ : β s.clock = s.visits e) :
    LazyList.step (s.list β (s.visits e)) e = some (s'.list β (s.visits e)) := by
  have hclock : ticks β (s.visits e) (s.clock + 1) = ticks β (s.visits e) s.clock + 1 :=
    hβ ▸ ticks_succ_self β s.clock
  rcases step_cases h with ⟨i, op, rfl, hi, rfl⟩ | ⟨i, r, m, o, rfl, hr, hadv, rfl⟩
  · have hnone : (s.list β (s.visits (.call i op))).thread i = none := by
      dsimp only [State.list]
      rw [hi, Option.bind_none]
    simp only [LazyList.step, hnone]
    change _ = some (State.list ⟨s.buckets, _, _, _, _⟩ β (translate op.key s.buckets))
    have hclock : ticks β (translate op.key s.buckets) (s.clock + 1) =
      ticks β (translate op.key s.buckets) s.clock + 1 := hclock
    simp only [State.visits, State.list, update_bind, Option.bind_some, localRunning, if_true,
      localCall, hclock]
  · have hb : s.visits (.next i) = translate r.call.op.key s.buckets := by
      rw [State.visits, hr]
      rfl
    rw [hb] at hclock ⊢
    have hsome : (s.list β (translate r.call.op.key s.buckets)).thread i =
        some ⟨localCall β (translate r.call.op.key s.buckets) r.call, r.pc⟩ := by
      dsimp only [State.list]
      rw [hr, Option.bind_some, localRunning, if_pos rfl]
    simp only [LazyList.step, hsome]
    rw [list_mem]
    change (advance (s.map (translate r.call.op.key s.buckets)) i r.call.op r.pc).map _ = _
    rw [hadv, Option.map_some]
    cases o with
    | goto pc =>
      simp only [State.proceed, LazyList.State.proceed, State.list, update_bind, update_self,
        Option.bind_some, localRunning, if_true, hclock]
    | answer result =>
      simp only [State.proceed, LazyList.State.proceed, State.list, update_bind, update_self,
        Option.bind_none, List.filterMap_append, List.filterMap_cons, List.filterMap_nil,
        localReturned, if_true, hclock]

/-- A step in another list leaves this one as it is. -/
theorem step_other (h : step s e = some s') (hβ : β s.clock = s.visits e) (hb : s.visits e ≠ b) :
    s'.list β b = s.list β b := by
  have hclock : ticks β b (s.clock + 1) = ticks β b s.clock := ticks_succ_of_ne (hβ ▸ hb)
  rcases step_cases h with ⟨i, op, rfl, hi, rfl⟩ | ⟨i, r, m, o, rfl, hr, hadv, rfl⟩
  · have hsame : update (fun j => (s.thread j).bind (localRunning β s.buckets b)) i none =
        fun j => (s.thread j).bind (localRunning β s.buckets b) :=
      update_eq_self_iff.mpr (by rw [hi, Option.bind_none])
    have hne : translate op.key s.buckets ≠ b := hb
    simp only [State.list, update_bind, Option.bind_some, localRunning, if_neg hne, hclock]
    rw [hsame]
  · have hne : translate r.call.op.key s.buckets ≠ b := by
      rwa [State.visits, hr] at hb
    have hsame : update (fun j => (s.thread j).bind (localRunning β s.buckets b)) i none =
        fun j => (s.thread j).bind (localRunning β s.buckets b) :=
      update_eq_self_iff.mpr (by rw [hr, Option.bind_some, localRunning, if_neg hne])
    cases o with
    | goto pc =>
      simp only [State.proceed, State.list, update_bind, update_of_ne hne.symm, Option.bind_some,
        localRunning, if_neg hne, hclock]
      rw [hsame]
    | answer result =>
      simp only [State.proceed, State.list, update_bind, update_of_ne hne.symm, Option.bind_none,
        List.filterMap_append, List.filterMap_cons, List.filterMap_nil, localReturned, if_neg hne,
        hclock]
      rw [hsame, List.append_nil]

/-! ## Runs -/

/-- The lists that the steps of a run are in. -/
def Visits (β : Nat → Nat) (buckets : Nat) (es : List (Event ι)) : Prop :=
  ∀ n u e, At step (start buckets) es n u → es[n]? = some e → β n = u.visits e

theorem exists_visits (buckets : Nat) (es : List (Event ι)) : ∃ β, Visits β buckets es := by
  refine ⟨fun n => ((exec step (start buckets) (es.take n)).bind fun u =>
    es[n]?.map u.visits).getD 0, fun n u e hu he => ?_⟩
  dsimp only
  rw [hu.2, he]
  rfl

theorem Visits.init (h : Visits β buckets (es ++ [e])) : Visits β buckets es := by
  intro n u e' hu he
  have hlt : n < es.length := (List.getElem?_eq_some_iff.mp he).1
  exact h n u e' ((at_snoc hlt.le).mpr hu) (by rwa [List.getElem?_append_left hlt])

theorem Visits.last (h : Visits β buckets (es ++ [e]))
    (hrun : exec step (start buckets) es = some s) : β es.length = s.visits e :=
  h _ _ _ ((at_snoc le_rfl).mpr (at_length hrun)) List.getElem?_concat_length

/-- A call made by a step of the run that is in its list. -/
def Made (β : Nat → Nat) (buckets : Nat) (now : Nat) (c : Call ι) : Prop :=
  ∃ n < now, c.called = n + 1 ∧ β n = translate c.op.key buckets

structure Recorded (β : Nat → Nat) (buckets : Nat) (es : List (Event ι)) (s : State ι) : Prop where
  ongoing : ∀ i r, s.thread i = some r → Made β buckets es.length r.call
  finished : ∀ r ∈ s.returned, Made β buckets es.length r.call ∧ r.returned ≤ es.length

omit [DecidableEq ι] in
theorem Made.later {now : Nat} {c : Call ι} (h : Made β buckets n c) (hn : n ≤ now) :
    Made β buckets now c := by
  obtain ⟨k, hk, hmade⟩ := h
  exact ⟨k, hk.trans_le hn, hmade⟩

theorem run_fixed (h : exec step (start buckets) es = some s) :
    s.buckets = buckets ∧ s.clock = es.length := by
  refine exec_induction (motive := fun (es : List (Event ι)) s =>
    s.buckets = buckets ∧ s.clock = es.length) ⟨rfl, rfl⟩ (fun es v e s' _ ih hs => ?_) h
  obtain ⟨hbuckets, hclock⟩ := ih
  rw [List.length_append, List.length_singleton, ← hclock]
  rcases step_cases hs with ⟨i, op, _, _, rfl⟩ | ⟨i, r, m, o, _, _, _, rfl⟩
  · exact ⟨hbuckets, rfl⟩
  · cases o <;> exact ⟨hbuckets, rfl⟩

theorem run_recorded (h : exec step (start buckets) es = some s) (hβ : Visits β buckets es) :
    Recorded β buckets es s := by
  refine exec_induction (motive := fun es s => Visits β buckets es → Recorded β buckets es s)
    (fun _ => ⟨fun _ _ hr => (by cases hr), fun _ hr => (by cases hr)⟩)
    (fun es v e s' hv ih hs hβ => ?_) h hβ
  obtain ⟨hongoing, hfinished⟩ := ih hβ.init
  obtain ⟨hbuckets, hclock⟩ := run_fixed hv
  have hlast := hβ.last hv
  have hlen : (es ++ [e]).length = es.length + 1 := by simp
  have hle : es.length ≤ (es ++ [e]).length := hlen ▸ Nat.le_succ _
  have hold : ∀ r ∈ v.returned, Made β buckets (es ++ [e]).length r.call ∧
      r.returned ≤ (es ++ [e]).length :=
    fun r hr => ⟨(hfinished r hr).1.later hle, (hfinished r hr).2.trans hle⟩
  rcases step_cases hs with ⟨i, op, rfl, _, rfl⟩ | ⟨i, r, m, o, rfl, hr, _, rfl⟩
  · refine ⟨fun j r hj => ?_, hold⟩
    rcases update_thread hj with ⟨_, rfl⟩ | ⟨_, hj⟩
    · exact ⟨es.length, hlen ▸ Nat.lt_succ_self _, by rw [hclock], hbuckets ▸ hlast⟩
    · exact (hongoing j r hj).later hle
  · have hmade := (hongoing i r hr).later hle
    cases o with
    | goto pc =>
      refine ⟨fun j r' hj => ?_, hold⟩
      rcases update_thread hj with ⟨_, rfl⟩ | ⟨_, hj⟩
      · exact hmade
      · exact (hongoing j r' hj).later hle
    | answer result =>
      refine ⟨fun j r' hj => ?_, fun r' hr' => ?_⟩
      · rcases update_cases hj with ⟨_, hnone⟩ | ⟨_, hj⟩
        · cases hnone
        · exact (hongoing j r' hj).later hle
      · rcases List.mem_append.mp hr' with hr' | hr'
        · exact hold r' hr'
        · rw [List.mem_singleton.mp hr']
          exact ⟨hmade, by rw [hlen, hclock]⟩

/-- What the threads do to one list is a run of it, which is in step with the map's. -/
theorem run_list (h : exec step (start buckets) es = some s) (hβ : Visits β buckets es) (b : Nat) :
    ∃ fs, exec LazyList.step LazyList.start fs = some (s.list β b) ∧ (Plain es → Plain fs) ∧
      ∀ n u, At step (start buckets) es n u →
        At LazyList.step LazyList.start fs (ticks β b n) (u.list β b) := by
  refine exec_induction (motive := fun es s => Visits β buckets es →
    ∃ fs, exec LazyList.step LazyList.start fs = some (s.list β b) ∧ (Plain es → Plain fs) ∧
      ∀ n u, At step (start buckets) es n u →
        At LazyList.step LazyList.start fs (ticks β b n) (u.list β b))
    (fun _ => ?_) (fun es v e s' hv ih hs hβ => ?_) h hβ
  · refine ⟨[], rfl, fun _ => nofun, fun n u hu => ?_⟩
    obtain rfl := Nat.le_zero.mp hu.1
    rw [hu.unique at_zero]
    exact at_zero
  · obtain ⟨fs, hfs, hplain, hat⟩ := ih hβ.init
    have hclock := (run_fixed hv).2
    have hvisits : β v.clock = v.visits e := hclock ▸ hβ.last hv
    have hclock' : s'.clock = es.length + 1 := by
      simpa using (run_fixed (exec_snoc.mpr ⟨v, hv, hs⟩)).2
    by_cases hb : v.visits e = b
    · subst hb
      have hnext := exec_snoc.mpr ⟨_, hfs, step_list hs hvisits⟩
      refine ⟨fs ++ [e], hnext, fun hp => ?_, fun n u hu => ?_⟩
      · intro i op hmem
        rcases List.mem_append.mp hmem with hmem | hmem
        · exact hplain hp.init i op hmem
        · exact hp i op (List.mem_append_right _ hmem)
      · rcases at_snoc_cases hu (exec_snoc.mpr ⟨v, hv, hs⟩) with ⟨hn, hu⟩ | ⟨rfl, rfl⟩
        · have hat := hat n u hu
          exact (at_snoc hat.1).mpr hat
        · have hlen := (LazyList.run_recorded hnext).clock
          have hnow := at_length hnext
          have hticks : (u.list β (v.visits e)).clock = ticks β (v.visits e) (es.length + 1) := by
            rw [← hclock']
            rfl
          rwa [← hlen, hticks] at hnow
    · have hsame := step_other hs hvisits hb
      refine ⟨fs, hsame ▸ hfs, fun hp => hplain hp.init, fun n u hu => ?_⟩
      rcases at_snoc_cases hu (exec_snoc.mpr ⟨v, hv, hs⟩) with ⟨hn, hu⟩ | ⟨rfl, rfl⟩
      · exact hat n u hu
      · rw [hsame, ticks_succ_of_ne (by rwa [hβ.last hv])]
        exact hat _ _ (at_length hv)

/-! ## The order -/

/-- The answer of a call has been given, or decided. -/
def State.Settled (s : State ι) (c : Call ι) (result : Result) : Prop :=
  (∃ r ∈ s.returned, r.call = c ∧ r.answer = result) ∨
    ∃ i r, s.thread i = some r ∧ r.call = c ∧ r.pc.decided = some result

/-- The keys in the map: each is looked for in its own list. -/
def State.keys (s : State ι) : Set Int := {k | k ∈ (s.map (translate k s.buckets)).keys}

/-- The keys in the map at an instant. -/
def keysAt (buckets : Nat) (es : List (Event ι)) (t : Nat) : Set Int :=
  {k | ∃ u, At step (start buckets) es t u ∧ k ∈ u.keys}

/-- The log puts every call with a settled answer at an instant, not before the call
nor after its return, so that in this order they answer as one set does, which has at
each instant the keys in the map. -/
structure Linearized (buckets : Nat) (es : List (Event ι)) (s : State ι)
    (log : List (Nat × Call ι × Result)) : Prop where
  timeline : Timeline Answers (keysAt buckets es) es.length log
  once : (log.map fun a => a.2.1).Nodup
  called : ∀ a ∈ log, a.2.1.called ≤ a.1
  returned : ∀ a ∈ log, ∀ r ∈ s.returned, r.call = a.2.1 → a.1 < r.returned
  settled : ∀ a ∈ log, s.Settled a.2.1 a.2.2
  complete : ∀ c result, s.Settled c result → result ≠ .abortFailure →
    ∃ t, (t, c, result) ∈ log

variable {c c' : Call ι} {result : Result}

theorem keysAt_eq (hu : At step (start buckets) es n u) : keysAt buckets es n = u.keys := by
  ext k
  constructor
  · intro ⟨v, hv, hk⟩
    rwa [hu.unique hv]
  · exact fun hk => ⟨u, hu, hk⟩

omit [DecidableEq ι] in
theorem settled_list : (s.list β b).Settled c' result ↔
    ∃ c, s.Settled c result ∧ translate c.op.key s.buckets = b ∧ localCall β b c = c' := by
  constructor
  · rintro (⟨r', hr', rfl, rfl⟩ | ⟨i, r', hr', rfl, hd⟩)
    · obtain ⟨r, hr, hl⟩ := List.mem_filterMap.mp hr'
      unfold localReturned at hl
      split at hl
      · rename_i hb
        cases hl
        exact ⟨r.call, Or.inl ⟨r, hr, rfl, rfl⟩, hb, rfl⟩
      · cases hl
    · obtain ⟨r, hr, hl⟩ := Option.bind_eq_some_iff.mp hr'
      unfold localRunning at hl
      split at hl
      · rename_i hb
        cases hl
        exact ⟨r.call, Or.inr ⟨i, r, hr, rfl, hd⟩, hb, rfl⟩
      · cases hl
  · rintro ⟨c, ⟨r, hr, rfl, rfl⟩ | ⟨i, r, hr, rfl, hd⟩, hb, rfl⟩
    · exact Or.inl ⟨_, List.mem_filterMap.mpr ⟨r, hr, if_pos hb⟩, rfl, rfl⟩
    · exact Or.inr ⟨i, _, Option.bind_eq_some_iff.mpr ⟨r, hr, if_pos hb⟩, rfl, hd⟩

/-- A call told by the clock of its list, back by the clock of the map. -/
noncomputable def globalCall (β : Nat → Nat) (b : Nat) (c : Call ι) : Call ι :=
  { c with called := Nat.nth (fun k => β k = b) (c.called - 1) + 1 }

omit [DecidableEq ι] in
theorem Recorded.made (h : Recorded β buckets es s) (hset : s.Settled c result) :
    Made β buckets es.length c := by
  rcases hset with ⟨r, hr, rfl, _⟩ | ⟨i, r, hr, rfl, _⟩
  · exact (h.finished r hr).1
  · exact h.ongoing i r hr

omit [DecidableEq ι] in
theorem Made.globalCall (h : Made β buckets n c) :
    globalCall β (translate c.op.key buckets) (localCall β (translate c.op.key buckets) c) = c := by
  obtain ⟨k, -, hcalled, hk⟩ := h
  obtain ⟨thread, op, called⟩ := c
  dsimp only at hcalled hk
  subst hcalled
  rw [HashMap.globalCall, localCall]
  dsimp only
  rw [← hk, ticks_succ_self, Nat.add_sub_cancel]
  rw [show Nat.nth (fun j => β j = β k) (ticks β (β k) k) = k from
    Nat.nth_count (p := fun j => β j = β k) rfl]

/-- The keys `S` of one list beside those that the others have of `R`. -/
def glue (buckets b : Nat) (R S : Set Int) : Set Int :=
  {k | if translate k buckets = b then k ∈ S else k ∈ R}

/-- The other lists have no say in a call. -/
theorem setStep_glue {S S' : Set Int} {op : Op} (R : Set Int) (h : op.SetStep S result S')
    (hb : translate op.key buckets = b) :
    op.SetStep (glue buckets b R S) result (glue buckets b R S') := by
  have hmem : op.key ∈ glue buckets b R S ↔ op.key ∈ S := by
    rw [glue, Set.mem_ofPred_eq, if_pos hb]
  have hinsert : glue buckets b R (insert op.key S) = insert op.key (glue buckets b R S) := by
    ext k
    simp only [glue, Set.mem_ofPred_eq, Set.mem_insert_iff]
    split <;> grind
  have hdiff : glue buckets b R (S \ {op.key}) = glue buckets b R S \ {op.key} := by
    ext k
    simp only [glue, Set.mem_ofPred_eq, Set.mem_sdiff, Set.mem_singleton_iff]
    split <;> grind
  cases op <;> cases result <;> simp only [Op.SetStep, Op.key] at h hmem hinsert hdiff ⊢
  all_goals
    obtain ⟨h, rfl⟩ := h
    simp only [hmem, hinsert, hdiff, h, not_false_eq_true, and_self]

omit [DecidableEq ι] in
/-- The keys of the lists make those of the map. -/
theorem glue_keys (b : Nat) (h : ∀ b', b' ≠ b → s'.map b' = s.map b')
    (hbuckets : s'.buckets = s.buckets) :
    glue s.buckets b s.keys (s'.map b).keys = s'.keys := by
  ext k
  simp only [glue, State.keys, Set.mem_ofPred_eq, hbuckets]
  split
  · rename_i hb
    rw [hb]
  · rename_i hb
    rw [h _ hb]

/-- The order of one list. -/
theorem list_linearized {fs : List (Event ι)} {x : LazyList.State ι} (hplain : Plain fs)
    (h : exec LazyList.step LazyList.start fs = some x) : ∃ log, LazyList.Linearized fs x log := by
  refine exec_induction (motive := fun fs x => Plain fs → ∃ log, LazyList.Linearized fs x log)
    (fun _ => ⟨[], start_linearized⟩) (fun fs v e x hv ih hs hplain => ?_) h hplain
  obtain ⟨log, hl⟩ := ih hplain.init
  exact step_linearized hv hplain hs hl

/-- An entry of a list's log, by the clock of the map. -/
noncomputable def globalEntry (β : Nat → Nat) (b : Nat) (a : Call ι × Result) :
    Call ι × Result :=
  (globalCall β b a.1, a.2)

/-- The calls in the log of a list. -/
theorem mem_list_log (hrec : Recorded β buckets es s) (hbuckets : s.buckets = buckets)
    {fs : List (Event ι)} {log : List (Nat × Call ι × Result)} {a : Nat × Call ι × Result}
    (hl : LazyList.Linearized fs (s.list β b) log) (ha : a ∈ log) :
    ∃ c, s.Settled c a.2.2 ∧ translate c.op.key buckets = b ∧
      localCall β b c = a.2.1 ∧ globalCall β b a.2.1 = c := by
  obtain ⟨c, hset, hb, hlocal⟩ := settled_list.mp (hl.settled a ha)
  rw [hbuckets] at hb
  refine ⟨c, hset, hb, hlocal, ?_⟩
  rw [← hlocal, ← hb]
  exact (hrec.made hset).globalCall

section

variable {fs : Nat → List (Event ι)} {logs : Nat → List (Nat × Call ι × Result)}

theorem mem_log (hrec : Recorded β buckets es s) (hbuckets : s.buckets = buckets)
    (hl : ∀ b, LazyList.Linearized (fs b) (s.list β b) (logs b)) :
    (n, c, result) ∈ interleave β (globalEntry β) logs es.length ↔ n < es.length ∧
      s.Settled c result ∧ translate c.op.key buckets = β n ∧
        (ticks β (β n) n, localCall β (β n) c, result) ∈ logs (β n) := by
  rw [mem_interleave]
  refine and_congr_right fun _ => ?_
  constructor
  · rintro ⟨⟨c', result'⟩, ha, he⟩
    obtain ⟨hcall, hresult⟩ := Prod.mk.inj he
    obtain ⟨c, hset, hb, rfl, hglobal⟩ := mem_list_log hrec hbuckets (hl _) ha
    dsimp only at hset hglobal ha hcall hresult
    subst hresult
    obtain rfl := hglobal.symm.trans hcall
    exact ⟨hset, hb, ha⟩
  · rintro ⟨hset, hb, ha⟩
    refine ⟨_, ha, Prod.ext ?_ rfl⟩
    dsimp only [globalEntry]
    rw [← hb]
    exact (hrec.made hset).globalCall

theorem lists_timeline (h : exec step (start buckets) es = some s) (hβ : Visits β buckets es)
    (hfs : ∀ b, exec LazyList.step LazyList.start (fs b) = some (s.list β b))
    (hat : ∀ b n u, At step (start buckets) es n u →
      At LazyList.step LazyList.start (fs b) (ticks β b n) (u.list β b))
    (hl : ∀ b, LazyList.Linearized (fs b) (s.list β b) (logs b)) :
    Timeline Answers (keysAt buckets es) es.length
      (interleave β (globalEntry β) logs es.length) := by
  obtain ⟨hbuckets, hnow⟩ := run_fixed h
  have hlocal : ∀ b n u, At step (start buckets) es n u →
      LazyList.keysAt (fs b) (ticks β b n) = (u.map b).keys :=
    fun b n u hu => LazyList.keysAt_eq (hat b n u hu)
  have htimes : ∀ b, Timeline Answers (LazyList.keysAt (fs b)) (ticks β b es.length) (logs b) := by
    intro b
    have hclock : ticks β b s.clock = (fs b).length := (LazyList.run_recorded (hfs b)).clock
    rw [← hnow, hclock]
    exact (hl b).timeline
  refine interleave_timeline (fun n S => glue buckets (β n) (keysAt buckets es n) S) htimes
    (fun n _ a ha x y hxy => ?_) (fun n hn => ?_) (fun n hn => ?_)
  · obtain ⟨c, -, hb, hcall, hglobal⟩ := mem_list_log (run_recorded h hβ) hbuckets (hl _) ha
    rw [globalEntry, hglobal]
    refine setStep_glue _ ?_ hb
    rw [Answers, ← hcall] at hxy
    exact hxy
  · obtain ⟨u, hu⟩ := exists_at h hn.le
    rw [hlocal _ _ _ hu, keysAt_eq hu, ← (run_fixed hu.2).1]
    exact glue_keys _ (fun _ _ => rfl) rfl
  · obtain ⟨u, hu⟩ := exists_at h hn.le
    obtain ⟨v, hv⟩ := exists_at h (Nat.succ_le_of_lt hn)
    obtain ⟨e, he, hs⟩ := hu.succ hv
    have hclock : u.clock = n := by
      rw [(run_fixed hu.2).2, List.length_take, Nat.min_eq_left hn.le]
    have hvisits : β u.clock = u.visits e := hclock ▸ hβ n u e hu he
    rw [← ticks_succ_self, hlocal _ _ _ hv, keysAt_eq hu, keysAt_eq hv, ← (run_fixed hu.2).1]
    refine glue_keys _ (fun b hb => ?_) ((run_fixed hv.2).1.trans (run_fixed hu.2).1.symm)
    rw [← hclock, hvisits] at hb
    exact congrArg LazyList.State.mem (step_other hs hvisits hb.symm)

/-- No call is in two logs, nor in one of them twice. -/
theorem lists_once (hrec : Recorded β buckets es s) (hbuckets : s.buckets = buckets)
    (hl : ∀ b, LazyList.Linearized (fs b) (s.list β b) (logs b)) :
    ((interleave β (globalEntry β) logs es.length).map fun a => a.2.1).Nodup := by
  refine interleave_nodup Prod.fst (fun b => ?_) (fun b b' hne a ha a' ha' he => ?_)
  · have honce := (hl b).once
    rw [List.Nodup, List.pairwise_map] at honce ⊢
    refine honce.imp_of_mem fun {a a'} ha ha' hne he => hne ?_
    obtain ⟨c, -, -, hlocal, hglobal⟩ := mem_list_log hrec hbuckets (hl b) ha
    obtain ⟨c', -, -, hlocal', hglobal'⟩ := mem_list_log hrec hbuckets (hl b) ha'
    dsimp only [globalEntry] at he
    rw [hglobal, hglobal'] at he
    rw [← hlocal, ← hlocal', he]
  · obtain ⟨c, -, hb, -, hglobal⟩ := mem_list_log hrec hbuckets (hl b) ha
    obtain ⟨c', -, hb', -, hglobal'⟩ := mem_list_log hrec hbuckets (hl b') ha'
    dsimp only [globalEntry] at he
    rw [hglobal, hglobal'] at he
    exact hne (hb ▸ hb' ▸ congrArg (fun c => translate c.op.key buckets) he)

end

/-- **The map is linearizable.** In every run of any threads, on any number of lists,
there is one order of the calls that have been answered, each at an instant between its
call and its return, in which one set answers them so. A `contains` never gives up. -/
theorem map_linearizable (hplain : Plain es) (h : exec step (start buckets) es = some s) :
    (∃ log, Linearized buckets es s log ∧ Plays Answers ∅ (log.map Prod.snd) s.keys) ∧
      ∀ r ∈ s.returned, r.answer = .abortFailure → ¬ r.call.op.reads := by
  obtain ⟨β, hβ⟩ := exists_visits buckets es
  have hrec := run_recorded h hβ
  obtain ⟨hbuckets, hnow⟩ := run_fixed h
  choose fs hfs hplain' hat using run_list h hβ
  choose logs hl using fun b => list_linearized (hplain' b hplain) (hfs b)
  have htime := lists_timeline h hβ hfs hat hl
  have hmem : ∀ n c result, (n, c, result) ∈ interleave β (globalEntry β) logs es.length ↔
      n < es.length ∧ s.Settled c result ∧ translate c.op.key buckets = β n ∧
        (ticks β (β n) n, localCall β (β n) c, result) ∈ logs (β n) :=
    fun _ _ _ => mem_log hrec hbuckets hl
  have hreturned : ∀ r ∈ s.returned, ∀ b, translate r.call.op.key buckets = b →
      ⟨localCall β b r.call, r.answer, ticks β b r.returned⟩ ∈ (s.list β b).returned :=
    fun r hr b hb => List.mem_filterMap.mpr ⟨r, hr, if_pos (hbuckets ▸ hb)⟩
  refine ⟨⟨_, ⟨htime, lists_once hrec hbuckets hl, ?_, ?_, ?_, ?_⟩, ?_⟩, fun r hr hans => ?_⟩
  · intro ⟨n, c, result⟩ ha
    obtain ⟨-, -, -, ha⟩ := (hmem n c result).mp ha
    exact le_of_ticks_le rfl ((hl _).called _ ha)
  · intro ⟨n, c, result⟩ ha r hr hcall
    obtain ⟨-, -, hb, ha⟩ := (hmem n c result).mp ha
    dsimp only at hcall
    subst hcall
    exact lt_of_ticks_lt ((hl _).returned _ ha _ (hreturned r hr _ hb) rfl)
  · intro ⟨n, c, result⟩ ha
    exact ((hmem n c result).mp ha).2.1
  · intro c result hset hne
    obtain ⟨t, ht⟩ := (hl (translate c.op.key buckets)).complete _ result
      (settled_list.mpr ⟨c, hset, by rw [hbuckets], rfl⟩) hne
    have hpast := (hl _).timeline.past _ ht
    rw [← (LazyList.run_recorded (hfs _)).clock] at hpast
    change t < ticks β _ s.clock at hpast
    obtain ⟨n, hn, hb, rfl⟩ := exists_tick hpast
    exact ⟨n, (hmem n c result).mpr ⟨hnow ▸ hn, hset, hb.symm, hb ▸ ht⟩⟩
  · have hfirst : keysAt buckets es 0 = ∅ := by
      rw [keysAt_eq at_zero, State.keys]
      exact Set.eq_empty_of_forall_notMem fun k hk => by
        rw [Set.mem_ofPred_eq, start, Memory.new_keys] at hk
        exact hk
    have hplays := htime.plays_all
    rwa [hfirst, keysAt_eq (at_length h)] at hplays
  · exact ((run_quiet (hfs _) (hplain' _ hplain)).2 _ (hreturned r hr _ rfl) hans).updates

/-- Two threads in two lists, then one after the other in the first. -/
def crossing : List (Event Bool) :=
  .call true (.add 5 1) :: .call false (.add 4 1) ::
  (List.replicate 13 [.next true, .next false]).flatten ++
  .call true (.remove 4) :: .call false (.contains 5) :: List.replicate 5 (.next false) ++
  .call false (.contains 4) :: List.replicate 13 (.next true) ++ List.replicate 4 (.next false)

theorem crossing_plain : Plain crossing := by
  intro i op hm
  have hops : i = true ∧ op = .add 5 1 ∨ i = false ∧ op = .add 4 1 ∨
      i = true ∧ op = .remove 4 ∨ i = false ∧ op = .contains 5 ∨
        i = false ∧ op = .contains 4 := by
    simpa [crossing] using hm
  rcases hops with ⟨_, rfl⟩ | ⟨_, rfl⟩ | ⟨_, rfl⟩ | ⟨_, rfl⟩ | ⟨_, rfl⟩ <;> decide

theorem map_linearizable_crossing : ∃ s, exec step (start 2) crossing = some s ∧
    s.returned.map (fun r => (r.call.op, r.answer)) = [(.add 5 1, .true), (.add 4 1, .true),
      (.contains 5, .true), (.remove 4, .true), (.contains 4, .false)] ∧
    (∃ log, Linearized 2 crossing s log ∧ Plays Answers ∅ (log.map Prod.snd) s.keys) ∧
      ∀ r ∈ s.returned, r.answer = .abortFailure → ¬ r.call.op.reads := by
  have hrun : (exec step (start 2) crossing).map (fun s =>
      s.returned.map fun r => (r.call.op, r.answer)) = some [(.add 5 1, .true),
        (.add 4 1, .true), (.contains 5, .true), (.remove 4, .true), (.contains 4, .false)] := by
    decide +kernel
  obtain ⟨s, hs, hanswers⟩ := Option.map_eq_some_iff.mp hrun
  exact ⟨s, hs, hanswers, map_linearizable crossing_plain hs⟩

/-! ## At rest -/

def State.size (s : State ι) : Option Int :=
  (List.range s.buckets).foldlM
    (fun size i => (s.map i).size.map fun n => Int.bmod (size + n) (2 ^ 32)) 0

omit [DecidableEq ι] in
/-- Calls leave only their own keys in a list. -/
theorem plays_translate {S S' : Set Int} {os : List (Call ι × Result)} (h : Plays Answers S os S')
    (hos : ∀ o ∈ os, translate o.1.op.key buckets = b)
    (hS : ∀ k ∈ S, translate k buckets = b) : ∀ k ∈ S', translate k buckets = b := by
  induction h with
  | nil => exact hS
  | @cons x y z o os ho _ ih =>
    refine ih (fun o ho => hos o (List.mem_cons_of_mem _ ho)) fun k hk => ?_
    have hkey := hos o List.mem_cons_self
    obtain ⟨⟨thread, op, called⟩, result⟩ := o
    cases op <;> cases result <;> simp only [Answers, Op.SetStep] at ho
    all_goals obtain ⟨-, rfl⟩ := ho
    case add.true key val =>
      rcases hk with rfl | hk
      · exact hkey
      · exact hS k hk
    case remove.true key => exact hS k hk.1
    all_goals exact hS k hk

/-- **The map at rest.** When no call is under way each list holds the keys that go to
it, as one thread would have left them, and `size` counts them all. -/
theorem map_at_rest (hplain : Plain es) (hb : 0 < buckets)
    (h : exec step (start buckets) es = some s) (hidle : ∀ i, s.thread i = none) :
    ∃ S : Finset Int, (S : Set Int) = s.keys ∧
      (∀ b < buckets, (s.map b).Holds (S.filter fun k => translate k buckets = b)) ∧
      s.size = some (Int.bmod S.card (2 ^ 32)) := by
  obtain ⟨β, hβ⟩ := exists_visits buckets es
  obtain ⟨hbuckets, -⟩ := run_fixed h
  choose fs hfs hplain' _ using run_list h hβ
  have hrest : ∀ b, ∃ S : Finset Int, (s.map b).Holds S ∧ (S : Set Int) = (s.map b).keys := fun b =>
    (run_inv (hplain' b hplain) (hfs b)).at_rest (run_swept (hplain' b hplain) (hfs b)) fun i => by
      dsimp only [State.list]
      rw [hidle, Option.bind_none]
  choose T hholds hkeys using hrest
  have hown : ∀ b, ∀ k ∈ T b, translate k buckets = b := by
    intro b k hk
    obtain ⟨log, hl⟩ := list_linearized (hplain' b hplain) (hfs b)
    have hplays := hl.timeline.plays_all
    rw [LazyList.keysAt_eq at_zero, LazyList.keysAt_eq (at_length (hfs b))] at hplays
    refine plays_translate hplays (fun o ho => ?_) (fun k hk => ?_) k (hkeys b ▸ hk)
    · obtain ⟨a, ha, rfl⟩ := List.mem_map.mp ho
      obtain ⟨c, -, hb, -, hglobal⟩ := mem_list_log (run_recorded h hβ) hbuckets hl ha
      rw [← hb, ← hglobal]
      rfl
    · rw [LazyList.start, Memory.new_keys] at hk
      exact absurd hk (Set.notMem_empty k)
  have hfilter : ∀ b < buckets, ((Finset.range buckets).biUnion T).filter
      (fun k => translate k buckets = b) = T b := by
    intro b hlt
    ext k
    rw [Finset.mem_filter, Finset.mem_biUnion]
    constructor
    · rintro ⟨⟨b', -, hk⟩, rfl⟩
      exact hown b' k hk ▸ hk
    · exact fun hk => ⟨⟨b, Finset.mem_range.mpr hlt, hk⟩, hown b k hk⟩
  refine ⟨(Finset.range buckets).biUnion T, ?_, fun b hlt => hfilter b hlt ▸ hholds b, ?_⟩
  · ext k
    have hlt : translate k buckets < buckets := Nat.mod_lt _ hb
    rw [State.keys, Set.mem_ofPred_eq, hbuckets, ← hkeys, Finset.mem_coe, Finset.mem_coe,
      ← hfilter _ hlt, Finset.mem_filter]
    exact (and_iff_left rfl).symm
  · rw [State.size, hbuckets, ConcurrentHashMap.sum_sizes fun b _ => (hholds b).size,
      ConcurrentHashMap.card_buckets hb]
    exact congrArg _ (congrArg (Int.bmod · _)
      (Finset.sum_congr rfl fun b hlt => by rw [hfilter b (Finset.mem_range.mp hlt)]))

theorem map_at_rest_crossing : ∃ s, exec step (start 2) crossing = some s ∧ s.size = some 1 ∧
    ∃ S : Finset Int, (S : Set Int) = s.keys ∧
      (∀ b < 2, (s.map b).Holds (S.filter fun k => translate k 2 = b)) ∧
      s.size = some (Int.bmod S.card (2 ^ 32)) := by
  have hrun : (exec step (start 2) crossing).map (fun s =>
      ((s.thread true).isNone, (s.thread false).isNone, s.size)) = some (true, true, some 1) := by
    decide +kernel
  obtain ⟨s, hs, hend⟩ := Option.map_eq_some_iff.mp hrun
  obtain ⟨htrue, hend⟩ := Prod.mk.inj hend
  obtain ⟨hfalse, hsize⟩ := Prod.mk.inj hend
  refine ⟨s, hs, hsize, map_at_rest crossing_plain Nat.two_pos hs fun i => ?_⟩
  cases i
  · exact Option.isNone_iff_eq_none.mp hfalse
  · exact Option.isNone_iff_eq_none.mp htrue

end ConcurrentComputing.HashMap
