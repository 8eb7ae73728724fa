import ConcurrentComputing.LazyListHindsight
import ConcurrentComputing.Timeline

/-! # The lazy list against a set

The calls that have been answered or decided are put in an order: each answers as
a set does in its turn, at an instant between its call and its return. -/

namespace ConcurrentComputing.LazyList

open Function Runs SortedChain ConcurrentComputing.Sequential

variable {ι : Type} [DecidableEq ι] {s s' u : State ι} {es : List (Event ι)} {e : Event ι}
  {t : Nat} {a : Addr} {i : ι} {r : Running ι}

/-! ## The records -/

/-- What the records of the calls say about the run. -/
structure Recorded (es : List (Event ι)) (s : State ι) : Prop where
  clock : s.clock = es.length
  called : ∀ i r, s.thread i = some r → r.call.thread = i ∧ r.call.called ≤ es.length
  returned : ∀ r ∈ s.returned, r.call.called < r.returned ∧ r.returned ≤ es.length
  ongoing : ∀ i r, s.thread i = some r → ∀ r' ∈ s.returned, r'.call ≠ r.call
  once : (s.returned.map Returned.call).Nodup

omit [DecidableEq ι] in
theorem start_recorded : Recorded [] (start : State ι) where
  clock := rfl
  called _ _ hr := by cases hr
  returned _ hr := by cases hr
  ongoing _ _ hr := by cases hr
  once := .nil

theorem run_recorded (h : exec step start es = some s) : Recorded es s := by
  refine exec_induction (motive := fun es (s : State ι) => Recorded es s) start_recorded ?_ h
  intro es v e s' _ ih hs
  have hlen : (es ++ [e]).length = es.length + 1 := by simp
  have hpast : ∀ r ∈ v.returned, r.call.called < r.returned ∧ r.returned ≤ (es ++ [e]).length :=
    fun r hr => ⟨(ih.returned r hr).1, (ih.returned r hr).2.trans (by simp)⟩
  have hcalled : ∀ i r, v.thread i = some r →
      r.call.thread = i ∧ r.call.called ≤ (es ++ [e]).length :=
    fun i r hr => ⟨(ih.called i r hr).1, (ih.called i r hr).2.trans (by simp)⟩
  rcases step_cases hs with ⟨i, op, _, hi, rfl⟩ | ⟨i, r, m, o, _, hr, hadv, rfl⟩
  · refine ⟨by rw [hlen, ih.clock], fun j r hj => ?_, hpast, fun j r hj r' hr' => ?_, ih.once⟩
    · rcases update_thread hj with ⟨rfl, rfl⟩ | ⟨_, hj⟩
      · exact ⟨rfl, by rw [hlen, ih.clock]⟩
      · exact hcalled j r hj
    · rcases update_thread hj with ⟨rfl, rfl⟩ | ⟨_, hj⟩
      · intro he
        have hlt := (ih.returned r' hr').1.trans_le (ih.returned r' hr').2
        rw [he, ih.clock] at hlt
        exact absurd hlt (by simp)
      · exact ih.ongoing j r hj r' hr'
  · cases o with
    | goto pc =>
      refine ⟨by simp [State.proceed, ih.clock], fun j r' hj => ?_, hpast,
        fun j r' hj => ?_, ih.once⟩
      · rcases goto_thread hj with ⟨rfl, rfl⟩ | ⟨_, hj⟩
        · exact hcalled _ r hr
        · exact hcalled j r' hj
      · rcases goto_thread hj with ⟨rfl, rfl⟩ | ⟨_, hj⟩
        · exact ih.ongoing _ r hr
        · exact ih.ongoing j r' hj
    | answer result =>
      obtain ⟨hthread, hle⟩ := ih.called i r hr
      refine ⟨by simp [State.proceed, ih.clock], fun j r' hj => hcalled j r' (answer_thread hj).2,
        fun r' hr' => ?_, fun j r' hj r'' hr'' => ?_, ?_⟩
      · rcases List.mem_append.mp hr' with hr' | hr'
        · exact hpast r' hr'
        · rw [List.mem_singleton.mp hr', hlen]
          dsimp only
          rw [ih.clock]
          exact ⟨Nat.lt_succ_of_le hle, le_rfl⟩
      · obtain ⟨hji, hj⟩ := answer_thread hj
        rcases List.mem_append.mp hr'' with hr'' | hr''
        · exact ih.ongoing j r' hj r'' hr''
        · rw [List.mem_singleton.mp hr'']
          intro he
          rw [← (ih.called j r' hj).1, ← he] at hji
          exact hji hthread
      · show ((v.returned ++ _).map _).Nodup
        rw [List.map_append, List.nodup_append]
        refine ⟨ih.once, List.pairwise_singleton _ _, fun c hc c' hc' => ?_⟩
        obtain ⟨r', hr', rfl⟩ := List.mem_map.mp hc
        rw [List.mem_singleton.mp hc']
        exact ih.ongoing i r hr r' hr'

/-! ## Settled answers -/

/-- The answer of a call has been given, or decided. -/
def State.Settled (s : State ι) (c : Call ι) (result : Result) : Prop :=
  (∃ r ∈ s.returned, r.call = c ∧ r.answer = result) ∨
    ∃ i r, s.thread i = some r ∧ r.call = c ∧ r.pc.decided = some result

variable {m : Memory ι} {c : Call ι} {result : Result}

omit [DecidableEq ι] in
theorem Recorded.unsettled (h : Recorded es s) (hr : s.thread i = some r)
    (hnone : r.pc.decided = none) : ¬ s.Settled r.call result := by
  intro hset
  rcases hset with ⟨r', hr', hcall, _⟩ | ⟨j, r', hj, hcall, hd⟩
  · exact h.ongoing i r hr r' hr' hcall
  · obtain rfl : j = i := by rw [← (h.called j r' hj).1, hcall, (h.called i r hr).1]
    obtain rfl : r' = r := Option.some.inj (hj.symm.trans hr)
    cases hnone.symm.trans hd

theorem settled_goto {pc : Pc} (hr : s.thread i = some r)
    (hd : r.pc.decided = none ∨ pc.decided = r.pc.decided) :
    (s.proceed i r m (.goto pc)).Settled c result ↔
      s.Settled c result ∨ (c = r.call ∧ pc.decided = some result) := by
  constructor
  · intro hset
    rcases hset with hret | ⟨j, r', hj, hcall, hdec⟩
    · exact Or.inl (Or.inl hret)
    · rcases goto_thread hj with ⟨rfl, rfl⟩ | ⟨_, hj⟩
      · exact Or.inr ⟨hcall.symm, hdec⟩
      · exact Or.inl (Or.inr ⟨j, r', hj, hcall, hdec⟩)
  · intro hset
    have hnow : pc.decided = some result →
        (s.proceed i r m (.goto pc)).Settled r.call result :=
      fun hdec => Or.inr ⟨i, ⟨r.call, pc⟩, update_self _ _ _, rfl, hdec⟩
    rcases hset with (hret | ⟨j, r', hj, rfl, hdec⟩) | ⟨rfl, hdec⟩
    · exact Or.inl hret
    · by_cases hji : j = i
      · subst hji
        obtain rfl : r' = r := Option.some.inj (hj.symm.trans hr)
        rcases hd with hnone | hsame
        · cases hnone.symm.trans hdec
        · exact hnow (hsame.trans hdec)
      · exact Or.inr ⟨j, r', (update_of_ne hji _ _).trans hj, rfl, hdec⟩
    · exact hnow hdec

theorem settled_answer {result' : Result} (hr : s.thread i = some r)
    (hd : r.pc.decided = none ∨ r.pc.decided = some result') :
    (s.proceed i r m (.answer result')).Settled c result ↔
      s.Settled c result ∨ (c = r.call ∧ result = result') := by
  have hmem : ∀ r' : Returned ι, r' ∈ (s.proceed i r m (.answer result')).returned ↔
      r' ∈ s.returned ∨ r' = ⟨r.call, result', s.clock + 1⟩ := by
    intro r'
    simp [State.proceed]
  constructor
  · intro hset
    rcases hset with ⟨r', hr', hcall, hans⟩ | ⟨j, r', hj, hcall, hdec⟩
    · rcases (hmem r').mp hr' with hr' | rfl
      · exact Or.inl (Or.inl ⟨r', hr', hcall, hans⟩)
      · exact Or.inr ⟨hcall.symm, hans.symm⟩
    · exact Or.inl (Or.inr ⟨j, r', (answer_thread hj).2, hcall, hdec⟩)
  · intro hset
    have hnow : (s.proceed i r m (.answer result')).Settled r.call result' :=
      Or.inl ⟨_, (hmem _).mpr (Or.inr rfl), rfl, rfl⟩
    rcases hset with (⟨r', hr', hcall, hans⟩ | ⟨j, r', hj, rfl, hdec⟩) | ⟨rfl, rfl⟩
    · exact Or.inl ⟨r', (hmem r').mpr (Or.inl hr'), hcall, hans⟩
    · by_cases hji : j = i
      · subst hji
        obtain rfl : r' = r := Option.some.inj (hj.symm.trans hr)
        rcases hd with hnone | hsame
        · cases hnone.symm.trans hdec
        · obtain rfl : result' = result := Option.some.inj (hsame.symm.trans hdec)
          exact hnow
      · exact Or.inr ⟨j, r', (update_of_ne hji _ _).trans hj, rfl, hdec⟩
    · exact hnow

/-- What a step settles: nothing but that a call has given up, or the answer of
one call, as a set answers it now or at an instant since the call. -/
theorem step_settles (h : exec step start es = some s) (hplain : Plain es)
    (hs : step s e = some s') :
    (s'.mem.keys = s.mem.keys ∧ (∀ c result, s.Settled c result → s'.Settled c result) ∧
      ∀ c result, s'.Settled c result → result ≠ .abortFailure → s.Settled c result) ∨
    ∃ c result, (∀ result', ¬ s.Settled c result') ∧
      (∀ c' result', s'.Settled c' result' ↔
        s.Settled c' result' ∨ (c' = c ∧ result' = result)) ∧
      c.called ≤ es.length ∧ (∀ r ∈ s.returned, r.call ≠ c) ∧
      (c.op.SetStep s.mem.keys result s'.mem.keys ∨ s'.mem.keys = s.mem.keys ∧
        ∃ t u, c.called ≤ t ∧ At step start es t u ∧
          c.op.SetStep u.mem.keys result u.mem.keys) := by
  have hinv := run_inv hplain h
  have hrec := run_recorded h
  rcases step_cases hs with ⟨i, op, _, hi, rfl⟩ | ⟨i, r, m, o, _, hr, hadv, rfl⟩
  · refine Or.inl ⟨rfl, fun c result hset => ?_, fun c result hset _ => ?_⟩
    · rcases hset with hret | ⟨j, r', hj, hcall, hdec⟩
      · exact Or.inl hret
      · refine Or.inr ⟨j, r', (update_of_ne ?_ _ _).trans hj, hcall, hdec⟩
        rintro rfl
        cases hi.symm.trans hj
    · rcases hset with hret | ⟨j, r', hj, hcall, hdec⟩
      · exact Or.inl hret
      · rcases update_thread hj with ⟨rfl, rfl⟩ | ⟨_, hj⟩
        · cases Op.start_decided.symm.trans hdec
        · exact Or.inr ⟨j, r', hj, hcall, hdec⟩
  · have hdec := advance_decision hinv.shape (hinv.plain i r hr).2 (hinv.valid i r hr) hadv
    have hcalled := (hrec.called i r hr).2
    cases hdec with
    | @going pc' hkeys hd =>
      have hiff : ∀ c result, (s.proceed i r m (.goto pc')).Settled c result ↔ _ :=
        fun c result => settled_goto hr (Or.inr hd)
      refine Or.inl ⟨hkeys, fun c result hset => (hiff c result).mpr (Or.inl hset),
        fun c result hset _ => ?_⟩
      rcases (hiff c result).mp hset with hset | ⟨rfl, hdec⟩
      · exact hset
      · exact Or.inr ⟨i, r, hr, rfl, hd.symm.trans hdec⟩
    | @decides pc' result hnone hd hset =>
      refine Or.inr ⟨r.call, result, fun _ => hrec.unsettled hr hnone, fun c' result' => ?_,
        hcalled, hrec.ongoing i r hr, Or.inl hset⟩
      rw [settled_goto hr (Or.inl hnone), hd, Option.some.injEq, eq_comm (a := result)]
    | @back result hkeys hd =>
      have hiff : ∀ c result', (s.proceed i r m (.answer result)).Settled c result' ↔ _ :=
        fun c result' => settled_answer hr (Or.inr hd)
      refine Or.inl ⟨hkeys, fun c result' hset => (hiff c result').mpr (Or.inl hset),
        fun c result' hset _ => ?_⟩
      rcases (hiff c result').mp hset with hset | ⟨rfl, rfl⟩
      · exact hset
      · exact Or.inr ⟨i, r, hr, rfl, hd⟩
    | gaveUp hkeys hnone =>
      have hiff : ∀ c result, (s.proceed i r m (.answer .abortFailure)).Settled c result ↔ _ :=
        fun c result => settled_answer hr (Or.inl hnone)
      refine Or.inl ⟨hkeys, fun c result hset => (hiff c result).mpr (Or.inl hset),
        fun c result hset hne => ?_⟩
      rcases (hiff c result).mp hset with hset | ⟨_, rfl⟩
      · exact hset
      · exact absurd rfl hne
    | @looked result hkeys hnone hop =>
      refine Or.inr ⟨r.call, result, fun _ => hrec.unsettled hr hnone, fun c' result' => ?_,
        hcalled, hrec.ongoing i r hr, Or.inr ⟨hkeys, ?_⟩⟩
      · exact settled_answer hr (Or.inl hnone)
      · exact looked_spec h hplain hr hop (fun a ha => run_passed h hplain hr ha) hcalled hadv

/-! ## The order -/

/-- The keys in the list at an instant. -/
def keysAt (es : List (Event ι)) (t : Nat) : Set Int :=
  {k | ∃ u, At step start es t u ∧ k ∈ u.mem.keys}

theorem keysAt_eq (hu : At step start es t u) : keysAt es t = u.mem.keys := by
  ext k
  constructor
  · intro ⟨v, hv, hk⟩
    rwa [hu.unique hv]
  · exact fun hk => ⟨u, hu, hk⟩

theorem keysAt_snoc (ht : t ≤ es.length) : keysAt (es ++ [e]) t = keysAt es t := by
  unfold keysAt
  simp only [at_snoc ht]

def Answers (S : Set Int) (c : Call ι × Result) (S' : Set Int) : Prop :=
  c.1.op.SetStep S c.2 S'

/-- The log puts every call with a settled answer at an instant, not before the
call nor after its return, so that in this order they answer as a set does, which
has at each instant the keys in the list. -/
structure Linearized (es : List (Event ι)) (s : State ι) (log : List (Nat × Call ι × Result)) :
    Prop where
  timeline : Timeline Answers (keysAt es) es.length log
  once : (log.map fun a => a.2.1).Nodup
  called : ∀ a ∈ log, a.2.1.called ≤ a.1
  returned : ∀ a ∈ log, ∀ r ∈ s.returned, r.call = a.2.1 → a.1 < r.returned
  settled : ∀ a ∈ log, s.Settled a.2.1 a.2.2
  complete : ∀ c result, s.Settled c result → result ≠ .abortFailure →
    ∃ t, (t, c, result) ∈ log

omit [DecidableEq ι] in
theorem Memory.new_keys : (Memory.new : Memory ι).keys = ∅ := by
  rw [Set.eq_empty_iff_forall_notMem]
  intro k ⟨hlo, hhi, a, _, _, hk⟩
  rcases (Memory.new_spec (ι := ι) a).2.2 with ⟨_, hmin, _⟩ | ⟨_, hmax, _⟩
  · exact hlo.ne (hmin.symm.trans hk)
  · exact hhi.ne (hk.symm.trans hmax)

theorem start_linearized : Linearized [] (start : State ι) [] where
  timeline := .zero
  once := .nil
  called _ ha := by cases ha
  returned _ ha := by cases ha
  settled _ ha := by cases ha
  complete c result hset := by
    rcases hset with ⟨r, hr, _⟩ | ⟨i, r, hr, _⟩
    · cases hr
    · cases hr

/-- The log as it is, or with an operation put in. -/
theorem Linearized.extend {log log' : List (Nat × Call ι × Result)} {new : Nat × Call ι × Result}
    (hl : Linearized es s log) (hperm : log'.Perm (new :: log))
    (htime : Timeline Answers (keysAt (es ++ [e])) (es ++ [e]).length log')
    (hfresh : ∀ result, ¬ s.Settled new.2.1 result) (hcalled : new.2.1.called ≤ new.1)
    (hnew : ∀ r ∈ s'.returned, r.call = new.2.1 → new.1 < r.returned)
    (hreturned : ∀ a ∈ log, ∀ r ∈ s'.returned, r.call = a.2.1 → a.1 < r.returned)
    (hset : ∀ c result, s'.Settled c result ↔
      s.Settled c result ∨ (c = new.2.1 ∧ result = new.2.2)) :
    Linearized (es ++ [e]) s' log' where
  timeline := htime
  once := by
    rw [(hperm.map _).nodup_iff, List.map_cons, List.nodup_cons]
    refine ⟨fun hmem => ?_, hl.once⟩
    obtain ⟨a, ha, hcall⟩ := List.mem_map.mp hmem
    exact hfresh _ (hcall ▸ hl.settled a ha)
  called a ha := by
    rcases List.mem_cons.mp (hperm.mem_iff.mp ha) with rfl | ha
    · exact hcalled
    · exact hl.called a ha
  returned a ha := by
    rcases List.mem_cons.mp (hperm.mem_iff.mp ha) with rfl | ha
    · exact hnew
    · exact hreturned a ha
  settled a ha := by
    rcases List.mem_cons.mp (hperm.mem_iff.mp ha) with rfl | ha
    · exact (hset _ _).mpr (Or.inr ⟨rfl, rfl⟩)
    · exact (hset _ _).mpr (Or.inl (hl.settled a ha))
  complete c result hc hne := by
    rcases (hset c result).mp hc with hc | ⟨rfl, rfl⟩
    · obtain ⟨t, ht⟩ := hl.complete c result hc hne
      exact ⟨t, hperm.mem_iff.mpr (List.mem_cons_of_mem _ ht)⟩
    · exact ⟨new.1, hperm.mem_iff.mpr List.mem_cons_self⟩

theorem step_returned (h : step s e = some s') :
    ∀ r ∈ s'.returned, r ∈ s.returned ∨ r.returned = s.clock + 1 := by
  rcases step_cases h with ⟨i, op, _, _, rfl⟩ | ⟨i, r, m, o, _, _, _, rfl⟩
  · exact fun r hr => Or.inl hr
  · cases o with
    | goto pc => exact fun r hr => Or.inl hr
    | answer result =>
      intro r' hr'
      rcases List.mem_append.mp hr' with hr' | hr'
      · exact Or.inl hr'
      · rw [List.mem_singleton.mp hr']
        exact Or.inr rfl

theorem step_linearized {log : List (Nat × Call ι × Result)} (h : exec step start es = some s)
    (hplain : Plain (es ++ [e])) (hs : step s e = some s') (hl : Linearized es s log) :
    ∃ log', Linearized (es ++ [e]) s' log' := by
  have hlen : (es ++ [e]).length = es.length + 1 := by simp
  have hnow : keysAt (es ++ [e]) (es ++ [e]).length = s'.mem.keys :=
    keysAt_eq (at_length (exec_snoc.mpr ⟨s, h, hs⟩))
  have hbefore : keysAt (es ++ [e]) es.length = s.mem.keys :=
    (keysAt_snoc le_rfl).trans (keysAt_eq (at_length h))
  have htime := hl.timeline.congr fun t ht => keysAt_snoc (e := e) ht
  -- an answer given by this step comes after all instants of the past
  have hlate : ∀ r ∈ s'.returned, r ∈ s.returned ∨ r.returned = es.length + 1 := by
    rw [← (run_recorded h).clock]
    exact step_returned hs
  have hreturned : ∀ a ∈ log, ∀ r ∈ s'.returned, r.call = a.2.1 → a.1 < r.returned := by
    intro a ha r hr hcall
    rcases hlate r hr with hr | hr
    · exact hl.returned a ha r hr hcall
    · exact hr ▸ (hl.timeline.past a ha).trans (Nat.lt_succ_self _)
  rw [hlen] at hnow
  rcases step_settles h hplain.init hs with ⟨hkeys, hmono, hnone⟩ |
    ⟨c, result, hfresh, hset, hcalled, hnew, hspec⟩
  · refine ⟨log, ?_, hl.once, hl.called, hreturned, fun a ha => hmono _ _ (hl.settled a ha),
      fun c result hc hne => hl.complete c result (hnone c result hc hne) hne⟩
    rw [hlen]
    exact htime.idle (by rw [hnow, hbefore, hkeys])
  · have hlast : ∀ r ∈ s'.returned, r.call = c → r.returned = es.length + 1 := by
      intro r hr hcall
      rcases hlate r hr with hr | hr
      · exact absurd hcall (hnew r hr)
      · exact hr
    rcases hspec with hact | ⟨hkeys, t, u, ht, hu, hlook⟩
    · have hperm : (log ++ [(es.length, c, result)]).Perm ((es.length, c, result) :: log) :=
        List.perm_append_singleton _ _
      refine ⟨_, hl.extend hperm ?_ hfresh hcalled (fun r hr hcall => ?_) hreturned hset⟩
      · rw [hlen]
        exact htime.act (by rwa [hnow, hbefore])
      · exact hlast r hr hcall ▸ Nat.lt_succ_self _
    · have htlt := Nat.lt_succ_of_le hu.1
      refine ⟨_, hl.extend (place_perm log t (c, result)) ?_ hfresh ht (fun r hr hcall => ?_)
        hreturned hset⟩
      · rw [hlen]
        refine (htime.idle (by rw [hnow, hbefore, hkeys])).look htlt ?_
        rwa [keysAt_snoc hu.1, keysAt_eq hu]
      · exact hlast r hr hcall ▸ htlt

/-! ## Giving up -/

/-- The accesses a thread has made since it called, up to an instant, have changed
no link and no mark. -/
def Quiet (es : List (Event ι)) (c : Call ι) (t : Nat) : Prop :=
  ∀ n u v, c.called ≤ n → n < t → es[n]? = some (.next c.thread) → At step start es n u →
    At step start es (n + 1) v → v.mem.next = u.mem.next ∧ v.mem.marked = u.mem.marked

theorem Quiet.old (h : Quiet es c t) (ht : t ≤ es.length) : Quiet (es ++ [e]) c t := by
  intro n u v hc hn he hu hv
  have hlt := hn.trans_le ht
  rw [List.getElem?_append_left hlt] at he
  exact h n u v hc hn he ((at_snoc hlt.le).mp hu) ((at_snoc hlt).mp hv)

theorem Quiet.snoc (hq : Quiet es c es.length) (h : exec step start es = some s)
    (hs : step s e = some s') (hsame : e = .next c.thread →
      s'.mem.next = s.mem.next ∧ s'.mem.marked = s.mem.marked) :
    Quiet (es ++ [e]) c (es.length + 1) := by
  intro n u v hc hn he hu hv
  rcases Nat.lt_or_eq_of_le (Nat.lt_succ_iff.mp hn) with hlt | rfl
  · exact hq.old le_rfl n u v hc hlt he hu hv
  · rw [List.getElem?_concat_length] at he
    have hrun := exec_snoc.mpr ⟨s, h, hs⟩
    obtain rfl : u = s := ((at_snoc le_rfl).mp hu).unique (at_length h)
    obtain rfl : v = s' := hv.unique (by simpa using at_length hrun)
    exact hsame (Option.some.inj he)

/-- What is known of a call that has given up. -/
structure GaveUp (es : List (Event ι)) (r : Returned ι) : Prop where
  updates : ¬ r.call.op.reads
  quiet : Quiet es r.call r.returned
  unlocked : ∀ u, At step start es r.returned u → ∀ a, u.mem.lock a ≠ some r.call.thread

theorem GaveUp.old {r : Returned ι} (h : GaveUp es r) (hr : r.returned ≤ es.length) :
    GaveUp (es ++ [e]) r :=
  ⟨h.updates, h.quiet.old hr, fun u hu => h.unlocked u ((at_snoc hr).mp hu)⟩

theorem run_quiet (h : exec step start es = some s) (hplain : Plain es) :
    (∀ i r, s.thread i = some r → r.pc.untouched → Quiet es r.call es.length) ∧
      ∀ r ∈ s.returned, r.answer = .abortFailure → GaveUp es r := by
  refine exec_induction (motive := fun es (s : State ι) => Plain es →
    (∀ i r, s.thread i = some r → r.pc.untouched → Quiet es r.call es.length) ∧
      ∀ r ∈ s.returned, r.answer = .abortFailure → GaveUp es r) ?_ ?_ h hplain
  · intro _
    exact ⟨fun i r hr => (by cases hr), fun r hr => (by cases hr)⟩
  intro es v e s' hv ih hs hplain
  obtain ⟨hquiet, hgave⟩ := ih hplain.init
  have hrun := exec_snoc.mpr ⟨v, hv, hs⟩
  have hinv := run_inv hplain.init hv
  have hrec := run_recorded hv
  have hlen : (es ++ [e]).length = es.length + 1 := by simp
  have hold : ∀ r ∈ v.returned, r.answer = .abortFailure → GaveUp (es ++ [e]) r :=
    fun r hr hans => (hgave r hr hans).old (hrec.returned r hr).2
  rw [hlen]
  rcases step_cases hs with ⟨i, op, rfl, hi, rfl⟩ | ⟨i, r, m, o, rfl, hr, hadv, rfl⟩
  · refine ⟨fun j r' hj hun => ?_, hold⟩
    rcases update_thread hj with ⟨rfl, rfl⟩ | ⟨_, hj⟩
    · intro n _ _ hc hn
      rw [hrec.clock] at hc
      exact absurd hn (not_lt.mpr hc)
    · exact (hquiet j r' hj hun).snoc hv hs nofun
  · have hothers : ∀ j r', j ≠ i → v.thread j = some r' → r'.pc.untouched →
        Quiet (es ++ [.next i]) r'.call (es.length + 1) := by
      intro j r' hji hj hun
      refine (hquiet j r' hj hun).snoc hv hs fun he => ?_
      rw [(hrec.called j r' hj).1] at he
      cases he
      exact absurd rfl hji
    have hown : o.untouched → Quiet (es ++ [.next i]) r.call (es.length + 1) := by
      intro ho
      obtain ⟨hun, hnext, hmarked⟩ := advance_untouched hadv ho (hinv.valid i r hr)
      refine (hquiet i r hr hun).snoc hv hs fun _ => ?_
      cases o <;> exact ⟨hnext, hmarked⟩
    cases o with
    | goto pc =>
      refine ⟨fun j r' hj hun => ?_, hold⟩
      rcases goto_thread hj with ⟨rfl, rfl⟩ | ⟨hji, hj⟩
      · exact hown hun
      · exact hothers j r' hji hj hun
    | answer result =>
      refine ⟨fun j r' hj hun => ?_, fun r' hr' hans => ?_⟩
      · obtain ⟨hji, hj⟩ := answer_thread hj
        exact hothers j r' hji hj hun
      · rcases List.mem_append.mp hr' with hr' | hr'
        · exact hold r' hr' hans
        · obtain rfl := List.mem_singleton.mp hr'
          have hnow : (v.proceed i r m (.answer result)).returned = v.returned ++
            [⟨r.call, result, es.length + 1⟩] := by rw [State.proceed, hrec.clock]
          refine ⟨(hinv.advanced hr hadv).valid hans, ?_, fun u hu a hlock => ?_⟩
          · rw [hrec.clock]
            exact hown hans
          · rw [hrec.clock, ← hlen] at hu
            obtain rfl := hu.unique (at_length hrun)
            obtain ⟨r'', hr'', _⟩ := (run_inv hplain hrun).holds _ a hlock
            exact (answer_thread hr'').1 (hrec.called i r hr).1

/-- **The list is linearizable.** In every run of any threads there is one order of
the calls that have been answered, each at an instant between its call and its
return, in which a set answers them so. A call that gives up is an `add` or a
`remove`; it has changed no link and no mark and holds no lock. -/
theorem list_linearizable (hplain : Plain es) (h : exec step start es = some s) :
    (∃ log, Linearized es s log ∧ Plays Answers ∅ (log.map Prod.snd) s.mem.keys) ∧
      ∀ r ∈ s.returned, r.answer = .abortFailure → GaveUp es r := by
  refine ⟨?_, (run_quiet h hplain).2⟩
  have hlog : ∃ log, Linearized es s log := by
    refine exec_induction (motive := fun es (s : State ι) => Plain es →
      ∃ log, Linearized es s log) ?_ ?_ h hplain
    · exact fun _ => ⟨[], start_linearized⟩
    · intro es v e s' hv ih hs hplain
      obtain ⟨log, hl⟩ := ih hplain.init
      exact step_linearized hv hplain hs hl
  obtain ⟨log, hl⟩ := hlog
  refine ⟨log, hl, ?_⟩
  have hfirst : keysAt es 0 = ∅ := (keysAt_eq at_zero).trans Memory.new_keys
  have hplays := hl.timeline.plays_all
  rwa [hfirst, keysAt_eq (at_length h)] at hplays

/-- `remove` gives up at a node that `add` has locked; `contains` comes after. -/
def contended : List (Event Bool) :=
  .call true (.add 5 1) :: List.replicate 3 (.next true) ++
  .call false (.remove 5) :: List.replicate 3 (.next false) ++ List.replicate 10 (.next true) ++
  .call false (.contains 5) :: List.replicate 5 (.next false)

theorem list_linearizable_contended : ∃ s, exec step start contended = some s ∧
    s.returned.map (fun r => (r.call.op, r.answer)) =
      [(.remove 5, .abortFailure), (.add 5 1, .true), (.contains 5, .true)] ∧
    (∃ log, Linearized contended s log ∧ Plays Answers ∅ (log.map Prod.snd) s.mem.keys) ∧
      ∀ r ∈ s.returned, r.answer = .abortFailure → GaveUp contended r := by
  have hplain : Plain contended := by
    intro i op hm
    have hops : i = true ∧ op = .add 5 1 ∨ i = false ∧ op = .remove 5 ∨
        i = false ∧ op = .contains 5 := by
      simpa [contended] using hm
    rcases hops with ⟨_, rfl⟩ | ⟨_, rfl⟩ | ⟨_, rfl⟩ <;> decide
  have hrun : (exec step start contended).map (fun s =>
      s.returned.map fun r => (r.call.op, r.answer)) =
        some [(.remove 5, .abortFailure), (.add 5 1, .true), (.contains 5, .true)] := by
    decide
  obtain ⟨s, hs, hanswers⟩ := Option.map_eq_some_iff.mp hrun
  exact ⟨s, hs, hanswers, list_linearizable hplain hs⟩

end ConcurrentComputing.LazyList
