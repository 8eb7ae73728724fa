import ConcurrentComputing.LazyListSet

/-! # What `contains` may answer

`add` and `remove` take effect at an access of their own, but `contains` may have
to answer for an instant of the past: the node it is at may have been taken out of
the list meanwhile. What helps is that a node it has reached was in the list at
some instant since the call, with the pointer it has now. -/

namespace ConcurrentComputing.LazyList

open Function Runs SortedChain

/-! ## What holds of the past -/

namespace Memory

variable {ι : Type} {i : ι} {O : Set Addr} {m m' m'' : Memory ι} {a : Addr}

/-- What is never undone. -/
structure Later (m m' : Memory ι) : Prop where
  published : ∀ a, m.Published a → m'.Published a
  key : ∀ a, m.Published a → m'.key a = m.key a

theorem Later.refl (m : Memory ι) : Later m m := ⟨fun _ h => h, fun _ _ => rfl⟩

theorem Later.trans (h : Later m m') (h' : Later m' m'') : Later m m'' :=
  ⟨fun a ha => h'.published a (h.published a ha),
    fun a ha => (h'.key a (h.published a ha)).trans (h.key a ha)⟩

theorem Effect.later (h : Effect i O m m') (hs : m.Shape) : Later m m' :=
  ⟨fun _ ha => h.published hs ha, fun _ ha => h.key (hs.published_lt ha)⟩

end Memory

variable {ι : Type} [DecidableEq ι] {s s' u : State ι} {es : List (Event ι)} {e : Event ι}
  {t : Nat} {a : Addr} {i : ι} {r : Running ι}

/-- The calls of a run are plain. -/
def Plain (es : List (Event ι)) : Prop := ∀ i op, .call i op ∈ es → op.Plain

omit [DecidableEq ι] in
theorem Plain.init (h : Plain (es ++ [e])) : Plain es := fun i op hm => h i op (by simp [hm])

/-- Every step is some thread's effect on the memory. -/
theorem step_effect (hinv : Inv s) (h : step s e = some s') : ∃ i O, s.mem.Effect i O s'.mem := by
  rcases step_cases h with ⟨i, op, _, _, rfl⟩ | ⟨i, r, m, o, _, hr, hadv, rfl⟩
  · exact ⟨i, ∅, .same⟩
  · refine ⟨i, r.pc.owns, ?_⟩
    cases o <;> exact (hinv.advanced hr hadv).effect

/-- The state at an instant is that of a run, and what is not undone holds since. -/
theorem At.later (h : exec step start es = some s) (hplain : Plain es)
    (hu : At step start es t u) : Inv u ∧ u.mem.Later s.mem := by
  revert t u
  refine exec_induction (motive := fun es (s : State ι) => Plain es → ∀ {t u},
    At step start es t u → Inv u ∧ u.mem.Later s.mem) ?_ ?_ h hplain
  · intro _ t u ⟨ht, hu⟩
    obtain rfl := Nat.le_zero.mp ht
    cases hu
    exact ⟨start_inv, .refl _⟩
  · intro es v e s' hv ih hs hplain t u hu
    have hrun := exec_snoc.mpr ⟨v, hv, hs⟩
    rcases at_snoc_cases hu hrun with ⟨_, hu⟩ | ⟨_, rfl⟩
    · obtain ⟨hinv, hlater⟩ := ih hplain.init hu
      have hinv' := run_inv hplain.init hv
      obtain ⟨i, O, heff⟩ := step_effect hinv' hs
      exact ⟨hinv, hlater.trans (heff.later hinv'.shape)⟩
    · exact ⟨run_inv hplain hrun, .refl _⟩

/-- **Hindsight.** A node that was in the chain at some instant was so at a later
one at which it had the pointer and the mark it has now. -/
theorem hindsight (h : exec step start es = some s) (hplain : Plain es)
    (hu : At step start es t u) (ha : Reaches u.mem.next head a) :
    ∃ t' w, t ≤ t' ∧ At step start es t' w ∧ Reaches w.mem.next head a ∧
      w.mem.next a = s.mem.next a ∧ w.mem.marked a = s.mem.marked a := by
  revert t u
  refine exec_induction (motive := fun es (s : State ι) => Plain es → ∀ {t u},
    At step start es t u → Reaches u.mem.next head a → ∃ t' w, t ≤ t' ∧ At step start es t' w ∧
      Reaches w.mem.next head a ∧ w.mem.next a = s.mem.next a ∧
        w.mem.marked a = s.mem.marked a) ?_ ?_ h hplain
  · intro _ t u hu ha
    refine ⟨t, u, le_rfl, hu, ha, ?_⟩
    obtain rfl := Nat.le_zero.mp hu.1
    rw [hu.unique at_zero]
    exact ⟨rfl, rfl⟩
  · intro es v e s' hv ih hs hplain t u hu ha
    have hrun := exec_snoc.mpr ⟨v, hv, hs⟩
    have hnow := at_length hrun
    rcases at_snoc_cases hu hrun with ⟨ht, hu⟩ | ⟨ht, rfl⟩
    · obtain ⟨t', w, htt', hw, hwa, hnext, hmark⟩ := ih hplain.init hu ha
      have hinv := run_inv hplain.init hv
      obtain ⟨i, O, heff⟩ := step_effect hinv hs
      cases hm : v.mem.marked a with
      | true =>
        obtain ⟨hm', hn'⟩ := heff.frozen hinv.shape hm
        exact ⟨t', w, htt', (at_snoc hw.1).mpr hw, hwa, hnext.trans hn'.symm,
          (hmark.trans hm).trans hm'.symm⟩
      | false =>
        -- not marked before the step, it is still in the chain after it
        have hpub := (At.later hv hplain.init hu).2.published a (Or.inl ha)
        have hlast : Reaches s'.mem.next head a := by
          cases hm' : s'.mem.marked a with
          | true =>
            obtain ⟨hra, hn'⟩ := heff.marking hm hm'
            rwa [hn']
          | false => exact (heff.published hinv.shape hpub).reaches hm'
        exact ⟨_, s', hu.1.trans (by simp), hnow, hlast, rfl, rfl⟩
    · exact ⟨t, u, le_rfl, hu, ha, rfl, rfl⟩

/-! ## What `contains` has seen -/

/-- The node a traversal of `contains` is at. -/
def Pc.looking : Pc → Option Addr
  | .readKey runner | .readNext runner | .compareKey runner | .readMarked runner => some runner
  | _ => none

omit [DecidableEq ι] in
/-- A call that only reads is at some node. -/
theorem Pc.Valid.looking {m : Memory ι} {op : Op} {pc : Pc} (hv : pc.Valid m i op)
    (hop : op.reads) : ∃ a, pc.looking = some a ∧ m.Published a := by
  have hadd : ¬ op.adds := by
    cases op with
    | contains key => exact id
    | _ => exact hop.elim
  have hremove : ∀ key, op ≠ .remove key := by
    rintro key rfl
    exact hop
  cases pc with
  | readKey runner => exact ⟨runner, rfl, hv.2⟩
  | readNext runner => exact ⟨runner, rfl, hv.2.1⟩
  | compareKey runner => exact ⟨runner, rfl, hv.2.1⟩
  | readMarked runner => exact ⟨runner, rfl, hv.2.1⟩
  | mark pred runner => exact absurd hv.1 (hremove _)
  | readSucc pred runner => exact absurd hv.1 (hremove _)
  | unlink pred runner succ => exact absurd hv.1 (hremove _)
  | create pred runner => exact absurd hv.1 hadd
  | setNext pred runner insertion => exact absurd hv.1 hadd
  | link pred runner insertion => exact absurd hv.1 hadd
  | _ => exact absurd hop hv.1

/-- Since the call the node was in the chain at an instant, and if its key is
greater than the one looked for, that one was not in the list then. -/
def Passed (es : List (Event ι)) (c : Call ι) (runner : Addr) : Prop :=
  ∃ t u, c.called ≤ t ∧ At step start es t u ∧ Reaches u.mem.next head runner ∧
    (c.op.key < u.mem.key runner → c.op.key ∉ u.mem.keys)

theorem Passed.snoc {c : Call ι} (h : Passed es c a) (e : Event ι) : Passed (es ++ [e]) c a := by
  obtain ⟨t, u, hc, hu, hr⟩ := h
  exact ⟨t, u, hc, (at_snoc hu.1).mpr hu, hr⟩

/-- The traversal goes on to the next node. -/
theorem Passed.next {c : Call ι} {b : Addr} (h : exec step start es = some s) (hplain : Plain es)
    (hp : Passed es c a) (hk : s.mem.key a < c.op.key) (hn : s.mem.next a = some b) :
    Passed es c b := by
  obtain ⟨t, u, hc, hu, ha, _⟩ := hp
  obtain ⟨t', w, htt', hw, hwa, hnext, _⟩ := hindsight h hplain hu ha
  obtain ⟨hinv, hlater⟩ := At.later h hplain hw
  have hab := hnext.trans hn
  refine ⟨t', w, hc.trans htt', hw, hwa.step hab, fun hlt => ?_⟩
  refine hinv.shape.notMem_keys hwa hab ?_ hlt
  rwa [← hlater.key a (Or.inl hwa)]

/-- **What `contains` answers** was true at an instant since its call. -/
theorem looked_spec {m : Memory ι} {result : Result} (h : exec step start es = some s)
    (hplain : Plain es) (hr : s.thread i = some r) (hop : r.call.op.reads)
    (hpassed : ∀ a, r.pc.looking = some a → Passed es r.call a)
    (hcalled : r.call.called ≤ es.length)
    (hadv : advance s.mem i r.call.op r.pc = some (m, .answer result)) :
    ∃ t u, r.call.called ≤ t ∧ At step start es t u ∧
      r.call.op.SetStep u.mem.keys result u.mem.keys := by
  have hinv := run_inv hplain h
  have hv := hinv.valid i r hr
  have hkey := (hinv.plain i r hr).2
  obtain ⟨a, ha, hpub⟩ := hv.looking hop
  obtain ⟨⟨thread, op, called⟩, pc⟩ := r
  cases op with
  | add key val => exact hop.elim
  | remove key => exact hop.elim
  | contains key =>
    cases pc with
    | compareKey runner =>
      obtain ⟨t, u, hc, hu, hru, habsent⟩ := hpassed runner rfl
      obtain ⟨_, hlater⟩ := At.later h hplain hu
      simp only [advance] at hadv
      split at hadv
      · cases hadv
      · rename_i hne
        cases hadv
        refine ⟨t, u, hc, hu, habsent ?_, rfl⟩
        rw [← hlater.key runner (Or.inl hru)]
        exact lt_of_le_of_ne hv.2.2 (Ne.symm hne)
    | readMarked runner =>
      obtain ⟨t, u, hc, hu, hru, _⟩ := hpassed runner rfl
      have hkey : intMin < key ∧ key < intMax := hkey
      have hk : s.mem.key runner = key := hv.2.2
      simp only [advance] at hadv
      split at hadv
      · rename_i hm
        cases hadv
        obtain ⟨t', w, htt', hw, hwr, _, hwm⟩ := hindsight h hplain hu hru
        obtain ⟨hwinv, hlater⟩ := At.later h hplain hw
        refine ⟨t', w, hc.trans htt', hw, ?_, rfl⟩
        have hwk : w.mem.key runner = key := (hlater.key runner (Or.inl hwr)).symm.trans hk
        rw [hwinv.shape.mem_keys_iff hkey hwr hwk, hwm, hm]
        decide
      · rename_i hm
        have hm' := Bool.eq_false_iff.mpr hm
        cases hadv
        refine ⟨es.length, s, hcalled, at_length h, ?_, rfl⟩
        cases ha
        exact (hinv.shape.mem_keys_iff hkey (hpub.reaches hm') hk).mpr hm'
    | readNext runner =>
      obtain ⟨_, _, he⟩ := Option.map_eq_some_iff.mp hadv
      cases he
    | readKey runner => cases hadv
    | _ => cases ha

omit [DecidableEq ι] in
theorem Pc.looking_goto {m m' : Memory ι} {op : Op} {pc pc' : Pc} (hop : ¬ op.reads)
    (h : advance m i op pc = some (m', .goto pc')) (hv : pc.Valid m i op) :
    pc'.looking = none := by
  cases pc with
  | readKey runner => exact absurd hv.1 hop
  | readNext runner => exact absurd hv.1 hop
  | compareKey runner => exact absurd hv.1 hop
  | readMarked runner => exact absurd hv.1 hop
  | walkNext pred =>
    obtain ⟨next, _, he⟩ := Option.map_eq_some_iff.mp h
    cases he
    rfl
  | lockPred pred runner =>
    simp only [advance] at h
    split at h <;> cases h
    rfl
  | lockRunner pred runner =>
    simp only [advance] at h
    split at h <;> cases h <;> rfl
  | giveUp pred => cases h
  | decide pred runner =>
    cases op with
    | contains key => exact absurd trivial hop
    | remove key => cases h; split <;> rfl
    | add key val => cases h; split <;> rfl
  | create pred runner =>
    cases op with
    | add key val => cases h; rfl
    | _ => cases h
  | walkKey pred runner => cases h; split <;> rfl
  | checkLink pred runner => cases h; split <;> rfl
  | checkPred pred runner => cases h; split <;> rfl
  | checkRunner pred runner => cases h; split <;> rfl
  | unlockRunner runner result =>
    cases result with
    | some result => cases h
    | none =>
      cases h
      cases op with
      | contains key => exact absurd trivial hop
      | _ => rfl
  | _ => cases h; rfl

omit [DecidableEq ι] in
/-- A traversal of `contains` stays at its node or follows its pointer. -/
theorem advance_looking {m m' : Memory ι} {op : Op} {pc pc' : Pc} {b : Addr}
    (hv : pc.Valid m i op) (h : advance m i op pc = some (m', .goto pc'))
    (hl : pc'.looking = some b) :
    ∃ a, pc.looking = some a ∧ (a = b ∨ (m.next a = some b ∧ m.key a < op.key)) := by
  by_cases hop : op.reads
  · obtain ⟨a, ha, _⟩ := hv.looking hop
    cases pc with
    | readKey runner =>
      cases h
      refine ⟨runner, rfl, Or.inl ?_⟩
      split at hl <;> exact Option.some.inj hl
    | readNext runner =>
      obtain ⟨next, hn, he⟩ := Option.map_eq_some_iff.mp h
      cases he
      cases hl
      exact ⟨runner, rfl, Or.inr ⟨hn, hv.2.2⟩⟩
    | compareKey runner =>
      simp only [advance] at h
      split at h
      · cases h
        exact ⟨runner, rfl, Or.inl (Option.some.inj hl)⟩
      · cases h
    | readMarked runner => cases h
    | _ => cases ha
  · -- an update never looks on like that
    have hnext := (Pc.looking_goto hop h hv).symm.trans hl
    cases hnext

/-- Every traversal of `contains` is at a node it has passed since its call. -/
theorem run_passed (h : exec step start es = some s) (hplain : Plain es)
    (hr : s.thread i = some r) (ha : r.pc.looking = some a) : Passed es r.call a := by
  revert i r a
  refine exec_induction (motive := fun es (s : State ι) => Plain es → s.clock = es.length ∧
    ∀ {i r a}, s.thread i = some r → r.pc.looking = some a → Passed es r.call a)
    ?_ ?_ h hplain |>.2
  · exact fun _ => ⟨rfl, fun hr => by cases hr⟩
  · intro es v e s' hv ih hs hplain
    obtain ⟨hclock, hpassed⟩ := ih hplain.init
    have hrun := exec_snoc.mpr ⟨v, hv, hs⟩
    have hinv := run_inv hplain.init hv
    rcases step_cases hs with ⟨i, op, he, hi, rfl⟩ | ⟨i, r, m, o, _, hr, hadv, rfl⟩
    · have hop : op.Plain := hplain i op (by simp [he])
      refine ⟨by simp [hclock], fun {j r' a} hj ha => ?_⟩
      rcases update_thread hj with ⟨rfl, rfl⟩ | ⟨_, hj⟩
      · have hhead : a = head := by
          cases op with
          | contains key => exact (Option.some.inj ha).symm
          | add key val => cases ha
          | remove key => cases ha
        subst hhead
        refine ⟨_, _, ?_, at_length hrun, .refl, fun hlt => ?_⟩
        · simp [hclock]
        · dsimp only at hlt
          rw [hinv.shape.headKey] at hlt
          exact absurd hop.1 (not_lt.mpr hlt.le)
      · exact (hpassed hj ha).snoc e
    · cases o with
      | answer result =>
        refine ⟨by simp [State.proceed, hclock], fun {j r' a} hj ha => ?_⟩
        exact (hpassed (answer_thread hj).2 ha).snoc e
      | goto pc =>
        refine ⟨by simp [State.proceed, hclock], fun {j r' b} hj hb => ?_⟩
        rcases goto_thread hj with ⟨rfl, rfl⟩ | ⟨_, hj⟩
        · obtain ⟨a, ha, rfl | ⟨hn, hk⟩⟩ := advance_looking (hinv.valid _ r hr) hadv hb
          · exact (hpassed hr ha).snoc e
          · exact ((hpassed hr ha).next hv hplain.init hk hn).snoc e
        · exact (hpassed hj hb).snoc e

end ConcurrentComputing.LazyList
