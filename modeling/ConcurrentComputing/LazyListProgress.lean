import ConcurrentComputing.LazyListLinear
import ConcurrentComputing.LazyListRest

/-! # Every call comes to its end

A call waits for no lock, and the others can make it start again only by changing the
list. So a thread that is left alone is soon done with its call, wherever the others
have stopped, and `contains` is done soon even if they do not stop. -/

namespace ConcurrentComputing.LazyList

open Function Runs SortedChain

variable {ι : Type} {m m' : Memory ι} {i : ι} {op : Op} {a b : Addr} {pc pc' : Pc} {o : Outcome}

/-! ## A thread left alone -/

/-- The nodes that may come after this one. -/
def Memory.above (m : Memory ι) (a : Addr) : Nat :=
  SortedChain.above (Finset.range m.fresh) m.key a

theorem Memory.above_le (m : Memory ι) (a : Addr) : m.above a ≤ m.fresh :=
  (SortedChain.above_le _ _ _).trans (Finset.card_range _).le

theorem Memory.Shape.above_lt (h : m.Shape) (hab : m.next a = some b) : m.above b < m.above a :=
  h.ascending.above_lt hab (Finset.mem_range.mpr (h.pointed a b hab))

/-- The accesses left to the thread, the next round apart. -/
def Pc.left (m : Memory ι) : Pc → Nat
  | .readKey runner => 2 * m.above runner + 3
  | .readNext runner => 2 * m.above runner + 2
  | .compareKey _ => 2
  | .readMarked _ => 1
  | .walkNext pred => 2 * m.above pred + 12
  | .walkKey _ runner => 2 * m.above runner + 13
  | .lockPred _ _ => 12
  | .lockRunner _ _ => 11
  | .checkLink _ _ => 10
  | .checkPred _ _ => 9
  | .checkRunner _ _ => 8
  | .decide _ _ => 7
  | .mark _ _ | .create _ _ => 6
  | .readSucc _ _ | .setNext _ _ _ => 5
  | .unlink _ _ _ | .link _ _ _ => 4
  | .unlockPred _ _ _ => 3
  | .unlockRunner _ _ => 2
  | .giveUp _ => 1

/-- The round has found neighbours in the chain as it is, or has no other after it. -/
def Pc.Current (m : Memory ι) : Pc → Prop
  | .walkNext pred => Reaches m.next head pred
  | .walkKey pred runner | .lockPred pred runner | .lockRunner pred runner
  | .checkLink pred runner | .checkPred pred runner | .checkRunner pred runner =>
    Reaches m.next head pred ∧ m.next pred = some runner
  | .unlockPred _ _ result | .unlockRunner _ result => result ≠ none
  | _ => True

/-- A bound on the accesses left, with another round if there is one. -/
def Pc.Within (m : Memory ι) (n : Nat) (pc : Pc) : Prop :=
  (pc.Current m ∧ pc.left m ≤ n) ∨ pc.left m + 2 * m.fresh + 12 ≤ n

theorem Pc.left_pos (m : Memory ι) (pc : Pc) : 0 < pc.left m := by
  cases pc <;> exact Nat.succ_pos _

theorem Pc.left_le (m : Memory ι) (pc : Pc) : pc.left m ≤ 2 * m.fresh + 13 := by
  cases pc with
  | readKey a | readNext a | walkNext a =>
    have hle := m.above_le a
    simp only [Pc.left]
    omega
  | walkKey pred runner =>
    have hle := m.above_le runner
    simp only [Pc.left]
    omega
  | _ =>
    simp only [Pc.left]
    omega

variable {n : Nat}

/-- An access on the way. -/
theorem Pc.Within.next (h : pc.Within m (n + 1)) (hcur : pc.Current m → pc'.Current m')
    (hleft : pc'.left m' < pc.left m) (hfresh : m'.fresh = m.fresh) : pc'.Within m' n := by
  rcases h with ⟨hc, hn⟩ | hn
  · exact Or.inl ⟨hcur hc, by omega⟩
  · rw [← hfresh] at hn
    exact Or.inr (by omega)

/-- An access after which there is no other round. -/
theorem Pc.Within.last (h : pc.Within m (n + 1)) (hcur : pc'.Current m')
    (hleft : pc'.left m' < pc.left m) : pc'.Within m' n := by
  rcases h with ⟨_, hn⟩ | hn
  · exact Or.inl ⟨hcur, by omega⟩
  · exact Or.inl ⟨hcur, by omega⟩

/-- **One access alone** leaves less to do. -/
theorem advance_within (hs : m.Shape) (hv : pc.Valid m i op)
    (hclear : ∀ a, Reaches m.next head a → m.lock a = some i → pc.unlinks = none →
      m.marked a = false)
    (h : advance m i op pc = some (m', o)) (hn : pc.Within m (n + 1)) :
    (∃ result, o = .answer result) ∨ ∃ pc', o = .goto pc' ∧ pc'.Within m' n := by
  cases pc with
  | readKey runner =>
    cases h
    split
    · exact Or.inr ⟨_, rfl, hn.last trivial (Nat.lt_succ_self _)⟩
    · exact Or.inr ⟨_, rfl, hn.last trivial (Nat.lt_add_left _ (Nat.lt_succ_self 2))⟩
  | readNext runner =>
    obtain ⟨next, hnext, he⟩ := Option.map_eq_some_iff.mp h
    cases he
    have hlt := hs.above_lt hnext
    exact Or.inr ⟨_, rfl, hn.last trivial (by simp only [Pc.left]; omega)⟩
  | compareKey runner =>
    cases h
    split
    · exact Or.inr ⟨_, rfl, hn.last trivial Nat.one_lt_two⟩
    · exact Or.inl ⟨_, rfl⟩
  | readMarked runner =>
    cases h
    exact Or.inl ⟨_, rfl⟩
  | walkNext pred =>
    obtain ⟨runner, hnext, he⟩ := Option.map_eq_some_iff.mp h
    cases he
    have hlt := hs.above_lt hnext
    exact Or.inr ⟨_, rfl, hn.next (fun hc => ⟨hc, hnext⟩) (by simp only [Pc.left]; omega) rfl⟩
  | walkKey pred runner =>
    cases h
    split
    · exact Or.inr ⟨_, rfl, hn.next (fun hc => hc.1.step hc.2) (Nat.lt_succ_self _) rfl⟩
    · exact Or.inr ⟨_, rfl, hn.next id (by simp only [Pc.left]; omega) rfl⟩
  | lockPred pred runner =>
    simp only [advance] at h
    split at h <;> cases h
    · exact Or.inl ⟨_, rfl⟩
    · refine Or.inr ⟨_, rfl, hn.next (fun hc => ?_) (Nat.lt_succ_self _) rfl⟩
      simpa only [Pc.Current, Memory.next_setLock] using hc
  | lockRunner pred runner =>
    simp only [advance] at h
    split at h <;> cases h
    · exact Or.inr ⟨_, rfl, hn.last trivial (by decide : 1 < 11)⟩
    · refine Or.inr ⟨_, rfl, hn.next (fun hc => ?_) (Nat.lt_succ_self _) rfl⟩
      simpa only [Pc.Current, Memory.next_setLock] using hc
  | giveUp pred =>
    cases h
    exact Or.inl ⟨_, rfl⟩
  | checkLink pred runner =>
    cases h
    split
    · exact Or.inr ⟨_, rfl, hn.next id (Nat.lt_succ_self _) rfl⟩
    · rename_i hne
      exact Or.inr ⟨_, rfl, hn.next (fun hc => absurd hc.2 hne) (by decide : 3 < 10) rfl⟩
  | checkPred pred runner =>
    cases h
    split
    · rename_i hm
      refine Or.inr ⟨_, rfl, hn.next (fun hc => ?_) (by decide : 3 < 9) rfl⟩
      rw [hclear pred hc.1 hv.2.2.1 rfl] at hm
      cases hm
    · exact Or.inr ⟨_, rfl, hn.next id (Nat.lt_succ_self _) rfl⟩
  | checkRunner pred runner =>
    cases h
    split
    · rename_i hm
      refine Or.inr ⟨_, rfl, hn.next (fun hc => ?_) (by decide : 3 < 8) rfl⟩
      rw [hclear runner (hc.1.step hc.2) hv.2.2.2.1 rfl] at hm
      cases hm
    · exact Or.inr ⟨_, rfl, hn.last trivial (Nat.lt_succ_self _)⟩
  | decide pred runner =>
    cases op with
    | contains key => cases h
    | remove key =>
      cases h
      split
      · exact Or.inr ⟨_, rfl, hn.last trivial (Nat.lt_succ_self _)⟩
      · exact Or.inr ⟨_, rfl, hn.last (Option.some_ne_none _) (by decide : 3 < 7)⟩
    | add key val =>
      cases h
      split
      · exact Or.inr ⟨_, rfl, hn.last trivial (Nat.lt_succ_self _)⟩
      · exact Or.inr ⟨_, rfl, hn.last (Option.some_ne_none _) (by decide : 3 < 7)⟩
  | create pred runner =>
    cases op with
    | add key val =>
      cases h
      exact Or.inr ⟨_, rfl, hn.last trivial (Nat.lt_succ_self _)⟩
    | _ => cases h
  | mark pred runner | readSucc pred runner | setNext pred runner insertion =>
    cases h
    exact Or.inr ⟨_, rfl, hn.last trivial (Nat.lt_succ_self _)⟩
  | unlink pred runner succ | link pred runner insertion =>
    cases h
    exact Or.inr ⟨_, rfl, hn.last (Option.some_ne_none _) (Nat.lt_succ_self _)⟩
  | unlockPred pred runner result =>
    cases h
    exact Or.inr ⟨_, rfl, hn.next id (Nat.lt_succ_self _) rfl⟩
  | unlockRunner runner result =>
    cases result with
    | some result =>
      cases h
      exact Or.inl ⟨_, rfl⟩
    | none =>
      cases h
      refine Or.inr ⟨_, rfl, Or.inl ?_⟩
      rcases hn with ⟨hc, _⟩ | hround
      · exact absurd rfl hc
      have hle : (m.setLock runner none).above head ≤ m.fresh := Memory.above_le _ _
      cases op with
      | contains key => exact absurd trivial hv.1
      | _ =>
        refine ⟨.refl, ?_⟩
        simp only [Op.start, Pc.left] at hround ⊢
        omega

variable [DecidableEq ι] {s s' : State ι} {r : Running ι} {es : List (Event ι)} {e : Event ι}

omit [DecidableEq ι] in
/-- A node of the chain that the thread has locked is unmarked, if it has not marked it. -/
theorem Inv.unmarked (h : Inv s) (hswept : Swept s) (hr : s.thread i = some r)
    (ha : Reaches s.mem.next head a) (hlock : s.mem.lock a = some i) (hun : r.pc.unlinks = none) :
    s.mem.marked a = false := by
  refine Bool.eq_false_iff.mpr fun hm => ?_
  obtain ⟨j, r', hj, hun'⟩ := hswept a ha hm
  have hv := h.valid j r' hj
  have hlock' : s.mem.lock a = some j := by
    obtain ⟨call, pc⟩ := r'
    cases pc with
    | readSucc pred runner =>
      cases hun'
      exact hv.2.2.runnerLock
    | unlink pred runner succ =>
      cases hun'
      exact hv.2.2.1.runnerLock
    | _ => cases hun'
  obtain rfl := Option.some.inj (hlock.symm.trans hlock')
  obtain rfl := Option.some.inj (hj.symm.trans hr)
  cases hun.symm.trans hun'

/-- A thread whose accesses are bounded is done after so many of its own. -/
theorem finishes_within (hinv : Inv s) (hswept : Swept s) (hr : s.thread i = some r)
    (hn : r.pc.Within s.mem n) : ∃ k ≤ n, ∃ s', exec step s (List.replicate k (.next i)) = some s' ∧
      s'.thread i = none ∧ ∃ r' ∈ s'.returned, r'.call = r.call := by
  induction n generalizing s r with
  | zero =>
    have hpos := r.pc.left_pos s.mem
    rcases hn with ⟨_, hn⟩ | hn <;> omega
  | succ n ih =>
    obtain ⟨s', hs⟩ := hinv.can_step hr
    have hswept' := hswept.step hinv hs
    rcases step_cases hs with ⟨_, _, he, _⟩ | ⟨j, r', m, o, he, hr', hadv, rfl⟩
    · cases he
    · cases he
      obtain rfl := Option.some.inj (hr'.symm.trans hr)
      have hinv' := hinv.proceed hr (hinv.advanced hr hadv)
      rcases advance_within hinv.shape (hinv.valid _ r' hr)
        (fun a ha hlock hun => hinv.unmarked hswept hr ha hlock hun) hadv hn with
        ⟨result, rfl⟩ | ⟨pc', rfl, hn'⟩
      · refine ⟨1, Nat.le_add_left 1 n, _, exec_cons.mpr ⟨_, hs, rfl⟩, update_self .., ?_⟩
        exact ⟨_, List.mem_append_right _ (List.mem_singleton_self _), rfl⟩
      · obtain ⟨k, hk, s', hrun, hend⟩ := ih hinv' hswept' (r := ⟨r'.call, pc'⟩)
          (update_self ..) hn'
        exact ⟨k + 1, Nat.succ_le_succ hk, s', exec_cons.mpr ⟨_, hs, hrun⟩, hend⟩

/-- **A call left alone ends.** Wherever the other threads have stopped, with whatever
locks, a thread in a call is done with it after at most so many accesses of its own. -/
theorem call_ends_alone (hplain : Plain es) (h : exec step start es = some s)
    (hr : s.thread i = some r) : ∃ k ≤ 4 * s.mem.fresh + 25, ∃ s',
      exec step start (es ++ List.replicate k (.next i)) = some s' ∧ s'.thread i = none ∧
        ∃ r' ∈ s'.returned, r'.call = r.call := by
  have hn : r.pc.Within s.mem (4 * s.mem.fresh + 25) := by
    have hle := r.pc.left_le s.mem
    exact Or.inr (by omega)
  obtain ⟨k, hk, s', hrun, hend⟩ :=
    finishes_within (run_inv hplain h) (run_swept hplain h) hr hn
  exact ⟨k, hk, s', exec_append.mpr ⟨s, h, hrun⟩, hend⟩

/-- The remover has marked its node, and stops before it unlinks it. -/
def stopped : List (Event Bool) :=
  .call true (.add 5 1) :: List.replicate 13 (.next true) ++
  .call true (.remove 5) :: List.replicate 9 (.next true) ++ [.call false (.add 5 2)]

theorem call_ends_alone_stopped : ∃ s, exec step start stopped = some s ∧
    s.mem.marked 2 = true ∧ s.mem.next 0 = some 2 ∧ ∃ r, s.thread false = some r ∧
      ∃ k ≤ 4 * s.mem.fresh + 25, ∃ s',
        exec step start (stopped ++ List.replicate k (.next false)) = some s' ∧
          s'.thread false = none ∧ ∃ r' ∈ s'.returned, r'.call = r.call := by
  have hplain : Plain stopped := by
    intro i op hm
    have hops : i = true ∧ op = .add 5 1 ∨ i = true ∧ op = .remove 5 ∨
        i = false ∧ op = .add 5 2 := by
      simpa [stopped] using hm
    rcases hops with ⟨_, rfl⟩ | ⟨_, rfl⟩ | ⟨_, rfl⟩ <;> decide
  have hrun : (exec step start stopped).map (fun s =>
      (s.mem.marked 2, s.mem.next 0, (s.thread false).isSome)) = some (true, some 2, true) := by
    decide
  obtain ⟨s, hs, hat⟩ := Option.map_eq_some_iff.mp hrun
  obtain ⟨hmarked, hat⟩ := Prod.mk.inj hat
  obtain ⟨hnext, hsome⟩ := Prod.mk.inj hat
  obtain ⟨r, hr⟩ := Option.isSome_iff_exists.mp hsome
  exact ⟨s, hs, hmarked, hnext, r, hr, call_ends_alone hplain hs hr⟩

/-! ## A thread that looks -/

/-- A bound on the accesses that a `contains` has made, by the key of its node. -/
def Pc.made (m : Memory ι) (k : Int) : Pc → Int
  | .readKey runner => 2 * (min (m.key runner) k - intMin)
  | .readNext runner => 2 * (m.key runner - intMin) + 1
  | .compareKey _ => 2 * (k - intMin) + 1
  | .readMarked _ => 2 * (k - intMin) + 2
  | _ => 0

variable {k : Int}

omit [DecidableEq ι] in
theorem Pc.made_congr (hv : pc.Valid m i (.contains k))
    (h : ∀ a, m.Published a → m'.key a = m.key a) : pc.made m' k = pc.made m k := by
  cases pc with
  | readKey runner => rw [Pc.made, Pc.made, h runner hv.2]
  | readNext runner => rw [Pc.made, Pc.made, h runner hv.2.1]
  | _ => rfl

omit [DecidableEq ι] in
theorem Pc.made_le (hv : pc.Valid m i (.contains k)) (hk : intMin < k) :
    pc.made m k ≤ 2 * (k - intMin) + 2 := by
  cases pc with
  | readKey runner =>
    have hmin := min_le_right (m.key runner) k
    simp only [Pc.made]
    omega
  | readNext runner =>
    have hlt : m.key runner < k := hv.2.2
    simp only [Pc.made]
    omega
  | _ =>
    simp only [Pc.made]
    omega

omit [DecidableEq ι] in
/-- One access of a `contains` on its way. -/
theorem advance_made (hs : m.Shape) (hv : pc.Valid m i (.contains k))
    (h : advance m i (.contains k) pc = some (m', .goto pc')) :
    m' = m ∧ pc.made m k + 1 ≤ pc'.made m k := by
  obtain ⟨a, ha, -⟩ := hv.looking trivial
  cases pc with
  | readKey runner =>
    cases h
    refine ⟨rfl, ?_⟩
    change _ ≤ Pc.made m k (if m.key runner < k then .readNext runner else .compareKey runner)
    by_cases hlt : m.key runner < k
    · rw [if_pos hlt, Pc.made, Pc.made, min_eq_left hlt.le]
    · rw [if_neg hlt, Pc.made, Pc.made, min_eq_right (not_lt.mp hlt)]
  | readNext runner =>
    obtain ⟨next, hnext, he⟩ := Option.map_eq_some_iff.mp h
    cases he
    have hasc := hs.ascending _ _ hnext
    have hlt : m.key runner < k := hv.2.2
    have hmin : m.key runner + 1 ≤ min (m.key next) k := le_min hasc hlt
    refine ⟨rfl, ?_⟩
    simp only [Pc.made]
    omega
  | compareKey runner =>
    simp only [advance] at h
    split at h
    · cases h
      exact ⟨rfl, (add_assoc _ _ _).le⟩
    · cases h
  | readMarked runner => cases h
  | _ => cases ha

/-- The accesses that a thread has made since a call. -/
def accessesSince (es : List (Event ι)) (c : Call ι) : Nat :=
  (es.drop c.called).count (.next c.thread)

theorem accessesSince_snoc {c : Call ι} (hc : c.called ≤ es.length) :
    accessesSince (es ++ [e]) c = accessesSince es c + if e = .next c.thread then 1 else 0 := by
  rw [accessesSince, List.drop_append_of_le_length hc, List.count_append, List.count_singleton]
  simp only [beq_iff_eq]
  rfl

/-- The accesses of a `contains` so far are within the bound of its node. -/
theorem run_made (hplain : Plain es) (h : exec step start es = some s) :
    ∀ i r k, s.thread i = some r → r.call.op = .contains k →
      (accessesSince es r.call : Int) ≤ r.pc.made s.mem k := by
  refine exec_induction (motive := fun es (s : State ι) => Plain es → ∀ i r k,
    s.thread i = some r → r.call.op = .contains k →
      (accessesSince es r.call : Int) ≤ r.pc.made s.mem k)
    (fun _ i r k hr => (by cases hr)) (fun es v e s' hv ih hs hplain j r' k hj hop => ?_) h hplain
  have hinv := run_inv hplain.init hv
  have hrec := run_recorded hv
  have hsame : ∀ r' : Running ι, v.thread j = some r' → r'.call.op = .contains k →
      e ≠ .next j → (∀ a, v.mem.Published a → s'.mem.key a = v.mem.key a) →
        (accessesSince (es ++ [e]) r'.call : Int) ≤ r'.pc.made s'.mem k := by
    intro r' hj hop hne hkey
    obtain ⟨hthread, hle⟩ := hrec.called j r' hj
    rw [accessesSince_snoc hle, hthread, if_neg hne, Pc.made_congr (hop ▸ hinv.valid j r' hj) hkey]
    exact ih hplain.init j r' k hj hop
  have hkeys : ∀ a, v.mem.Published a → s'.mem.key a = v.mem.key a := by
    obtain ⟨i, O, heff⟩ := step_effect hinv hs
    exact fun a ha => heff.key (hinv.shape.published_lt ha)
  rcases step_cases hs with ⟨i, op, rfl, hi, rfl⟩ | ⟨i, r, m, o, rfl, hr, hadv, rfl⟩
  · rcases update_thread hj with ⟨rfl, rfl⟩ | ⟨_, hj⟩
    · dsimp only at hop ⊢
      subst hop
      have hnone : accessesSince (es ++ [.call j (.contains k)])
          ⟨j, .contains k, v.clock + 1⟩ = 0 := by
        rw [accessesSince, hrec.clock, List.drop_of_length_le (by simp), List.count_nil]
      rw [hnone]
      have hmin : min (v.mem.key head) k = intMin := by
        rw [hinv.shape.headKey]
        exact min_eq_left (hplain j (.contains k) (by simp)).1.le
      simp only [Op.start, Pc.made, hmin]
      omega
    · exact hsame r' hj hop nofun hkeys
  · by_cases hji : j = i
    · subst hji
      cases o with
      | answer result => exact absurd rfl (answer_thread hj).1
      | goto pc =>
        rcases goto_thread hj with ⟨_, rfl⟩ | ⟨hne, _⟩
        · obtain ⟨hthread, hle⟩ := hrec.called j r hr
          dsimp only at hop
          rw [hop] at hadv
          obtain ⟨rfl, hstep⟩ := advance_made hinv.shape (hop ▸ hinv.valid j r hr) hadv
          rw [accessesSince_snoc hle, hthread, if_pos rfl]
          have hold := ih hplain.init j r k hr hop
          push_cast
          exact (Int.add_le_add_right hold 1).trans hstep
        · exact absurd rfl hne
    · refine hsame r' ?_ hop (fun he => hji (by cases he; rfl)) hkeys
      cases o with
      | goto pc => exact (goto_thread hj).resolve_left (fun hcase => hji hcase.1) |>.2
      | answer result => exact (answer_thread hj).2

/-- **`contains` waits for nobody.** Whatever the other threads do, a `contains` makes
no more accesses than twice the keys up to its own, and it can always go on. -/
theorem contains_wait_free (hplain : Plain es) (h : exec step start es = some s)
    (hr : s.thread i = some r) (hop : r.call.op = .contains k) :
    (accessesSince es r.call : Int) ≤ 2 * (k - intMin) + 2 ∧
      ∃ s', step s (.next i) = some s' := by
  have hinv := run_inv hplain h
  have hkey := (hinv.plain i r hr).2
  rw [hop] at hkey
  refine ⟨(run_made hplain h i r k hr hop).trans ?_, hinv.can_step hr⟩
  exact Pc.made_le (hop ▸ hinv.valid i r hr) hkey.1

/-- A `contains` beside the `add` of its key. -/
def beside : List (Event Bool) :=
  .call true (.add 5 1) :: List.replicate 8 (.next true) ++
  .call false (.contains 5) :: List.replicate 3 (.next false)

theorem contains_wait_free_beside : ∃ s, exec step start beside = some s ∧
    ∃ r, s.thread false = some r ∧ r.call.op = .contains 5 ∧ accessesSince beside r.call = 3 ∧
      (accessesSince beside r.call : Int) ≤ 2 * (5 - intMin) + 2 ∧
        ∃ s', step s (.next false) = some s' := by
  have hplain : Plain beside := by
    intro i op hm
    have hops : i = true ∧ op = .add 5 1 ∨ i = false ∧ op = .contains 5 := by
      simpa [beside] using hm
    rcases hops with ⟨_, rfl⟩ | ⟨_, rfl⟩ <;> decide
  have hrun : ((exec step start beside).bind fun s => (s.thread false).map fun r =>
      (r.call.op, accessesSince beside r.call)) = some (.contains 5, 3) := by decide
  obtain ⟨s, hs, hat⟩ := Option.bind_eq_some_iff.mp hrun
  obtain ⟨r, hr, hat⟩ := Option.map_eq_some_iff.mp hat
  obtain ⟨hop, hthree⟩ := Prod.mk.inj hat
  exact ⟨s, hs, r, hr, hop, hthree, contains_wait_free hplain hs hr hop⟩

end ConcurrentComputing.LazyList
