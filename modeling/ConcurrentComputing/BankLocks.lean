import ConcurrentComputing.Bank
import ConcurrentComputing.LockOrder

/-! # The locks of the bank

What a thread holds at every point of its code, and the lock operation it performs
next there. The locks are taken in ascending order, one or two of them by a `deposit`
and all of them by an audit. -/

namespace ConcurrentComputing.Bank

open Function Runs ReadWriteLock LockOrder

/-- How a thread holds the lock of a bucket. -/
def Pc.mode (m : SimpleMap ℚ) : Pc → Nat → Option Mode
  | .idle, _ => none
  | .acquire d n, b => if b ∈ (d.locks m).take n then some .write else none
  | .lookupSource d, b | .withdraw d _, b | .lookupTarget d _, b | .credit d _, b
  | .fallback d _, b => if b ∈ d.locks m then some .write else none
  | .release d n _, b => if b ∈ (d.locks m).drop n then some .write else none
  | .acquireReader _ n, b => if b < n then some .read else none
  | .sum _ _ _, b => if b < m.buckets then some .read else none
  | .releaseReader _ n _, b => if n ≤ b ∧ b < m.buckets then some .read else none

/-- The lock operation a thread performs next. -/
def Pc.op (m : SimpleMap ℚ) : Pc → Option LockOp
  | .acquire d n => (d.locks m)[n]?.map (.acquire · .write)
  | .release d n _ => (d.locks m)[n]?.map .release
  | .acquireReader _ n => if n < m.buckets then some (.acquire n .read) else none
  | .releaseReader _ n _ => if n < m.buckets then some (.release n) else none
  | _ => none

/-- Where it is once that is done. -/
def Pc.advance : Pc → Pc
  | .acquire d n => .acquire d (n + 1)
  | .release d n retval => .release d (n + 1) retval
  | .acquireReader range n => .acquireReader range (n + 1)
  | .releaseReader range n total => .releaseReader range (n + 1) total
  | pc => pc

/-- A loop over the read locks has not gone past the last. -/
def Pc.Within (m : SimpleMap ℚ) : Pc → Prop
  | .acquireReader _ n => n ≤ m.buckets
  | _ => True

variable {ι : Type} [DecidableEq ι] {m m' : SimpleMap ℚ} {pc : Pc} {op : LockOp} {s t : State ι}
  {i : ι} {d : Deposit} {b n : Nat}

/-! ## The locks of a `deposit` -/

theorem source_mem_locks (m : SimpleMap ℚ) (d : Deposit) : m.hash d.keySource ∈ d.locks m := by
  unfold Deposit.locks
  dsimp only
  split
  · exact List.mem_cons_self
  · split
    · exact List.mem_cons_of_mem _ (List.mem_singleton_self _)
    · exact List.mem_singleton.mpr (by omega)

theorem target_mem_locks (m : SimpleMap ℚ) (d : Deposit) : m.hash d.keyTarget ∈ d.locks m := by
  unfold Deposit.locks
  dsimp only
  split
  · exact List.mem_cons_of_mem _ (List.mem_singleton_self _)
  · split <;> exact List.mem_cons_self

theorem locks_nodup (m : SimpleMap ℚ) (d : Deposit) : (d.locks m).Nodup := by
  unfold Deposit.locks
  dsimp only
  split
  · simp
    omega
  · split
    · simp
      omega
    · exact List.nodup_singleton _

theorem locks_sorted (m : SimpleMap ℚ) (d : Deposit) : (d.locks m).Pairwise (· < ·) := by
  unfold Deposit.locks
  dsimp only
  split
  · simpa
  · split
    · simpa
    · exact List.pairwise_singleton _ _

/-- The next lock of a list is taken. -/
theorem take_mode {l : List Nat} (hb : l[n]? = some b) (b' : Nat) :
    (if b' ∈ l.take (n + 1) then some Mode.write else none) =
      if b' = b then some Mode.write else if b' ∈ l.take n then some Mode.write else none := by
  rw [List.take_add_one, hb]
  by_cases hb' : b' = b <;> simp [hb']

/-- The next lock of a list is given back. -/
theorem drop_mode {l : List Nat} (hl : l.Nodup) (hb : l[n]? = some b) (b' : Nat) :
    (if b' ∈ l.drop (n + 1) then some Mode.write else none) =
      if b' = b then none else if b' ∈ l.drop n then some Mode.write else none := by
  obtain ⟨hn, rfl⟩ := List.getElem?_eq_some_iff.mp hb
  have hsplit := List.drop_eq_getElem_cons hn
  have hnodup := hl.sublist (List.drop_sublist n l)
  rw [hsplit, List.nodup_cons] at hnodup
  by_cases hb' : b' = l[n]
  · subst hb'
    rw [if_neg hnodup.1, if_pos rfl]
  · have hmem : b' ∈ l.drop n ↔ b' ∈ l.drop (n + 1) := by
      rw [hsplit]
      exact List.mem_cons.trans (or_iff_right hb')
    simp only [hmem, if_neg hb']

/-! ## Steps -/

theorem update_mode (pc' : Pc) : (fun j => (update s.pc i pc' j).mode m) =
    update (fun j => (s.pc j).mode m) i (pc'.mode m) :=
  comp_update (fun pc : Pc => pc.mode m) s.pc i pc'

theorem mode_congr (h : m'.buckets = m.buckets) : pc.mode m' = pc.mode m := by
  have hhash : m'.hash = m.hash := funext fun key => by rw [SimpleMap.hash, SimpleMap.hash, h]
  have hlocks : ∀ d : Deposit, d.locks m' = d.locks m := fun d => by
    rw [Deposit.locks, Deposit.locks, hhash]
  funext b
  cases pc <;> simp only [Pc.mode, hlocks, h]

/-- The operation is in order, and what is held after it is what the code says. -/
theorem op_spec (h : pc.op m = some op) :
    op.Allowed (pc.mode m) ∧ op.after (pc.mode m) = pc.advance.mode m ∧ pc.advance ≠ .idle ∧
      pc.advance.Within m := by
  cases pc with
  | acquire d n =>
    obtain ⟨b, hb, rfl⟩ := Option.map_eq_some_iff.mp h
    refine ⟨fun b' hheld => ?_, ?_, by simp [Pc.advance], trivial⟩
    · -- what is held comes before it in the list
      have hmem : b' ∈ (d.locks m).take n := by
        by_contra hnot
        exact hheld (if_neg hnot)
      obtain ⟨hn, rfl⟩ := List.getElem?_eq_some_iff.mp hb
      obtain ⟨k, hk, rfl⟩ := List.mem_take_iff_getElem.mp hmem
      exact List.pairwise_iff_getElem.mp (locks_sorted m d) _ _ _ _ (by omega)
    · funext b'
      rw [LockOp.after, update_apply]
      exact (take_mode hb b').symm
  | release d n retval =>
    obtain ⟨b, hb, rfl⟩ := Option.map_eq_some_iff.mp h
    refine ⟨?_, ?_, by simp [Pc.advance], trivial⟩
    · obtain ⟨hn, rfl⟩ := List.getElem?_eq_some_iff.mp hb
      have hmem : (d.locks m)[n] ∈ (d.locks m).drop n := by
        rw [List.drop_eq_getElem_cons hn]
        exact List.mem_cons_self
      simp [LockOp.Allowed, Pc.mode, hmem]
    · funext b'
      rw [LockOp.after, update_apply]
      exact (drop_mode (locks_nodup m d) hb b').symm
  | acquireReader range n =>
    rw [Pc.op] at h
    split at h
    · rename_i hlt
      cases h
      refine ⟨fun b' hheld => ?_, ?_, by simp [Pc.advance], hlt⟩
      · by_contra hnot
        exact hheld (if_neg hnot)
      · funext b'
        simp only [LockOp.after, Pc.advance, Pc.mode, update_apply]
        grind
    · cases h
  | releaseReader range n total =>
    rw [Pc.op] at h
    split at h
    · rename_i hlt
      cases h
      refine ⟨by simp [LockOp.Allowed, Pc.mode, hlt], ?_, by simp [Pc.advance], trivial⟩
      funext b'
      simp only [LockOp.after, Pc.advance, Pc.mode, update_apply]
      grind
    · cases h
  | _ => cases h

/-- A thread that has a lock operation to perform takes exactly this step. -/
theorem next_op (h : (s.pc i).op s.map = some op) :
    s.next i = (op.perform s.locks i).map fun locks =>
      ({ s with locks := locks } : State ι).goto i (s.pc i).advance := by
  unfold State.next
  cases hpc : s.pc i with
  | acquire d n =>
    rw [hpc] at h
    obtain ⟨b, hb, rfl⟩ := Option.map_eq_some_iff.mp h
    simp only [hb, LockOp.perform, Option.map_map]
    rfl
  | release d n retval =>
    rw [hpc] at h
    obtain ⟨b, hb, rfl⟩ := Option.map_eq_some_iff.mp h
    simp only [hb]
    rfl
  | acquireReader range n =>
    rw [hpc, Pc.op] at h
    split at h
    · rename_i hlt
      cases h
      simp only [if_pos hlt, LockOp.perform, Option.map_map]
      rfl
    · cases h
  | releaseReader range n total =>
    rw [hpc, Pc.op] at h
    split at h
    · rename_i hlt
      cases h
      simp only [if_pos hlt]
      rfl
    · cases h
  | _ =>
    rw [hpc] at h
    cases h

/-- Any other thread in a call takes its step at once, and it holds the same locks
after it. -/
theorem next_quiet (h : (s.pc i).op s.map = none) (hpc : s.pc i ≠ .idle)
    (hw : (s.pc i).Within s.map) :
    ∃ t pc, s.next i = some t ∧ t.locks = s.locks ∧ t.map.buckets = s.map.buckets ∧
      t.pc = update s.pc i pc ∧ pc.mode s.map = (s.pc i).mode s.map ∧ pc.Within s.map := by
  unfold State.next
  cases hpc' : s.pc i with
  | idle => exact absurd hpc' hpc
  | acquire d n =>
    rw [hpc'] at h
    have hnone := Option.map_eq_none_iff.mp h
    simp only [hnone]
    refine ⟨_, _, rfl, rfl, rfl, rfl, funext fun b => ?_, trivial⟩
    simp only [Pc.mode, List.take_of_length_le (List.getElem?_eq_none_iff.mp hnone)]
  | lookupSource d =>
    dsimp only
    split
    · exact ⟨_, _, rfl, rfl, rfl, rfl, rfl, trivial⟩
    · exact ⟨_, _, rfl, rfl, rfl, rfl, rfl, trivial⟩
  | withdraw d source => exact ⟨_, _, rfl, rfl, rfl, rfl, rfl, trivial⟩
  | lookupTarget d source =>
    dsimp only
    split
    · exact ⟨_, _, rfl, rfl, rfl, rfl, rfl, trivial⟩
    · exact ⟨_, _, rfl, rfl, rfl, rfl, rfl, trivial⟩
  | credit d target => exact ⟨_, _, rfl, rfl, rfl, rfl, rfl, trivial⟩
  | fallback d source => exact ⟨_, _, rfl, rfl, rfl, rfl, rfl, trivial⟩
  | release d n retval =>
    rw [hpc'] at h
    have hnone := Option.map_eq_none_iff.mp h
    simp only [hnone]
    refine ⟨_, _, rfl, rfl, rfl, rfl, funext fun b => ?_, trivial⟩
    simp only [Pc.mode, List.drop_of_length_le (List.getElem?_eq_none_iff.mp hnone),
      List.not_mem_nil, if_false]
  | acquireReader range n =>
    rw [hpc', Pc.op] at h
    rw [hpc'] at hw
    change n ≤ s.map.buckets at hw
    split at h
    · cases h
    · rename_i hge
      simp only [if_neg hge]
      refine ⟨_, _, rfl, rfl, rfl, rfl, funext fun b => ?_, trivial⟩
      simp only [Pc.mode, show n = s.map.buckets by omega]
  | sum range n total =>
    dsimp only
    split
    · exact ⟨_, _, rfl, rfl, rfl, rfl, rfl, trivial⟩
    · refine ⟨_, _, rfl, rfl, rfl, rfl, funext fun b => ?_, trivial⟩
      simp only [Pc.mode, Nat.zero_le, true_and]
  | releaseReader range n total =>
    rw [hpc', Pc.op] at h
    split at h
    · cases h
    · rename_i hge
      simp only [if_neg hge]
      refine ⟨_, _, rfl, rfl, rfl, rfl, funext fun b => ?_, trivial⟩
      simp only [Pc.mode]
      rw [if_neg (by omega)]

/-! ## Runs -/

/-- Every thread holds the locks its place in the code says. -/
structure Locking (s : State ι) : Prop where
  holds : Holds s.locks fun i => (s.pc i).mode s.map
  within : ∀ i, (s.pc i).Within s.map
  finite : {i | s.pc i ≠ .idle}.Finite

theorem Locking.init (buckets keyMax : Nat) (initial : Nat → ℚ) :
    Locking (State.init ι buckets keyMax initial) where
  holds := fun _ _ => rfl
  within := fun _ => trivial
  finite := by
    have hnone : {i | (State.init ι buckets keyMax initial).pc i ≠ .idle} = ∅ :=
      Set.eq_empty_of_forall_notMem fun _ hi => hi rfl
    rw [hnone]
    exact Set.finite_empty

/-- A thread has moved and the locks are held as its new place says. -/
theorem Locking.goto (h : Locking s) (hpc : t.pc = update s.pc i pc)
    (hbuckets : t.map.buckets = s.map.buckets)
    (hlocks : Holds t.locks (update (fun j => (s.pc j).mode s.map) i (pc.mode s.map)))
    (hw : pc.Within s.map) : Locking t where
  holds := by
    have hmode : (fun j => (t.pc j).mode t.map) =
        update (fun j => (s.pc j).mode s.map) i (pc.mode s.map) := by
      rw [← update_mode, hpc]
      exact funext fun j => mode_congr hbuckets
    rwa [hmode]
  within := by
    have hcongr : ∀ pc : Pc, pc.Within s.map → pc.Within t.map := fun pc hw => by
      cases pc with
      | acquireReader range n => exact hw.trans_eq hbuckets.symm
      | _ => trivial
    intro j
    rw [hpc]
    by_cases hj : j = i
    · subst hj
      rw [update_self]
      exact hcongr _ hw
    · rw [update_of_ne hj]
      exact hcongr _ (h.within j)
  finite := by
    rw [hpc]
    exact finite_update _ h.finite

theorem Locking.step (h : Locking s) {e : Event ι} (hs : step s e = some t) : Locking t := by
  cases e with
  | call i c =>
    unfold Bank.step at hs
    dsimp only at hs
    split at hs
    · rename_i hpc
      cases hs
      refine h.goto rfl rfl (h.holds.same ?_) ?_
      · funext b
        rw [hpc]
        cases c <;> simp [Pc.mode]
      · cases c with
        | deposit d => trivial
        | balance range => exact Nat.zero_le _
    · cases hs
  | next i =>
    change s.next i = some t at hs
    cases hop : (s.pc i).op s.map with
    | none =>
      have hne : s.pc i ≠ .idle := fun hidle => by
        rw [State.next, hidle] at hs
        cases hs
      obtain ⟨t', pc, hnext, hlocks, hbuckets, hpc, hmode, hw⟩ := next_quiet hop hne (h.within i)
      obtain rfl := Option.some.inj (hnext.symm.trans hs)
      refine h.goto hpc hbuckets ?_ hw
      rw [hlocks]
      exact h.holds.same hmode
    | some op =>
      obtain ⟨_, hafter, _, hw⟩ := op_spec hop
      rw [next_op hop] at hs
      obtain ⟨locks, hp, rfl⟩ := Option.map_eq_some_iff.mp hs
      refine h.goto rfl rfl ?_ hw
      rw [← hafter]
      exact LockOp.perform_holds h.holds hp

theorem reachable_locking {buckets keyMax : Nat} {initial : Nat → ℚ} {es : List (Event ι)}
    (h : exec step (State.init ι buckets keyMax initial) es = some s) : Locking s :=
  exec_invariant (.init buckets keyMax initial) (fun _ _ _ hs he => hs.step he) h

end ConcurrentComputing.Bank
