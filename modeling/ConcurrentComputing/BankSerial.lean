import ConcurrentComputing.BankConservation
import ConcurrentComputing.Timeline

/-! # The bank is serializable

A thread without locks runs `applyDeposit` and the loop of `balance` undisturbed.
Threads with locks leave the accounts, and answer, as one such thread does that makes
their calls one after the other, each at an instant between its call and its return. -/

namespace ConcurrentComputing.Bank

open Function Runs ReadWriteLock ConcurrentComputing.Sequential

/-! ## Without locks -/

def applyDeposit (m : SimpleMap ℚ) (d : Deposit) : SimpleMap ℚ × Bool :=
  match m.lookup d.keySource with
  | (source, true) =>
    let withdrawn := (m.update d.keySource (source - d.amount)).1
    match withdrawn.lookup d.keyTarget with
    | (target, true) => ((withdrawn.update d.keyTarget (target + d.amount)).1, true)
    | (_, false) => ((withdrawn.update d.keySource source).1, false)
  | (_, false) => (m, false)

/-- A call and what it answers. -/
inductive Done where
  | deposit (d : Deposit) (retval : Bool)
  | balance (range : Nat) (total : ℚ)
  deriving DecidableEq

/-- What the call does and answers in a thread of `LOCKFREE`. -/
def Lockfree (m : SimpleMap ℚ) : Done → SimpleMap ℚ → Prop
  | .deposit d retval, m' => applyDeposit m d = (m', retval)
  | .balance range total, m' => balance m range = total ∧ m' = m

/-! ## With locks -/

/-- The answer of a call that is to give its locks back only. -/
def Pc.done : Pc → Option Done
  | .release d _ retval => some (.deposit d retval)
  | .releaseReader range _ total => some (.balance range total)
  | _ => none

/-- A call of a thread, told from its others by when it was made. -/
structure Entry (ι : Type) where
  thread : ι
  called : Nat
  done : Done

structure Finished (ι : Type) where
  entry : Entry ι
  returned : Nat

/-- The bank, with when the threads have called and what has been returned, and when. -/
structure Traced (ι : Type) where
  bank : State ι
  called : ι → Nat
  finished : List (Finished ι)
  clock : Nat

variable {ι : Type} [DecidableEq ι]

def Traced.start (bank : State ι) : Traced ι := ⟨bank, fun _ => 0, [], 0⟩

def Traced.returns (s : Traced ι) (i : ι) : Pc → List (Finished ι)
  | .idle => (s.bank.pc i).done.toList.map fun done => ⟨⟨i, s.called i, done⟩, s.clock + 1⟩
  | _ => []

def Traced.step (s : Traced ι) (e : Event ι) : Option (Traced ι) :=
  (Bank.step s.bank e).map fun bank =>
    match e with
    | .call i _ => ⟨bank, update s.called i (s.clock + 1), s.finished, s.clock + 1⟩
    | .next i => ⟨bank, s.called, s.finished ++ s.returns i (bank.pc i), s.clock + 1⟩

/-! ## The accounts as the calls over have left them -/

/-- What a thread knows of the accounts, and of those that the calls over have left. -/
def Pc.Sees (m a : SimpleMap ℚ) : Pc → Prop
  | .withdraw d source => m.get d.keySource = some source
  | .lookupTarget d source =>
    m.get d.keySource = some (source - d.amount) ∧ a.get d.keySource = some source
  | .credit d target => m.get d.keyTarget = some target ∧
    ∃ source, m.get d.keySource = some (source - d.amount) ∧ a.get d.keySource = some source
  | .fallback d source => m.get d.keyTarget = none ∧
    m.get d.keySource = some (source - d.amount) ∧ a.get d.keySource = some source
  | .sum range n part => n ≤ range ∧ part = balance m n
  | _ => True

/-- Only an account with money in transit is not as the calls over have left it. -/
structure Behind (s : State ι) (a : SimpleMap ℚ) : Prop where
  pos : 0 < s.map.buckets
  sorted : s.map.Sorted
  past : a.Sorted
  settled : ∀ key, (∀ i d, (s.pc i).inTransit = some d → d.keySource ≠ key) →
    s.map.get key = a.get key
  sees : ∀ i, (s.pc i).Sees s.map a

variable {m m' a a' : SimpleMap ℚ} {pc pc' : Pc} {s t : State ι} {i j : ι} {d : Deposit} {key : Int}

theorem sees_congr (hb : 0 < m.buckets)
    (h : ∀ key, pc.mode m (m.hash key) ≠ none → m'.get key = m.get key ∧ a'.get key = a.get key)
    (hk : pc.Sees m a) : pc.Sees m' a' := by
  have hdeposit : ∀ d : Deposit, (∀ b, b ∈ d.locks m → pc.mode m b ≠ none) →
      (m'.get d.keySource = m.get d.keySource ∧ a'.get d.keySource = a.get d.keySource) ∧
        m'.get d.keyTarget = m.get d.keyTarget := fun d hd =>
    ⟨h _ (hd _ (source_mem_locks m d)), (h _ (hd _ (target_mem_locks m d))).1⟩
  have hheld : ∀ {l : List Nat} {b : Nat}, b ∈ l →
      (if b ∈ l then some Mode.write else none) ≠ none := by
    intro l b hb
    rw [if_pos hb]
    exact Option.some_ne_none _
  cases pc with
  | withdraw d source =>
    obtain ⟨⟨hs, -⟩, -⟩ := hdeposit d fun _ => hheld
    exact hs.trans hk
  | lookupTarget d source =>
    obtain ⟨⟨hs, ha⟩, -⟩ := hdeposit d fun _ => hheld
    exact ⟨hs.trans hk.1, ha.trans hk.2⟩
  | credit d target =>
    obtain ⟨⟨hs, ha⟩, ht⟩ := hdeposit d fun _ => hheld
    obtain ⟨hk, source, hks, hka⟩ := hk
    exact ⟨ht.trans hk, source, hs.trans hks, ha.trans hka⟩
  | fallback d source =>
    obtain ⟨⟨hs, ha⟩, ht⟩ := hdeposit d fun _ => hheld
    exact ⟨ht.trans hk.1, hs.trans hk.2.1, ha.trans hk.2.2⟩
  | sum range n part =>
    obtain ⟨hle, hpart⟩ := hk
    refine ⟨hle, hpart.trans ?_⟩
    rw [balance_eq, balance_eq]
    refine worth_congr fun k _ => ?_
    have hlt : m.hash k < m.buckets := Nat.mod_lt _ hb
    rw [(h k (by rw [Pc.mode, if_pos hlt]; exact Option.some_ne_none _)).1]
  | idle | acquire | lookupSource | release | acquireReader | releaseReader => trivial

/-- Under a write lock only the thread's own money is in transit. -/
theorem Behind.settled_of_write (h : Behind s a) (hl : Locking s)
    (hmode : (s.pc i).mode s.map (s.map.hash key) = some .write)
    (hown : ∀ d, (s.pc i).inTransit = some d → d.keySource ≠ key) :
    s.map.get key = a.get key := by
  refine h.settled key fun j d hd hkey => ?_
  have hj := inTransit_mode (m := s.map) hd
  rw [hkey] at hj
  obtain rfl := hl.holds.eq_of_write hmode (by rw [hj]; nofun)
  exact hown d hd hkey

/-- Under all read locks none is. -/
theorem Behind.settled_of_read (h : Behind s a) (hl : Locking s)
    (hmode : ∀ b < s.map.buckets, (s.pc i).mode s.map b = some .read) :
    s.map.get = a.get := by
  funext key
  refine h.settled key fun j d hd _ => ?_
  have hj := inTransit_mode (m := s.map) hd
  have hi := hmode (s.map.hash d.keySource) (Nat.mod_lt _ h.pos)
  obtain rfl := hl.holds.eq_of_write hj (by rw [hi]; nofun)
  rw [hi] at hj
  cases hj

/-! ## Steps -/

/-- What a step does to a call, and to the accounts as the calls over have left them. -/
inductive Effect (pc pc' : Pc) (a a' : SimpleMap ℚ) : Prop
  | quiet (h : pc'.done = pc.done) (h' : pc' ≠ .idle) (ha : a' = a)
  | decide (done : Done) (h : pc.done = none) (h' : pc'.done = some done) (ha : Lockfree a done a')
  | leave (done : Done) (h : pc.done = some done) (h' : pc' = .idle) (ha : a' = a)

/-- A step that leaves the accounts as they are. -/
theorem Behind.goto (h : Behind s a) (hmap : t.map = s.map) (hpc : t.pc = update s.pc i pc)
    (htransit : pc.inTransit = (s.pc i).inTransit) (hsees : pc.Sees s.map a) : Behind t a where
  pos := hmap ▸ h.pos
  sorted := hmap ▸ h.sorted
  past := h.past
  settled key hkey := by
    rw [hmap]
    refine h.settled key fun j d hd => hkey j d ?_
    rw [hpc]
    by_cases hj : j = i
    · subst hj
      rw [update_self, htransit, hd]
    · rw [update_of_ne hj, hd]
  sees j := by
    rw [hpc, hmap]
    by_cases hj : j = i
    · subst hj
      rwa [update_self]
    · rw [update_of_ne hj]
      exact h.sees j

/-- An update by a thread that holds the lock. -/
theorem Behind.write (h : Behind s a) (hl : Locking s) {val : ℚ} (hpast : a'.Sorted)
    (hmode : (s.pc i).mode s.map (s.map.hash key) = some .write)
    (hother : ∀ k, (s.pc i).mode s.map (s.map.hash k) ≠ some .write → a'.get k = a.get k)
    (hown : ∀ k, (s.pc i).mode s.map (s.map.hash k) = some .write →
      (∀ d, pc.inTransit = some d → d.keySource ≠ k) →
        (s.map.update key val).1.get k = a'.get k)
    (hsees : pc.Sees (s.map.update key val).1 a') :
    Behind ({ s with map := (s.map.update key val).1 }.goto i pc) a' where
  pos := h.pos
  sorted := h.sorted.update key val
  past := hpast
  settled k hk := by
    change (s.map.update key val).1.get k = a'.get k
    by_cases hheld : (s.pc i).mode s.map (s.map.hash k) = some .write
    · refine hown k hheld fun d hd => hk i d ?_
      change (update s.pc i pc i).inTransit = some d
      rwa [update_self]
    · have hne : k ≠ key := by
        rintro rfl
        exact hheld hmode
      rw [SimpleMap.get_update h.sorted, if_neg hne, hother k hheld]
      refine h.settled k fun j d hd hkey => ?_
      by_cases hj : j = i
      · subst hj
        exact hheld (hkey ▸ inTransit_mode hd)
      · refine hk j d ?_ hkey
        change (update s.pc i pc j).inTransit = some d
        rwa [update_of_ne hj]
  sees j := by
    change (update s.pc i pc j).Sees (s.map.update key val).1 a'
    by_cases hj : j = i
    · subst hj
      rwa [update_self]
    · rw [update_of_ne hj]
      refine sees_congr h.pos (fun k hheld => ?_) (h.sees j)
      have hfree : (s.pc i).mode s.map (s.map.hash k) ≠ some .write := fun hw =>
        hj (hl.holds.eq_of_write hw hheld).symm
      refine ⟨?_, hother k hfree⟩
      rw [SimpleMap.get_update h.sorted, if_neg]
      rintro rfl
      exact hfree hmode

theorem Behind.withdraw (h : Behind s a) (hl : Locking s) {source : ℚ}
    (hpc : s.pc i = .withdraw d source) :
    Behind ({ s with
      map := (s.map.update d.keySource (source - d.amount)).1 }.goto i (.lookupTarget d source))
      a := by
  have hk : s.map.get d.keySource = some source := by
    have hk := h.sees i
    rwa [hpc] at hk
  have hmode : (s.pc i).mode s.map (s.map.hash d.keySource) = some .write := by
    rw [hpc]
    exact if_pos (source_mem_locks _ d)
  have hown : ∀ k d', (s.pc i).inTransit = some d' → d'.keySource ≠ k := by
    intro k d' hd'
    rw [hpc] at hd'
    cases hd'
  refine h.write hl h.past hmode (fun _ _ => rfl) (fun k hheld hne => ?_) ⟨?_, ?_⟩
  · rw [SimpleMap.get_update h.sorted, if_neg (Ne.symm (hne d rfl))]
    exact h.settled_of_write hl hheld (hown k)
  · rw [SimpleMap.get_update h.sorted, if_pos rfl, hk, Option.map_some]
  · rw [← h.settled_of_write hl hmode (hown _), hk]

/-- What a transfer without locks does. -/
theorem applyDeposit_credit (ha : a.Sorted) {source target : ℚ}
    (hs : a.get d.keySource = some source)
    (ht : (if d.keyTarget = d.keySource then some (source - d.amount) else a.get d.keyTarget) =
      some target) :
    ∃ a', applyDeposit a d = (a', true) ∧ a'.Sorted ∧ ∀ k, a'.get k =
      if k = d.keyTarget then some (target + d.amount)
      else if k = d.keySource then some (source - d.amount) else a.get k := by
  have hget : (a.update d.keySource (source - d.amount)).1.get d.keyTarget = some target := by
    rw [SimpleMap.get_update ha, hs, Option.map_some, ht]
  refine ⟨((a.update d.keySource (source - d.amount)).1.update d.keyTarget (target + d.amount)).1,
    ?_, (ha.update _ _).update _ _, fun k => ?_⟩
  · rw [applyDeposit, SimpleMap.lookup_eq, hs]
    dsimp only [Option.getD_some, Option.isSome_some]
    rw [SimpleMap.lookup_eq, hget]
    rfl
  · rw [SimpleMap.get_update (ha.update _ _), hget, SimpleMap.get_update ha, hs]
    rfl

/-- A transfer to an account that is not there is taken back. -/
theorem applyDeposit_fallback (ha : a.Sorted) {source : ℚ} (hs : a.get d.keySource = some source)
    (ht : a.get d.keyTarget = none) :
    ∃ a', applyDeposit a d = (a', false) ∧ a'.Sorted ∧ ∀ k, a'.get k = a.get k := by
  have hne : d.keyTarget ≠ d.keySource := by
    intro he
    rw [he, hs] at ht
    cases ht
  have hget : (a.update d.keySource (source - d.amount)).1.get d.keyTarget = none := by
    rw [SimpleMap.get_update ha, if_neg hne, ht]
  refine ⟨((a.update d.keySource (source - d.amount)).1.update d.keySource source).1, ?_,
    (ha.update _ _).update _ _, fun k => ?_⟩
  · rw [applyDeposit, SimpleMap.lookup_eq, hs]
    dsimp only [Option.getD_some, Option.isSome_some]
    rw [SimpleMap.lookup_eq, hget]
    rfl
  · rw [SimpleMap.get_update (ha.update _ _), SimpleMap.get_update ha, if_pos rfl, hs]
    split
    · rename_i hk
      rw [hk, hs]
      rfl
    · rename_i hk
      rw [SimpleMap.get_update ha, if_neg hk]

theorem Behind.credit (h : Behind s a) (hl : Locking s) {target : ℚ}
    (hpc : s.pc i = .credit d target) : ∃ a', applyDeposit a d = (a', true) ∧
      Behind ({ s with
        map := (s.map.update d.keyTarget (target + d.amount)).1 }.goto i (.release d 0 true)) a' := by
  obtain ⟨ht, source, hs, ha⟩ : s.map.get d.keyTarget = some target ∧ ∃ source,
      s.map.get d.keySource = some (source - d.amount) ∧ a.get d.keySource = some source := by
    have hk := h.sees i
    rwa [hpc] at hk
  have hmode : ∀ b ∈ d.locks s.map, (s.pc i).mode s.map b = some .write := by
    intro b hb
    rw [hpc]
    exact if_pos hb
  have hsettled : ∀ k, (s.pc i).mode s.map (s.map.hash k) = some .write → k ≠ d.keySource →
      s.map.get k = a.get k := by
    intro k hheld hne
    refine h.settled_of_write hl hheld fun d' hd' => ?_
    rw [hpc] at hd'
    cases hd'
    exact hne.symm
  have htarget : (if d.keyTarget = d.keySource then some (source - d.amount)
      else a.get d.keyTarget) = some target := by
    split
    · rename_i he
      rwa [he, hs] at ht
    · rename_i hne
      rw [← hsettled _ (hmode _ (target_mem_locks _ d)) hne, ht]
  obtain ⟨a', happly, hsorted, hget⟩ := applyDeposit_credit h.past ha htarget
  refine ⟨a', happly, h.write hl hsorted (hmode _ (target_mem_locks _ d)) (fun k hfree => ?_)
    (fun k hheld _ => ?_) trivial⟩
  · rw [hget, if_neg, if_neg]
    · rintro rfl
      exact hfree (hmode _ (source_mem_locks _ d))
    · rintro rfl
      exact hfree (hmode _ (target_mem_locks _ d))
  · rw [SimpleMap.get_update h.sorted, hget]
    by_cases hkt : k = d.keyTarget
    · rw [if_pos hkt, if_pos hkt, ht, Option.map_some]
    · rw [if_neg hkt, if_neg hkt]
      by_cases hks : k = d.keySource
      · rw [if_pos hks, hks, hs]
      · rw [if_neg hks]
        exact hsettled k hheld hks

theorem Behind.fallback (h : Behind s a) (hl : Locking s) {source : ℚ}
    (hpc : s.pc i = .fallback d source) : ∃ a', applyDeposit a d = (a', false) ∧
      Behind ({ s with
        map := (s.map.update d.keySource source).1 }.goto i (.release d 0 false)) a' := by
  obtain ⟨ht, hs, ha⟩ : s.map.get d.keyTarget = none ∧
      s.map.get d.keySource = some (source - d.amount) ∧ a.get d.keySource = some source := by
    have hk := h.sees i
    rwa [hpc] at hk
  have hmode : ∀ b ∈ d.locks s.map, (s.pc i).mode s.map b = some .write := by
    intro b hb
    rw [hpc]
    exact if_pos hb
  have hsettled : ∀ k, (s.pc i).mode s.map (s.map.hash k) = some .write → k ≠ d.keySource →
      s.map.get k = a.get k := by
    intro k hheld hne
    refine h.settled_of_write hl hheld fun d' hd' => ?_
    rw [hpc] at hd'
    cases hd'
    exact hne.symm
  have hne : d.keyTarget ≠ d.keySource := by
    intro he
    rw [he, hs] at ht
    cases ht
  have htarget : a.get d.keyTarget = none := by
    rw [← hsettled _ (hmode _ (target_mem_locks _ d)) hne, ht]
  obtain ⟨a', happly, hsorted, hget⟩ := applyDeposit_fallback h.past ha htarget
  refine ⟨a', happly, h.write hl hsorted (hmode _ (source_mem_locks _ d)) (fun k _ => hget k)
    (fun k hheld _ => ?_) trivial⟩
  rw [SimpleMap.get_update h.sorted, hget]
  by_cases hks : k = d.keySource
  · rw [if_pos hks, hks, hs, ha, Option.map_some]
  · rw [if_neg hks]
    exact hsettled k hheld hks

/-- A step of a thread: it goes on, or its call is decided, or it returns. -/
theorem Behind.next (h : Behind s a) (hl : Locking s) (hs : s.next i = some t) :
    ∃ pc' a', t.pc = update s.pc i pc' ∧ Effect (s.pc i) pc' a a' ∧ Behind t a' := by
  have hk := h.sees i
  unfold State.next at hs
  cases hpc : s.pc i with
  | idle =>
    rw [hpc] at hs
    cases hs
  | acquire d n =>
    simp only [hpc] at hs
    split at hs
    · cases hs
      exact ⟨_, a, rfl, .quiet rfl (by simp) rfl, h.goto rfl rfl (by rw [hpc]; rfl) trivial⟩
    · obtain ⟨l, -, rfl⟩ := Option.map_eq_some_iff.mp hs
      exact ⟨_, a, rfl, .quiet rfl (by simp) rfl, h.goto rfl rfl (by rw [hpc]; rfl) trivial⟩
  | lookupSource d =>
    simp only [hpc, SimpleMap.lookup_eq] at hs
    cases hget : s.map.get d.keySource with
    | some source =>
      simp only [hget, Option.getD_some, Option.isSome_some] at hs
      cases hs
      exact ⟨_, a, rfl, .quiet rfl (by simp) rfl, h.goto rfl rfl (by rw [hpc]; rfl) hget⟩
    | none =>
      simp only [hget, Option.isSome_none] at hs
      cases hs
      have ha : a.get d.keySource = none := by
        rw [← h.settled_of_write (i := i) hl, hget]
        · rw [hpc]
          exact if_pos (source_mem_locks _ d)
        · intro d' hd'
          rw [hpc] at hd'
          cases hd'
      refine ⟨_, a, rfl, .decide (.deposit d false) rfl rfl ?_,
        h.goto rfl rfl (by rw [hpc]; rfl) trivial⟩
      rw [Lockfree, applyDeposit, SimpleMap.lookup_eq, ha]
      rfl
  | withdraw d source =>
    simp only [hpc] at hs
    cases hs
    exact ⟨_, a, rfl, .quiet rfl (by simp) rfl, h.withdraw hl hpc⟩
  | lookupTarget d source =>
    rw [hpc] at hk
    simp only [hpc, SimpleMap.lookup_eq] at hs
    cases hget : s.map.get d.keyTarget with
    | some target =>
      simp only [hget, Option.getD_some, Option.isSome_some] at hs
      cases hs
      exact ⟨_, a, rfl, .quiet rfl (by simp) rfl, h.goto rfl rfl (by rw [hpc]; rfl) ⟨hget, source, hk⟩⟩
    | none =>
      simp only [hget, Option.isSome_none] at hs
      cases hs
      exact ⟨_, a, rfl, .quiet rfl (by simp) rfl, h.goto rfl rfl (by rw [hpc]; rfl) ⟨hget, hk⟩⟩
  | credit d target =>
    simp only [hpc] at hs
    cases hs
    obtain ⟨a', happly, hbehind⟩ := h.credit hl hpc
    exact ⟨_, a', rfl, .decide (.deposit d true) rfl rfl happly, hbehind⟩
  | fallback d source =>
    simp only [hpc] at hs
    cases hs
    obtain ⟨a', happly, hbehind⟩ := h.fallback hl hpc
    exact ⟨_, a', rfl, .decide (.deposit d false) rfl rfl happly, hbehind⟩
  | release d n retval =>
    simp only [hpc] at hs
    split at hs
    · cases hs
      exact ⟨_, a, rfl, .leave _ rfl rfl rfl, h.goto rfl rfl (by rw [hpc]; rfl) trivial⟩
    · cases hs
      exact ⟨_, a, rfl, .quiet rfl (by simp) rfl, h.goto rfl rfl (by rw [hpc]; rfl) trivial⟩
  | acquireReader range n =>
    simp only [hpc] at hs
    split at hs
    · obtain ⟨l, -, rfl⟩ := Option.map_eq_some_iff.mp hs
      exact ⟨_, a, rfl, .quiet rfl (by simp) rfl, h.goto rfl rfl (by rw [hpc]; rfl) trivial⟩
    · cases hs
      exact ⟨_, a, rfl, .quiet rfl (by simp) rfl,
        h.goto rfl rfl (by rw [hpc]; rfl) ⟨Nat.zero_le _, rfl⟩⟩
  | sum range n part =>
    rw [hpc] at hk
    obtain ⟨hle, hpart⟩ := hk
    simp only [hpc] at hs
    split at hs
    · rename_i hlt
      cases hs
      refine ⟨_, a, rfl, .quiet rfl (by simp) rfl, h.goto rfl rfl (by rw [hpc]; rfl) ⟨hlt, ?_⟩⟩
      rw [hpart, balance, balance, List.range_succ, List.foldl_append, List.foldl_cons,
        List.foldl_nil]
    · rename_i hge
      cases hs
      have hsame : s.map.get = a.get := h.settled_of_read (i := i) hl fun b hb => by
        rw [hpc]
        exact if_pos hb
      refine ⟨_, a, rfl, .decide (.balance range part) rfl rfl ⟨?_, rfl⟩,
        h.goto rfl rfl (by rw [hpc]; rfl) trivial⟩
      rw [hpart, show n = range by omega, balance_eq, balance_eq, hsame]
  | releaseReader range n part =>
    simp only [hpc] at hs
    split at hs
    · cases hs
      exact ⟨_, a, rfl, .quiet rfl (by simp) rfl, h.goto rfl rfl (by rw [hpc]; rfl) trivial⟩
    · cases hs
      exact ⟨_, a, rfl, .leave _ rfl rfl rfl, h.goto rfl rfl (by rw [hpc]; rfl) trivial⟩

/-! ## Whole runs -/

/-- The log puts every call that is decided at an instant, not before the call nor after
its return, so that in this order they do and answer what they do without locks. -/
structure Serialized (m : SimpleMap ℚ) (s : Traced ι) (abs : Nat → SimpleMap ℚ)
    (log : List (Nat × Entry ι)) : Prop where
  timeline : Timeline (fun a e => Lockfree a e.done) abs s.clock log
  first : abs 0 = m
  once : (log.map fun a => (a.2.thread, a.2.called)).Nodup
  called : ∀ a ∈ log, a.2.called ≤ a.1
  decided : ∀ i done, (s.bank.pc i).done = some done → ∃ t, (t, ⟨i, s.called i, done⟩) ∈ log
  finished : ∀ r ∈ s.finished, ∃ t < r.returned, (t, r.entry) ∈ log
  settled : ∀ a ∈ log, (∃ r ∈ s.finished, r.entry = a.2) ∨
    ((s.bank.pc a.2.thread).done = some a.2.done ∧ s.called a.2.thread = a.2.called)

/-- Calls that have returned were made before those in progress. -/
structure Clocked (s : Traced ι) : Prop where
  called : ∀ i, s.called i ≤ s.clock
  finished : ∀ r ∈ s.finished, r.entry.called ≤ s.clock
  fresh : ∀ r ∈ s.finished, s.bank.pc r.entry.thread ≠ .idle →
    r.entry.called ≠ s.called r.entry.thread

variable {x y : Traced ι} {abs : Nat → SimpleMap ℚ} {log : List (Nat × Entry ι)} {e : Event ι}

omit [DecidableEq ι] in
theorem mem_returns {r : Finished ι} (h : r ∈ x.returns i pc) :
    pc = .idle ∧ r.entry.thread = i ∧ r.entry.called = x.called i ∧ r.returned = x.clock + 1 ∧
      (x.bank.pc i).done = some r.entry.done := by
  unfold Traced.returns at h
  split at h
  · obtain ⟨done, hdone, rfl⟩ := List.mem_map.mp h
    exact ⟨rfl, rfl, rfl, rfl, Option.mem_toList.mp hdone⟩
  · cases h

omit [DecidableEq ι] in
theorem returns_nil (h : pc ≠ .idle) : x.returns i pc = [] := by
  unfold Traced.returns
  split
  · exact absurd rfl h
  · rfl

theorem next_ne_idle (h : s.next i = some t) : s.pc i ≠ .idle := by
  intro hidle
  rw [State.next, hidle] at h
  cases h

/-- A call is made, and nothing else happens. -/
theorem Traced.call_cases {op : Call} (h : x.step (.call i op) = some y) :
    ∃ pc, x.bank.pc i = .idle ∧ pc.done = none ∧ pc.inTransit = none ∧
      (∀ m a, pc.Sees m a) ∧
      y = ⟨x.bank.goto i pc, update x.called i (x.clock + 1), x.finished, x.clock + 1⟩ := by
  obtain ⟨t, ht, rfl⟩ := Option.map_eq_some_iff.mp h
  unfold Bank.step at ht
  dsimp only at ht
  split at ht
  · rename_i hpc
    cases ht
    refine ⟨_, hpc, ?_, ?_, ?_, rfl⟩ <;> cases op <;> first | rfl | exact fun _ _ => trivial
  · cases ht

theorem Traced.next_cases (h : x.step (.next i) = some y) : ∃ t, x.bank.next i = some t ∧
    y = ⟨t, x.called, x.finished ++ x.returns i (t.pc i), x.clock + 1⟩ := by
  obtain ⟨t, ht, rfl⟩ := Option.map_eq_some_iff.mp h
  exact ⟨t, ht, rfl⟩

theorem Clocked.call (h : Clocked x) (pc : Pc) : Clocked
    ⟨x.bank.goto i pc, update x.called i (x.clock + 1), x.finished, x.clock + 1⟩ where
  called j := by
    dsimp only
    by_cases hj : j = i
    · rw [hj, update_self]
    · rw [update_of_ne hj]
      exact (h.called j).trans (Nat.le_succ _)
  finished r hr := (h.finished r hr).trans (Nat.le_succ _)
  fresh r hr hpc := by
    dsimp only [State.goto] at hpc ⊢
    by_cases hj : r.entry.thread = i
    · rw [hj, update_self]
      exact ((h.finished r hr).trans_lt (Nat.lt_succ_self _)).ne
    · rw [update_of_ne hj] at hpc ⊢
      exact h.fresh r hr hpc

theorem Clocked.next (h : Clocked x) (hnext : x.bank.next i = some t)
    (hpc : t.pc = update x.bank.pc i pc) :
    Clocked ⟨t, x.called, x.finished ++ x.returns i pc, x.clock + 1⟩ where
  called j := (h.called j).trans (Nat.le_succ _)
  finished r hr := by
    rcases List.mem_append.mp hr with hr | hr
    · exact (h.finished r hr).trans (Nat.le_succ _)
    · rw [(mem_returns hr).2.2.1]
      exact (h.called i).trans (Nat.le_succ _)
  fresh r hr hne := by
    dsimp only at hne ⊢
    rw [hpc] at hne
    rcases List.mem_append.mp hr with hr | hr
    · refine h.fresh r hr ?_
      by_cases hj : r.entry.thread = i
      · rw [hj]
        exact next_ne_idle hnext
      · rwa [update_of_ne hj] at hne
    · obtain ⟨hidle, hthread, -⟩ := mem_returns hr
      rw [hthread, update_self] at hne
      exact absurd hidle hne

variable {m : SimpleMap ℚ}

theorem Serialized.call (h : Serialized m x abs log) (hidle : x.bank.pc i = .idle)
    (hdone : pc.done = none) :
    Serialized m ⟨x.bank.goto i pc, update x.called i (x.clock + 1), x.finished, x.clock + 1⟩
      (update abs (x.clock + 1) (abs x.clock)) log where
  timeline := h.timeline.next_idle
  first := (update_of_ne (Nat.succ_ne_zero _).symm _ _).trans h.first
  once := h.once
  called := h.called
  decided j done hj := by
    dsimp only [State.goto] at hj ⊢
    by_cases hji : j = i
    · rw [hji, update_self, hdone] at hj
      cases hj
    · rw [update_of_ne hji] at hj ⊢
      exact h.decided j done hj
  finished := h.finished
  settled a ha := by
    rcases h.settled a ha with hr | ⟨hd, hc⟩
    · exact Or.inl hr
    · have hji : a.2.thread ≠ i := by
        intro he
        rw [he, hidle] at hd
        cases hd
      refine Or.inr ⟨?_, ?_⟩
      · dsimp only [State.goto]
        rwa [update_of_ne hji]
      · dsimp only
        rwa [update_of_ne hji]

theorem Serialized.quiet (h : Serialized m x abs log) (hpc : t.pc = update x.bank.pc i pc)
    (hsame : pc.done = (x.bank.pc i).done) :
    Serialized m ⟨t, x.called, x.finished, x.clock + 1⟩
      (update abs (x.clock + 1) (abs x.clock)) log := by
  have hdone : ∀ j, (t.pc j).done = (x.bank.pc j).done := by
    intro j
    rw [hpc]
    by_cases hj : j = i
    · rw [hj, update_self, hsame]
    · rw [update_of_ne hj]
  refine ⟨h.timeline.next_idle, (update_of_ne (Nat.succ_ne_zero _).symm _ _).trans h.first, h.once,
    h.called, fun j done hj => h.decided j done ((hdone j).symm.trans hj), h.finished, fun a ha => ?_⟩
  refine (h.settled a ha).imp_right fun ⟨hd, hc⟩ => ⟨?_, hc⟩
  exact (hdone _).trans hd

/-- The call is put at the end of the log. -/
theorem Serialized.decide (h : Serialized m x abs log) (hclock : Clocked x)
    (hnext : x.bank.next i = some t) (hpc : t.pc = update x.bank.pc i pc) {done : Done}
    (hbefore : (x.bank.pc i).done = none) (hafter : pc.done = some done)
    (ha : Lockfree (abs x.clock) done a) :
    Serialized m ⟨t, x.called, x.finished, x.clock + 1⟩ (update abs (x.clock + 1) a)
      (log ++ [(x.clock, ⟨i, x.called i, done⟩)]) where
  timeline := h.timeline.next_act ha
  first := (update_of_ne (Nat.succ_ne_zero _).symm _ _).trans h.first
  once := by
    rw [List.map_append, List.nodup_append]
    refine ⟨h.once, List.nodup_singleton _, fun p hp q hq hpq => ?_⟩
    obtain ⟨b, hb, rfl⟩ := List.mem_map.mp hp
    rw [List.map_singleton, List.mem_singleton] at hq
    obtain ⟨hthread, hcalled⟩ := Prod.mk.inj (hpq.trans hq)
    rcases h.settled b hb with ⟨r, hr, he⟩ | ⟨hd, -⟩
    · refine hclock.fresh r hr ?_ ?_
      · rw [he, hthread]
        exact next_ne_idle hnext
      · rw [he, hthread, hcalled]
    · rw [hthread, hbefore] at hd
      cases hd
  called b hb := by
    rcases List.mem_append.mp hb with hb | hb
    · exact h.called b hb
    · rw [List.mem_singleton.mp hb]
      exact hclock.called i
  decided j d hj := by
    dsimp only at hj ⊢
    rw [hpc] at hj
    by_cases hji : j = i
    · rw [hji, update_self, hafter] at hj
      obtain rfl := Option.some.inj hj
      exact ⟨x.clock, by simp [hji]⟩
    · rw [update_of_ne hji] at hj
      obtain ⟨n, hn⟩ := h.decided j d hj
      exact ⟨n, List.mem_append_left _ hn⟩
  finished r hr := by
    obtain ⟨n, hn, hmem⟩ := h.finished r hr
    exact ⟨n, hn, List.mem_append_left _ hmem⟩
  settled b hb := by
    dsimp only
    rw [hpc]
    rcases List.mem_append.mp hb with hb | hb
    · refine (h.settled b hb).imp_right fun ⟨hd, hc⟩ => ⟨?_, hc⟩
      have hji : b.2.thread ≠ i := by
        intro he
        rw [he, hbefore] at hd
        cases hd
      rwa [update_of_ne hji]
    · rw [List.mem_singleton.mp hb]
      exact Or.inr ⟨by rw [update_self, hafter], rfl⟩

theorem Serialized.leave (h : Serialized m x abs log) (hpc : t.pc = update x.bank.pc i .idle)
    {done : Done} (hdone : (x.bank.pc i).done = some done) :
    Serialized m ⟨t, x.called, x.finished ++ x.returns i .idle, x.clock + 1⟩
      (update abs (x.clock + 1) (abs x.clock)) log where
  timeline := h.timeline.next_idle
  first := (update_of_ne (Nat.succ_ne_zero _).symm _ _).trans h.first
  once := h.once
  called := h.called
  decided j d hj := by
    dsimp only at hj
    rw [hpc] at hj
    by_cases hji : j = i
    · rw [hji, update_self] at hj
      cases hj
    · rw [update_of_ne hji] at hj
      exact h.decided j d hj
  finished r hr := by
    rcases List.mem_append.mp hr with hr | hr
    · exact h.finished r hr
    · obtain ⟨⟨thread, called, d⟩, returned⟩ := r
      obtain ⟨-, hthread, hcalled, hreturned, hd⟩ := mem_returns hr
      dsimp only at hthread hcalled hreturned hd ⊢
      subst hthread hcalled hreturned
      obtain ⟨n, hn⟩ := h.decided _ _ hd
      exact ⟨n, (h.timeline.past _ hn).trans (Nat.lt_succ_self _), hn⟩
  settled b hb := by
    dsimp only
    rw [hpc]
    rcases h.settled b hb with ⟨r, hr, he⟩ | ⟨hd, hc⟩
    · exact Or.inl ⟨r, List.mem_append_left _ hr, he⟩
    · by_cases hji : b.2.thread = i
      · refine Or.inl ⟨⟨⟨i, x.called i, done⟩, x.clock + 1⟩, ?_, ?_⟩
        · rw [Traced.returns, hdone]
          exact List.mem_append_right _ (List.mem_singleton_self _)
        · rw [hji, hdone] at hd
          rw [hji] at hc
          obtain ⟨n, thread, called, d⟩ := b
          obtain rfl : thread = i := hji
          obtain rfl := Option.some.inj hd
          obtain rfl : x.called thread = called := hc
          rfl
      · rw [update_of_ne hji]
        exact Or.inr ⟨hd, hc⟩

/-- What holds in every reachable state. -/
structure Serial (m : SimpleMap ℚ) (x : Traced ι) (abs : Nat → SimpleMap ℚ)
    (log : List (Nat × Entry ι)) : Prop where
  locking : Locking x.bank
  clocked : Clocked x
  behind : Behind x.bank (abs x.clock)
  serialized : Serialized m x abs log

theorem Serial.step (h : Serial m x abs log) {e : Event ι} (hs : x.step e = some y) :
    ∃ abs' log', Serial m y abs' log' := by
  have hlocking : Locking y.bank := by
    obtain ⟨t, ht, rfl⟩ := Option.map_eq_some_iff.mp hs
    cases e <;> exact h.locking.step ht
  cases e with
  | call i op =>
    obtain ⟨pc, hidle, hdone, htransit, hsees, rfl⟩ := Traced.call_cases hs
    refine ⟨_, _, hlocking, h.clocked.call pc, ?_, h.serialized.call hidle hdone⟩
    rw [update_self]
    exact h.behind.goto rfl rfl (by rw [htransit, hidle]; rfl) (hsees _ _)
  | next i =>
    obtain ⟨t, hnext, rfl⟩ := Traced.next_cases hs
    obtain ⟨pc, a, hpc, heffect, hbehind⟩ := h.behind.next h.locking hnext
    obtain rfl : t.pc i = pc := by rw [hpc, update_self]
    have hclocked := h.clocked.next hnext hpc
    have hbehind : Behind t (update abs (x.clock + 1) a (x.clock + 1)) := by rwa [update_self]
    cases heffect with
    | quiet hsame hne ha =>
      subst ha
      rw [returns_nil hne, List.append_nil] at hclocked hlocking ⊢
      exact ⟨_, _, hlocking, hclocked, hbehind, h.serialized.quiet hpc hsame⟩
    | decide done hbefore hafter ha =>
      have hne : t.pc i ≠ .idle := by
        intro hidle
        rw [hidle] at hafter
        cases hafter
      rw [returns_nil hne, List.append_nil] at hclocked hlocking ⊢
      exact ⟨_, _, hlocking, hclocked, hbehind,
        h.serialized.decide h.clocked hnext hpc hbefore hafter ha⟩
    | leave done hdone hidle ha =>
      subst ha
      rw [hidle] at hclocked hlocking hpc ⊢
      exact ⟨_, _, hlocking, hclocked, hbehind, h.serialized.leave hpc hdone⟩

/-- To keep the trace does not hold the bank up. -/
theorem exec_traced {es : List (Event ι)} :
    exec Bank.step x.bank es = (exec Traced.step x es).map Traced.bank := by
  induction es generalizing x with
  | nil => rfl
  | cons e es ih =>
    rw [exec, exec, Traced.step]
    rcases hs : Bank.step x.bank e with _ | t
    · rfl
    · rw [Option.map_some, Option.bind_some, Option.bind_some, ← ih]
      cases e <;> rfl

variable {buckets keyMax : Nat} {initial : Nat → ℚ}

theorem Serial.start (hb : 0 < buckets) :
    Serial (accounts buckets keyMax initial) (.start (State.init ι buckets keyMax initial))
      (fun _ => accounts buckets keyMax initial) [] where
  locking := .init _ _ _
  clocked := ⟨fun _ => le_rfl, nofun, nofun⟩
  behind := by
    obtain ⟨hsorted, hbuckets, -⟩ := accounts_spec buckets keyMax initial
    exact ⟨hbuckets.symm ▸ hb, hsorted, hsorted, fun _ _ => rfl, fun _ => trivial⟩
  serialized := ⟨.zero, rfl, List.nodup_nil, nofun, nofun, nofun, nofun⟩

/-- **Serializability.** The calls of any threads can be put in an order, each at an
instant of its own, in which one thread without locks gets the same answers. It leaves
the accounts as they are whenever no thread is in a `deposit`. -/
theorem serializable (hb : 0 < buckets) {es : List (Event ι)}
    (h : exec Traced.step (.start (State.init ι buckets keyMax initial)) es = some x) :
    ∃ abs log, Serialized (accounts buckets keyMax initial) x abs log ∧
      Plays (fun a (e : Entry ι) => Lockfree a e.done) (accounts buckets keyMax initial)
        (log.map Prod.snd) (abs x.clock) ∧
      ((∀ i, ¬ (x.bank.pc i).Depositing) → x.bank.map.get = (abs x.clock).get) := by
  obtain ⟨abs, log, hserial⟩ := exec_invariant
    (I := fun x => ∃ abs log, Serial (accounts buckets keyMax initial) x abs log)
    ⟨_, _, Serial.start hb⟩ (fun _ _ _ ⟨_, _, hu⟩ hs => hu.step hs) h
  refine ⟨abs, log, hserial.serialized, ?_, fun hquiet => funext fun key => ?_⟩
  · rw [← hserial.serialized.first]
    exact hserial.serialized.timeline.plays_all
  · exact hserial.behind.settled key fun j d hd _ => hquiet j (inTransit_depositing hd)

/-- The audit that begins first is put after the transfer. -/
theorem serializable_audit : ∃ x, exec Traced.step
    (.start (State.init Bool 2 3 fun _ => 100000 / 3)) transferAndAudit = some x ∧
      x.finished.map (fun r => r.entry.done) = [.deposit ⟨0, 1, 10⟩ true, .balance 3 100000] ∧
      ∃ abs log, Serialized (accounts 2 3 fun _ => 100000 / 3) x abs log ∧
        Plays (fun a (e : Entry Bool) => Lockfree a e.done) (accounts 2 3 fun _ => 100000 / 3)
          (log.map Prod.snd) (abs x.clock) ∧
        ((∀ i, ¬ (x.bank.pc i).Depositing) → x.bank.map.get = (abs x.clock).get) := by
  have hrun : ((exec Traced.step (.start (State.init Bool 2 3 fun _ => 100000 / 3))
      transferAndAudit).map fun x => x.finished.map fun r => r.entry.done) =
        some [.deposit ⟨0, 1, 10⟩ true, .balance 3 100000] := by decide +kernel
  obtain ⟨x, hx, hfinished⟩ := Option.map_eq_some_iff.mp hrun
  exact ⟨x, hx, hfinished, serializable Nat.two_pos hx⟩

end ConcurrentComputing.Bank
