import ConcurrentComputing.BankLocks
import Mathlib.Algebra.BigOperators.Group.Finset.Basic
import Mathlib.Algebra.BigOperators.Intervals
import Mathlib.Algebra.Field.Rat
import Mathlib.Tactic.Abel

/-! # Money is conserved

Between its two updates a `deposit` has money in transit; it holds the locks of both
buckets then. The ledger is what the accounts hold with the money in transit put
back: its sum never changes, and an audit, which holds every lock, sees no account
that differs from it. -/

namespace ConcurrentComputing.Bank

open Function Runs ReadWriteLock

/-! ## The ledger -/

def worth (keyMax : Nat) (ledger : Int → ℚ) : ℚ := ∑ i ∈ Finset.range keyMax, ledger i

variable {keyMax : Nat} {ledger ledger' : Int → ℚ} {key k : Int}

theorem worth_congr (h : ∀ i < keyMax, ledger (i : Nat) = ledger' (i : Nat)) :
    worth keyMax ledger = worth keyMax ledger' :=
  Finset.sum_congr rfl fun i hi => h i (Finset.mem_range.mp hi)

theorem worth_update (hk : 0 ≤ key ∧ key < keyMax) (val : ℚ) :
    worth keyMax (update ledger key val) = worth keyMax ledger - ledger key + val := by
  obtain ⟨n, rfl⟩ := Int.eq_ofNat_of_zero_le hk.1
  have hn : n ∈ Finset.range keyMax := Finset.mem_range.mpr (Int.ofNat_lt.mp hk.2)
  have hpoint : ∀ i : Nat, update ledger (n : Int) val (i : Int) =
      update (fun i : Nat => ledger i) n val i := by
    intro i
    by_cases hi : i = n
    · rw [hi, update_self, update_self]
    · rw [update_of_ne hi, update_of_ne fun h => hi (Int.ofNat_inj.mp h)]
  simp only [worth, hpoint]
  rw [Finset.sum_update_of_mem hn, Finset.sum_eq_add_sum_sdiff_singleton_of_mem hn]
  abel

/-- Money moved from one account to another. -/
theorem worth_transfer (hs : 0 ≤ key ∧ key < keyMax) (ht : 0 ≤ k ∧ k < keyMax) (hne : k ≠ key)
    (amount : ℚ) : worth keyMax (update (update ledger key (ledger key - amount)) k
      (ledger k + amount)) = worth keyMax ledger := by
  rw [worth_update ht, worth_update hs, update_of_ne hne]
  abel

/-! ## What a thread knows -/

/-- The `deposit` whose money is in transit. -/
def Pc.inTransit : Pc → Option Deposit
  | .lookupTarget d _ | .credit d _ | .fallback d _ => some d
  | _ => none

/-- What a thread knows of the accounts and the ledger. -/
def Pc.Knows (m : SimpleMap ℚ) (ledger : Int → ℚ) (keyMax : Nat) (total : ℚ) : Pc → Prop
  | .acquireReader _ n => n ≤ m.buckets
  | .withdraw d source => m.get d.keySource = some source
  | .lookupTarget d source => m.get d.keySource = some (source - d.amount) ∧
    ledger d.keySource = source
  | .credit d target => m.get d.keyTarget = some target ∧
    ∃ source, m.get d.keySource = some (source - d.amount) ∧ ledger d.keySource = source
  | .fallback d source => m.get d.keyTarget = none ∧
    m.get d.keySource = some (source - d.amount) ∧ ledger d.keySource = source
  | .sum range n part => n ≤ range ∧ part = worth n fun key => (m.get key).getD 0
  | .releaseReader range _ part => range = keyMax → part = total
  | _ => True

variable {m m' : SimpleMap ℚ} {pc pc' : Pc} {d : Deposit} {b n : Nat} {total : ℚ}

theorem inTransit_mode (h : pc.inTransit = some d) : pc.mode m (m.hash d.keySource) = some .write := by
  cases pc <;> cases h <;> exact if_pos (source_mem_locks m d)

theorem inTransit_depositing (h : pc.inTransit = some d) : pc.Depositing := by
  cases pc <;> cases h <;> trivial

/-- What a thread knows does not change unless an account does whose lock it holds. -/
theorem knows_congr (hb : 0 < m.buckets) (hbuckets : m'.buckets = m.buckets)
    (h : ∀ key, pc.mode m (m.hash key) ≠ none → m'.get key = m.get key ∧ ledger' key = ledger key)
    (hk : pc.Knows m ledger keyMax total) : pc.Knows m' ledger' keyMax total := by
  have hdeposit : ∀ d : Deposit, (∀ b, b ∈ d.locks m → pc.mode m b ≠ none) →
      (m'.get d.keySource = m.get d.keySource ∧ ledger' d.keySource = ledger d.keySource) ∧
        m'.get d.keyTarget = m.get d.keyTarget := fun d hd =>
    ⟨h _ (hd _ (source_mem_locks m d)), (h _ (hd _ (target_mem_locks m d))).1⟩
  have hheld : ∀ {l : List Nat} {b : Nat}, b ∈ l →
      (if b ∈ l then some Mode.write else none) ≠ none := by
    intro l b hb
    rw [if_pos hb]
    exact Option.some_ne_none _
  cases pc with
  | withdraw d source =>
    obtain ⟨⟨hs, _⟩, _⟩ := hdeposit d fun _ => hheld
    exact hs.trans hk
  | lookupTarget d source =>
    obtain ⟨⟨hs, hl⟩, _⟩ := hdeposit d fun _ => hheld
    exact ⟨hs.trans hk.1, hl.trans hk.2⟩
  | credit d target =>
    obtain ⟨⟨hs, hl⟩, ht⟩ := hdeposit d fun _ => hheld
    obtain ⟨hk, source, hks, hkl⟩ := hk
    exact ⟨ht.trans hk, source, hs.trans hks, hl.trans hkl⟩
  | fallback d source =>
    obtain ⟨⟨hs, hl⟩, ht⟩ := hdeposit d fun _ => hheld
    exact ⟨ht.trans hk.1, hs.trans hk.2.1, hl.trans hk.2.2⟩
  | sum range n part =>
    obtain ⟨hle, hpart⟩ := hk
    refine ⟨hle, hpart.trans (worth_congr fun i _ => ?_)⟩
    have hlt : m.hash i < m.buckets := Nat.mod_lt _ hb
    rw [(h i (by rw [Pc.mode, if_pos hlt]; exact Option.some_ne_none _)).1]
  | acquireReader range n =>
    change n ≤ m.buckets at hk
    exact hk.trans_eq hbuckets.symm
  | releaseReader range n part => exact hk
  | idle | acquire | lookupSource | release => trivial

/-! ## Steps -/

variable {ι : Type} [DecidableEq ι]

structure Inv (keyMax : Nat) (total : ℚ) (s : State ι) (ledger : Int → ℚ) : Prop where
  buckets : 0 < s.map.buckets
  sorted : s.map.Sorted
  accounts : ∀ key, (s.map.get key).isSome ↔ 0 ≤ key ∧ key < keyMax
  locks : Holds s.locks fun i => (s.pc i).mode s.map
  conserved : worth keyMax ledger = total
  settled : ∀ key, (∀ i d, (s.pc i).inTransit = some d → d.keySource ≠ key) →
    (s.map.get key).getD 0 = ledger key
  knows : ∀ i, (s.pc i).Knows s.map ledger keyMax total
  audits : ∀ r ∈ s.balances, r.1 = keyMax → r.2 = total

variable {s t : State ι} {i j : ι} {locks : Nat → RWLock ι} {balances : List (Nat × ℚ)}
  {deposits : List (Deposit × Bool)}

/-- Under a write lock only the thread's own money is in transit. -/
theorem Inv.settled_of_write (h : Inv keyMax total s ledger)
    (hmode : (s.pc i).mode s.map (s.map.hash key) = some .write)
    (hown : ∀ d, (s.pc i).inTransit = some d → d.keySource ≠ key) :
    (s.map.get key).getD 0 = ledger key := by
  refine h.settled key fun j d hd hkey => ?_
  have hj := inTransit_mode (m := s.map) hd
  rw [hkey] at hj
  obtain rfl := h.locks.eq_of_write hmode (by rw [hj]; nofun)
  exact hown d hd hkey

/-- An audit that holds every lock sees no money in transit. -/
theorem Inv.settled_of_read (h : Inv keyMax total s ledger)
    (hmode : ∀ b < s.map.buckets, (s.pc i).mode s.map b = some .read) :
    (fun key => (s.map.get key).getD 0) = ledger := by
  funext key
  refine h.settled key fun j d hd _ => ?_
  have hj := inTransit_mode (m := s.map) hd
  have hi := hmode (s.map.hash d.keySource) (Nat.mod_lt _ h.buckets)
  obtain rfl := h.locks.eq_of_write hj (by rw [hi]; nofun)
  rw [hi] at hj
  cases hj

/-- A step that leaves the accounts as they are. -/
theorem Inv.goto (h : Inv keyMax total s ledger)
    (hlocks : Holds locks fun j => (update s.pc i pc j).mode s.map)
    (htransit : pc.inTransit = (s.pc i).inTransit) (hknows : pc.Knows s.map ledger keyMax total)
    (haudits : ∀ r ∈ balances, r.1 = keyMax → r.2 = total) :
    Inv keyMax total ⟨s.map, locks, update s.pc i pc, deposits, balances⟩ ledger where
  buckets := h.buckets
  sorted := h.sorted
  accounts := h.accounts
  locks := hlocks
  conserved := h.conserved
  settled := fun key hkey => h.settled key fun j d hd => by
    by_cases hj : j = i
    · subst hj
      exact hkey j d ((congrArg Pc.inTransit (update_self j pc s.pc)).trans (htransit.trans hd))
    · exact hkey j d ((congrArg Pc.inTransit (update_of_ne hj pc s.pc)).trans hd)
  knows := fun j => by
    dsimp only
    by_cases hj : j = i
    · subst hj
      rwa [update_self]
    · rw [update_of_ne hj]
      exact h.knows j
  audits := haudits

/-- An update by a thread that holds the lock. -/
theorem Inv.write (h : Inv keyMax total s ledger) {val : ℚ}
    (hmode : (s.pc i).mode s.map (s.map.hash key) = some .write)
    (hsame : pc.mode s.map = (s.pc i).mode s.map)
    (hworth : worth keyMax ledger' = total)
    (hother : ∀ k, (s.pc i).mode s.map (s.map.hash k) ≠ some .write → ledger' k = ledger k)
    (hown : ∀ k, (s.pc i).mode s.map (s.map.hash k) = some .write →
      (∀ d, pc.inTransit = some d → d.keySource ≠ k) →
        ((s.map.update key val).1.get k).getD 0 = ledger' k)
    (hknows : pc.Knows (s.map.update key val).1 ledger' keyMax total) :
    Inv keyMax total ({ s with map := (s.map.update key val).1 }.goto i pc) ledger' := by
  have hget : ∀ k, (s.pc i).mode s.map (s.map.hash k) ≠ some .write →
      (s.map.update key val).1.get k = s.map.get k := by
    intro k hk
    rw [SimpleMap.get_update h.sorted, if_neg]
    rintro rfl
    exact hk hmode
  refine ⟨h.buckets, h.sorted.update key val, fun k => ?_, ?_, hworth, fun k hk => ?_, fun j => ?_,
    h.audits⟩
  · refine Iff.trans ?_ (h.accounts k)
    change ((s.map.update key val).1.get k).isSome ↔ _
    rw [SimpleMap.get_update h.sorted]
    split
    · rename_i he
      rw [he, Option.isSome_map]
    · rfl
  · change Holds s.locks fun j => (update s.pc i pc j).mode s.map
    rw [update_mode]
    exact h.locks.same hsame
  · change ((s.map.update key val).1.get k).getD 0 = ledger' k
    by_cases hheld : (s.pc i).mode s.map (s.map.hash k) = some .write
    · refine hown k hheld fun d hd => hk i d ?_
      exact (congrArg Pc.inTransit (update_self i pc s.pc)).trans hd
    · rw [hget k hheld, hother k hheld]
      refine h.settled k fun j d hd hkey => ?_
      by_cases hj : j = i
      · subst hj
        exact hheld (hkey ▸ inTransit_mode hd)
      · have hd' : (update s.pc i pc j).inTransit = some d := by rwa [update_of_ne hj]
        exact hk j d hd' hkey
  · change (update s.pc i pc j).Knows (s.map.update key val).1 ledger' keyMax total
    by_cases hj : j = i
    · subst hj
      rwa [update_self]
    · rw [update_of_ne hj]
      refine knows_congr h.buckets rfl (fun k hheld => ?_) (h.knows j)
      have hfree : (s.pc i).mode s.map (s.map.hash k) ≠ some .write := fun hw =>
        hj (h.locks.eq_of_write hw hheld).symm
      exact ⟨hget k hfree, hother k hfree⟩

/-- A transfer keeps the sum: what the target had is what the ledger says, unless it
is the source. -/
theorem Inv.conserved_credit (h : Inv keyMax total s ledger) {source target : ℚ}
    (hs : s.map.get d.keySource = some (source - d.amount)) (hl : ledger d.keySource = source)
    (ht : s.map.get d.keyTarget = some target)
    (hsettled : d.keySource ≠ d.keyTarget → (s.map.get d.keyTarget).getD 0 = ledger d.keyTarget) :
    worth keyMax (update (update ledger d.keySource (source - d.amount)) d.keyTarget
      (target + d.amount)) = total := by
  have hsource := (h.accounts d.keySource).mp (by rw [hs]; rfl)
  have htarget := (h.accounts d.keyTarget).mp (by rw [ht]; rfl)
  by_cases hne : d.keyTarget = d.keySource
  · rw [hne, hs] at ht
    rw [hne, update_idem, ← Option.some.inj ht, sub_add_cancel, ← hl, update_eq_self]
    exact h.conserved
  · have htledger := hsettled (Ne.symm hne)
    rw [ht, Option.getD_some] at htledger
    rw [htledger, ← hl, worth_transfer hsource htarget hne]
    exact h.conserved

theorem Inv.withdraw (h : Inv keyMax total s ledger) {source : ℚ}
    (hpc : s.pc i = .withdraw d source) :
    Inv keyMax total ({ s with
      map := (s.map.update d.keySource (source - d.amount)).1 }.goto i (.lookupTarget d source))
      ledger := by
  have hk : s.map.get d.keySource = some source := by
    have hk := h.knows i
    rwa [hpc] at hk
  have hmode : (s.pc i).mode s.map (s.map.hash d.keySource) = some .write := by
    rw [hpc]
    exact if_pos (source_mem_locks _ d)
  refine h.write hmode (by rw [hpc]; rfl) h.conserved (fun _ _ => rfl) (fun k hheld hne => ?_) ⟨?_, ?_⟩
  · have hk := hne d rfl
    rw [SimpleMap.get_update h.sorted, if_neg (Ne.symm hk)]
    refine h.settled_of_write hheld fun d' hd' => ?_
    rw [hpc] at hd'
    cases hd'
  · rw [SimpleMap.get_update h.sorted, if_pos rfl, hk, Option.map_some]
  · have hs := h.settled_of_write hmode fun d' hd' => by
      rw [hpc] at hd'
      cases hd'
    rw [← hs, hk, Option.getD_some]

theorem Inv.credit (h : Inv keyMax total s ledger) {target : ℚ}
    (hpc : s.pc i = .credit d target) : ∃ ledger',
    Inv keyMax total ({ s with
      map := (s.map.update d.keyTarget (target + d.amount)).1 }.goto i (.release d 0 true))
      ledger' := by
  obtain ⟨ht, source, hs, hl⟩ : s.map.get d.keyTarget = some target ∧ ∃ source,
      s.map.get d.keySource = some (source - d.amount) ∧ ledger d.keySource = source := by
    have hk := h.knows i
    rwa [hpc] at hk
  have hmode : ∀ b ∈ d.locks s.map, (s.pc i).mode s.map b = some .write := by
    intro b hb
    rw [hpc]
    exact if_pos hb
  have hsettled : ∀ k, (s.pc i).mode s.map (s.map.hash k) = some .write → d.keySource ≠ k →
      (s.map.get k).getD 0 = ledger k := by
    intro k hheld hne
    refine h.settled_of_write hheld fun d' hd' => ?_
    rw [hpc] at hd'
    cases hd'
    exact hne
  refine ⟨update (update ledger d.keySource (source - d.amount)) d.keyTarget (target + d.amount),
    h.write (hmode _ (target_mem_locks _ d)) ?_
    (h.conserved_credit hs hl ht (hsettled _ (hmode _ (target_mem_locks _ d)))) (fun k hfree => ?_)
    (fun k hheld _ => ?_) trivial⟩
  · rw [hpc]
    rfl
  · rw [update_of_ne, update_of_ne]
    · rintro rfl
      exact hfree (hmode _ (source_mem_locks _ d))
    · rintro rfl
      exact hfree (hmode _ (target_mem_locks _ d))
  · rw [SimpleMap.get_update h.sorted]
    by_cases hkt : k = d.keyTarget
    · subst hkt
      rw [if_pos rfl, ht, update_self]
      rfl
    · rw [if_neg hkt, update_of_ne hkt]
      by_cases hks : k = d.keySource
      · subst hks
        rw [update_self, hs, Option.getD_some]
      · rw [update_of_ne hks]
        exact hsettled k hheld (Ne.symm hks)

theorem Inv.fallback (h : Inv keyMax total s ledger) {source : ℚ}
    (hpc : s.pc i = .fallback d source) :
    Inv keyMax total ({ s with
      map := (s.map.update d.keySource source).1 }.goto i (.release d 0 false)) ledger := by
  obtain ⟨_, hs, hl⟩ : s.map.get d.keyTarget = none ∧
      s.map.get d.keySource = some (source - d.amount) ∧ ledger d.keySource = source := by
    have hk := h.knows i
    rwa [hpc] at hk
  refine h.write ?_ (by rw [hpc]; rfl) h.conserved (fun _ _ => rfl) (fun k hheld _ => ?_) trivial
  · rw [hpc]
    exact if_pos (source_mem_locks _ d)
  · rw [SimpleMap.get_update h.sorted]
    by_cases hk : k = d.keySource
    · subst hk
      rw [if_pos rfl, hs, Option.map_some, Option.getD_some, hl]
    · rw [if_neg hk]
      refine h.settled_of_write hheld fun d' hd' => ?_
      rw [hpc] at hd'
      cases hd'
      exact Ne.symm hk

theorem Inv.next (h : Inv keyMax total s ledger) (hl : Locking s) (hs : s.next i = some t) :
    ∃ ledger', Inv keyMax total t ledger' := by
  have hlocks : Holds t.locks fun j => (t.pc j).mode t.map := (hl.step (e := .next i) hs).holds
  have hk := h.knows i
  unfold State.next at hs
  cases hpc : s.pc i with
  | idle =>
    rw [hpc] at hs
    cases hs
  | acquire d n =>
    simp only [hpc] at hs
    split at hs
    · cases hs
      exact ⟨ledger, h.goto hlocks (by rw [hpc]; rfl) trivial h.audits⟩
    · obtain ⟨l, hl, rfl⟩ := Option.map_eq_some_iff.mp hs
      exact ⟨ledger, h.goto hlocks (by rw [hpc]; rfl) trivial h.audits⟩
  | lookupSource d =>
    simp only [hpc, SimpleMap.lookup_eq] at hs
    cases hget : s.map.get d.keySource with
    | some source =>
      simp only [hget, Option.getD_some, Option.isSome_some] at hs
      cases hs
      exact ⟨ledger, h.goto hlocks (by rw [hpc]; rfl) hget h.audits⟩
    | none =>
      simp only [hget, Option.isSome_none] at hs
      cases hs
      exact ⟨ledger, h.goto hlocks (by rw [hpc]; rfl) trivial h.audits⟩
  | withdraw d source =>
    simp only [hpc] at hs
    cases hs
    exact ⟨ledger, h.withdraw hpc⟩
  | lookupTarget d source =>
    rw [hpc] at hk
    simp only [hpc, SimpleMap.lookup_eq] at hs
    cases hget : s.map.get d.keyTarget with
    | some target =>
      simp only [hget, Option.getD_some, Option.isSome_some] at hs
      cases hs
      exact ⟨ledger, h.goto hlocks (by rw [hpc]; rfl) ⟨hget, source, hk⟩ h.audits⟩
    | none =>
      simp only [hget, Option.isSome_none] at hs
      cases hs
      exact ⟨ledger, h.goto hlocks (by rw [hpc]; rfl) ⟨hget, hk⟩ h.audits⟩
  | credit d target =>
    simp only [hpc] at hs
    cases hs
    exact h.credit hpc
  | fallback d source =>
    simp only [hpc] at hs
    cases hs
    exact ⟨ledger, h.fallback hpc⟩
  | release d n retval =>
    simp only [hpc] at hs
    split at hs
    · cases hs
      exact ⟨ledger, h.goto hlocks (by rw [hpc]; rfl) trivial h.audits⟩
    · cases hs
      exact ⟨ledger, h.goto hlocks (by rw [hpc]; rfl) trivial h.audits⟩
  | acquireReader range n =>
    simp only [hpc] at hs
    split at hs
    · rename_i hlt
      obtain ⟨l, hl, rfl⟩ := Option.map_eq_some_iff.mp hs
      exact ⟨ledger, h.goto hlocks (by rw [hpc]; rfl) hlt h.audits⟩
    · cases hs
      exact ⟨ledger, h.goto hlocks (by rw [hpc]; rfl) ⟨Nat.zero_le _, rfl⟩ h.audits⟩
  | sum range n part =>
    rw [hpc] at hk
    obtain ⟨hle, hpart⟩ := hk
    have hmode : ∀ b < s.map.buckets, (s.pc i).mode s.map b = some .read := by
      intro b hb
      rw [hpc]
      exact if_pos hb
    simp only [hpc] at hs
    split at hs
    · rename_i hlt
      cases hs
      refine ⟨ledger, h.goto hlocks (by rw [hpc]; rfl) ⟨hlt, ?_⟩ h.audits⟩
      rw [hpart, SimpleMap.lookup_eq, worth, worth, Finset.sum_range_succ]
    · rename_i hge
      cases hs
      refine ⟨ledger, h.goto hlocks (by rw [hpc]; rfl) (fun hrange => ?_) h.audits⟩
      rw [hpart, h.settled_of_read hmode, ← h.conserved, ← hrange, show n = range by omega]
  | releaseReader range n part =>
    rw [hpc] at hk
    simp only [hpc] at hs
    split at hs
    · cases hs
      exact ⟨ledger, h.goto hlocks (by rw [hpc]; rfl) hk h.audits⟩
    · cases hs
      refine ⟨ledger, h.goto hlocks (by rw [hpc]; rfl) trivial fun r hr => ?_⟩
      rcases List.mem_append.mp hr with hr | hr
      · exact h.audits r hr
      · rw [List.mem_singleton.mp hr]
        exact hk

theorem Inv.step (h : Inv keyMax total s ledger) (hl : Locking s) {e : Event ι}
    (hs : step s e = some t) : ∃ ledger', Inv keyMax total t ledger' := by
  cases e with
  | next i => exact h.next hl hs
  | call i op =>
    have hlocks := (hl.step hs).holds
    unfold Bank.step at hs
    dsimp only at hs
    split at hs
    · rename_i hpc
      cases hs
      cases op with
      | deposit d => exact ⟨ledger, h.goto hlocks (by rw [hpc]; rfl) trivial h.audits⟩
      | balance range => exact ⟨ledger, h.goto hlocks (by rw [hpc]; rfl) (Nat.zero_le _) h.audits⟩
    · cases hs

/-! ## The accounts at the start -/

variable {buckets : Nat} {initial : Nat → ℚ}

theorem accounts_spec (buckets keyMax : Nat) (initial : Nat → ℚ) :
    (accounts buckets keyMax initial).Sorted ∧
      (accounts buckets keyMax initial).buckets = buckets ∧
      ∀ key, (accounts buckets keyMax initial).get key =
        if 0 ≤ key ∧ key < keyMax then some (initial key.toNat) else none := by
  induction keyMax with
  | zero =>
    refine ⟨.new buckets, rfl, fun key => ?_⟩
    rw [if_neg (by omega)]
    rfl
  | succ n ih =>
    obtain ⟨hsorted, hbuckets, hget⟩ := ih
    have hstep : accounts buckets (n + 1) initial =
        ((accounts buckets n initial).insert n (initial n)).1 := by
      rw [accounts, List.range_succ, List.foldl_append]
      rfl
    rw [hstep]
    refine ⟨hsorted.insert _ _, hbuckets, fun key => ?_⟩
    rw [SimpleMap.get_insert hsorted, hget, hget]
    by_cases hk : key = n
    · subst hk
      rw [if_pos rfl, if_neg (by omega), if_pos (by omega), Option.getD_none, Int.toNat_natCast]
    · rw [if_neg hk]
      exact if_congr (by omega) rfl rfl

theorem Inv.init (hb : 0 < buckets) :
    Inv keyMax (∑ i ∈ Finset.range keyMax, initial i) (State.init ι buckets keyMax initial)
      fun key => if 0 ≤ key ∧ key < keyMax then initial key.toNat else 0 := by
  obtain ⟨hsorted, hbuckets, hget⟩ := accounts_spec buckets keyMax initial
  refine ⟨hbuckets.symm ▸ hb, hsorted, fun key => ?_, fun b i => rfl, ?_, fun key _ => ?_,
    fun _ => trivial, nofun⟩
  · change ((Bank.accounts buckets keyMax initial).get key).isSome ↔ _
    rw [hget]
    split <;> simp_all
  · refine Finset.sum_congr rfl fun i hi => ?_
    have hlt := Finset.mem_range.mp hi
    dsimp only
    rw [if_pos (by omega), Int.toNat_natCast]
  · change ((Bank.accounts buckets keyMax initial).get key).getD 0 = _
    rw [hget]
    split <;> rfl

/-- What `balance` adds up. -/
theorem balance_eq (m : SimpleMap ℚ) (range : Nat) :
    balance m range = worth range fun key => (m.get key).getD 0 := by
  induction range with
  | zero => rfl
  | succ n ih =>
    rw [balance, List.range_succ, List.foldl_append] at *
    rw [ih, worth, worth, Finset.sum_range_succ]
    simp [SimpleMap.lookup_eq]

/-- **Conservation.** Whatever the threads transfer, every `balance` over all
accounts returns what the accounts were filled with, and they hold it whenever no
thread is in a `deposit`. -/
theorem money_conserved (hb : 0 < buckets) {es : List (Event ι)}
    (h : exec Bank.step (State.init ι buckets keyMax initial) es = some s) :
    (∀ r ∈ s.balances, r.1 = keyMax → r.2 = ∑ i ∈ Finset.range keyMax, initial i) ∧
      ((∀ i, ¬ (s.pc i).Depositing) →
        balance s.map keyMax = ∑ i ∈ Finset.range keyMax, initial i) := by
  obtain ⟨_, ledger, hinv⟩ := exec_invariant
    (I := fun s => Locking s ∧
      ∃ ledger, Inv keyMax (∑ i ∈ Finset.range keyMax, initial i) s ledger)
    ⟨.init _ _ _, _, Inv.init hb⟩
    (fun _ _ _ hu hs => by
      obtain ⟨hl, _, hu⟩ := hu
      exact ⟨hl.step hs, hu.step hl hs⟩) h
  refine ⟨hinv.audits, fun hquiet => ?_⟩
  rw [balance_eq, ← hinv.conserved]
  exact worth_congr fun i _ => hinv.settled i fun j d hd _ => hquiet j (inTransit_depositing hd)

/-- An audit begins while a transfer between two buckets is under way. -/
def transferAndAudit : List (Event Bool) :=
  [.call false (.deposit ⟨0, 1, 10⟩), .next false, .call true (.balance 3), .next false,
    .next false, .next false, .next false, .next false, .next false, .next false, .next true,
    .next false, .next false, .next true, .next true, .next true, .next true, .next true,
    .next true, .next true, .next true, .next true]

theorem money_conserved_audit : ∃ s, exec Bank.step (State.init Bool 2 3 fun _ => 100000 / 3)
    transferAndAudit = some s ∧ s.deposits.length = 1 ∧ s.balances = [(3, 100000)] ∧
      ∀ r ∈ s.balances, r.1 = 3 → r.2 = ∑ _i ∈ Finset.range 3, 100000 / 3 := by
  have hrun : ((exec Bank.step (State.init Bool 2 3 fun _ => 100000 / 3) transferAndAudit).map
      fun s => (s.deposits.length, s.balances)) = some (1, [(3, 100000)]) := by decide +kernel
  obtain ⟨s, hs, hans⟩ := Option.map_eq_some_iff.mp hrun
  obtain ⟨hdeposits, hbalances⟩ := Prod.mk.inj hans
  exact ⟨s, hs, hdeposits, hbalances, (money_conserved (by decide) hs).1⟩

end ConcurrentComputing.Bank
