import ConcurrentComputing.LazyListAlone
import ConcurrentComputing.LazyListThreads

/-! # The lazy list when its threads have done

A marked node that is still in the chain is being unlinked. So when no call is under
way, the list is as one thread would have left it: nothing is locked, and its nodes
are those of the keys. -/

namespace ConcurrentComputing.LazyList

open Function Runs SortedChain

variable {ι : Type} {m m' : Memory ι} {i : ι} {op : Op} {a : Addr} {pc pc' : Pc} {o : Outcome}
  {O : Set Addr}

/-- The marked node that the thread has yet to unlink. -/
def Pc.unlinks : Pc → Option Addr
  | .readSucc _ runner | .unlink _ runner _ => some runner
  | _ => none

def Outcome.unlinks : Outcome → Option Addr
  | .goto pc => pc.unlinks
  | .answer _ => none

/-- No effect brings a marked node into the chain. -/
theorem Memory.Effect.reaches (h : m.Effect i O m') (hs : m.Shape) (ha : Reaches m'.next head a)
    (hm : m'.marked a = true) : Reaches m.next head a := by
  cases h with
  | same => exact ha
  | lock => simpa using ha
  | unlock => simpa using ha
  | mark => simpa using ha
  | unlink _ hlinked =>
    rw [Memory.next_setNext] at ha
    exact ha.of_skip hlinked
  | create => exact (hs.reaches_create _ _).mp ha
  | setNext _ hpriv => exact (hpriv.reaches_setNext _).mp ha
  | @link pred runner insertion hv _ hpriv hnext hlt =>
    rw [Memory.next_setNext] at ha
    have hne : insertion ≠ pred := by
      rintro rfl
      exact lt_irrefl _ hlt
    rcases hv.published.1.of_insert hv.linked hne hnext ha with ha | rfl
    · exact ha
    · rw [Memory.marked_setNext, hpriv.unmarked] at hm
      cases hm

/-- The thread that marks a node is to unlink it. -/
theorem advance_marked (h : advance m i op pc = some (m', o)) (ha : m.marked a = false)
    (ha' : m'.marked a = true) : o.unlinks = some a := by
  have hsame : m'.marked = m.marked → o.unlinks = some a := by
    intro he
    rw [he, ha] at ha'
    cases ha'
  cases pc with
  | mark pred runner =>
    cases h
    rw [Memory.marked_setMarked, update_apply] at ha'
    split at ha'
    · rename_i he
      exact congrArg some he.symm
    · rw [ha] at ha'
      cases ha'
  | create pred runner =>
    cases op with
    | add key val =>
      cases h
      rw [Memory.marked_create, update_apply] at ha'
      split at ha'
      · cases ha'
      · rw [ha] at ha'
        cases ha'
    | _ => cases h
  | readNext runner | walkNext pred =>
    obtain ⟨next, -, he⟩ := Option.map_eq_some_iff.mp h
    cases he
    exact hsame rfl
  | lockPred pred runner | lockRunner pred runner =>
    simp only [advance] at h
    split at h <;> cases h
    · exact hsame rfl
    · exact hsame (Memory.marked_setLock ..)
  | decide pred runner =>
    cases op <;> cases h <;> exact hsame rfl
  | giveUp pred => cases h; exact hsame (Memory.marked_setLock ..)
  | unlink pred runner succ => cases h; exact hsame (Memory.marked_setNext ..)
  | setNext pred runner insertion => cases h; exact hsame (Memory.marked_setNext ..)
  | link pred runner insertion => cases h; exact hsame (Memory.marked_setNext ..)
  | unlockPred pred runner result => cases h; exact hsame (Memory.marked_setLock ..)
  | unlockRunner runner result => cases h; exact hsame (Memory.marked_setLock ..)
  | _ => cases h; exact hsame rfl

/-- A node to unlink is so until it is out of the chain. -/
theorem advance_unlinks (hs : m.Shape) (hv : pc.Valid m i op)
    (h : advance m i op pc = some (m', o)) (hpc : pc.unlinks = some a)
    (ha' : Reaches m'.next head a) : o.unlinks = some a := by
  cases pc with
  | readSucc pred runner =>
    cases h
    exact hpc
  | unlink pred runner succ =>
    obtain ⟨-, hw, hu, rfl⟩ := hv
    cases h
    cases hpc
    rw [Memory.next_setNext] at ha'
    exact absurd ha' (hs.ascending.not_reaches_skip
      (hw.predPublished.reaches hu.predUnmarked) hu.linked)
  | _ => cases hpc

variable [DecidableEq ι] {s s' : State ι} {r : Running ι} {es : List (Event ι)} {e : Event ι}

/-- Every marked node in the chain is some thread's to unlink. -/
def Swept (s : State ι) : Prop :=
  ∀ a, Reaches s.mem.next head a → s.mem.marked a = true →
    ∃ i r, s.thread i = some r ∧ r.pc.unlinks = some a

theorem Swept.step (h : Swept s) (hinv : Inv s) (hs : LazyList.step s e = some s') : Swept s' := by
  intro a ha hm
  rcases step_cases hs with ⟨i, op, rfl, hi, rfl⟩ | ⟨i, r, m, o, rfl, hr, hadv, rfl⟩
  · obtain ⟨j, r, hj, hun⟩ := h a ha hm
    refine ⟨j, r, ?_, hun⟩
    dsimp only
    rw [update_of_ne, hj]
    rintro rfl
    rw [hi] at hj
    cases hj
  · have hmem : (s.proceed i r m o).mem = m := by cases o <;> rfl
    rw [hmem] at ha hm
    have hmine : o.unlinks = some a → ∃ j r', (s.proceed i r m o).thread j = some r' ∧
        r'.pc.unlinks = some a := by
      intro ho
      cases o with
      | goto pc => exact ⟨i, ⟨r.call, pc⟩, update_self .., ho⟩
      | answer result => cases ho
    by_cases hold : s.mem.marked a = true
    · have hreach := (hinv.advanced hr hadv).effect.reaches hinv.shape ha hm
      obtain ⟨j, r', hj, hun⟩ := h a hreach hold
      by_cases hji : j = i
      · subst hji
        obtain rfl := Option.some.inj (hj.symm.trans hr)
        exact hmine (advance_unlinks hinv.shape (hinv.valid _ r' hr) hadv hun ha)
      · refine ⟨j, r', ?_, hun⟩
        cases o <;> exact (update_of_ne hji ..).trans hj
    · exact hmine (advance_marked hadv (Bool.eq_false_iff.mpr hold) hm)

theorem run_swept (hplain : ∀ i op, .call i op ∈ es → op.Plain)
    (h : exec LazyList.step start es = some s) : Swept s := by
  refine exec_induction (motive := fun es (s : State ι) =>
    (∀ i op, .call i op ∈ es → op.Plain) → Swept s) (fun _ a _ hm => ?_)
    (fun es u e t hu ih hs hplain => ?_) h hplain
  · have hnone : (Memory.new : Memory ι).marked a = false := (Memory.new_spec a).1
    rw [start, hnone] at hm
    cases hm
  · have hplain : ∀ i op, .call i op ∈ es → op.Plain := fun i op hm => hplain i op (by simp [hm])
    exact (ih hplain).step (run_inv hplain hu) hs

/-! ## At rest -/

omit [DecidableEq ι] in
/-- **The list at rest** is one that a single thread can be given, with the keys that
the threads have left. -/
theorem Inv.at_rest (h : Inv s) (hswept : Swept s) (hidle : ∀ i, s.thread i = none) :
    ∃ S : Finset Int, s.mem.Holds S ∧ (S : Set Int) = s.mem.keys := by
  have hs := h.shape
  obtain ⟨b, hb⟩ : ∃ b, s.mem.next head = some b := by
    refine Option.ne_none_iff_exists'.mp fun hn => ?_
    have hlast := hs.last head published_head hn
    rw [hs.headKey] at hlast
    exact absurd hlast (by decide)
  obtain ⟨l, tail, hl, ht⟩ := hs.ascending.exists_linked (Finset.range s.mem.fresh)
    (fun a b hab => Finset.mem_range.mpr (hs.pointed a b hab)) hb
  have hreach := hl.reaches
  have htail : tail ∈ head :: (l ++ [tail]) := by simp
  have htailKey := hs.last tail (Or.inl (hreach tail htail)) ht
  obtain ⟨hmin, hpair⟩ := List.pairwise_cons.mp (hs.ascending.pairwise hl)
  obtain ⟨hsorted, -, hmax⟩ := List.pairwise_append.mp hpair
  have hlow : ∀ a ∈ l, intMin < s.mem.key a := fun a ha =>
    hs.headKey ▸ hmin a (List.mem_append_left _ ha)
  have hhigh : ∀ a ∈ l, s.mem.key a < intMax := fun a ha =>
    htailKey ▸ hmax a ha tail (List.mem_singleton_self _)
  have hunmarked : ∀ a, Reaches s.mem.next head a → s.mem.marked a = false := by
    intro a ha
    refine Bool.eq_false_iff.mpr fun hm => ?_
    obtain ⟨i, r, hr, -⟩ := hswept a ha hm
    rw [hidle] at hr
    cases hr
  refine ⟨(listKeys s.mem l).toFinset, ⟨l, tail, ⟨hl, ht, hs.headKey, htailKey, hsorted,
    fun a ha => ⟨(hlow a ha).le, hhigh a ha⟩, fun hmem => ?_,
    fun a ha => hs.published_lt (Or.inl (hreach a ha)), fun a ha => hunmarked a (hreach a ha),
    fun a => ?_⟩, rfl⟩, ?_⟩
  · exact absurd (hlow head hmem) (by rw [hs.headKey]; exact lt_irrefl _)
  · refine Option.eq_none_iff_forall_ne_some.mpr fun i hlock => ?_
    obtain ⟨r, hr, -⟩ := h.holds i a hlock
    rw [hidle] at hr
    cases hr
  · ext k
    rw [List.coe_toFinset, Set.mem_ofPred_eq, listKeys, List.mem_map]
    constructor
    · rintro ⟨a, ha, rfl⟩
      have hra := hreach a (List.mem_cons_of_mem _ (List.mem_append_left _ ha))
      exact ⟨hlow a ha, hhigh a ha, a, hra, hunmarked a hra, rfl⟩
    · rintro ⟨hlo, hhi, a, hra, -, rfl⟩
      rcases List.mem_cons.mp (hl.mem ht hra) with rfl | ha
      · exact absurd hs.headKey hlo.ne'
      · rcases List.mem_append.mp ha with ha | ha
        · exact ⟨a, ha, rfl⟩
        · rw [List.mem_singleton.mp ha, htailKey] at hhi
          exact absurd hhi (lt_irrefl _)

end ConcurrentComputing.LazyList
