import ConcurrentComputing.LazyListThreads

/-! # What the answers mean

An access either leaves the keys of the list and what has been decided as they
are, or decides the answer of its call, and then the keys change as a set does for
that answer. Only `contains` decides by what it has seen before. -/

namespace ConcurrentComputing.LazyList

open Function Runs SortedChain

/-- A set answers a call and becomes another. -/
def Op.SetStep (S : Set Int) : Op → Result → Set Int → Prop
  | .add key _, .true, S' => key ∉ S ∧ S' = insert key S
  | .add key _, .false, S' => key ∈ S ∧ S' = S
  | .remove key, .true, S' => key ∈ S ∧ S' = S \ {key}
  | .remove key, .false, S' => key ∉ S ∧ S' = S
  | .contains key, .true, S' => key ∈ S ∧ S' = S
  | .contains key, .false, S' => key ∉ S ∧ S' = S
  | _, .abortFailure, _ => False

/-- The answer the call is going to give. -/
def Pc.decided : Pc → Option Result
  | .readSucc _ _ | .unlink _ _ _ => some .true
  | .unlockPred _ _ result | .unlockRunner _ result => result
  | _ => none

/-- What an access does to the keys, from `S` to `S'`, and to the answer. -/
inductive Decision (S S' : Set Int) (op : Op) (pc : Pc) : Outcome → Prop
  | going {pc' : Pc} (hkeys : S' = S) (hd : pc'.decided = pc.decided) :
    Decision S S' op pc (.goto pc')
  | decides {pc' : Pc} {result : Result} (hnone : pc.decided = none)
    (hd : pc'.decided = some result) (hset : op.SetStep S result S') :
    Decision S S' op pc (.goto pc')
  | back {result : Result} (hkeys : S' = S) (hd : pc.decided = some result) :
    Decision S S' op pc (.answer result)
  | gaveUp (hkeys : S' = S) (hnone : pc.decided = none) :
    Decision S S' op pc (.answer .abortFailure)
  | looked {result : Result} (hkeys : S' = S) (hnone : pc.decided = none) (hop : op.reads) :
    Decision S S' op pc (.answer result)

variable {ι : Type} {m m' : Memory ι} {i : ι} {op : Op} {a : Addr} {pc : Pc} {o : Outcome}

theorem Op.start_decided : op.start.decided = none := by
  cases op <;> rfl

/-- **What one access decides.** -/
theorem advance_decision (hs : m.Shape) (hop : op.Plain) (hv : pc.Valid m i op)
    (h : advance m i op pc = some (m', o)) : Decision m.keys m'.keys op pc o := by
  cases pc with
  | readKey runner =>
    cases h
    split <;> exact .going rfl rfl
  | readNext runner =>
    obtain ⟨next, _, he⟩ := Option.map_eq_some_iff.mp h
    cases he
    exact .going rfl rfl
  | compareKey runner =>
    cases h
    split
    · exact .going rfl rfl
    · exact .looked rfl rfl hv.1
  | readMarked runner =>
    cases h
    exact .looked rfl rfl hv.1
  | walkNext pred =>
    obtain ⟨next, _, he⟩ := Option.map_eq_some_iff.mp h
    cases he
    exact .going rfl rfl
  | walkKey pred runner =>
    cases h
    split <;> exact .going rfl rfl
  | lockPred pred runner =>
    simp only [advance] at h
    split at h
    · cases h
      exact .gaveUp rfl rfl
    · cases h
      exact .going (Memory.keys_setLock _) rfl
  | lockRunner pred runner =>
    simp only [advance] at h
    split at h
    · cases h
      exact .going rfl rfl
    · cases h
      exact .going (Memory.keys_setLock _) rfl
  | giveUp pred =>
    cases h
    exact .gaveUp (Memory.keys_setLock _) rfl
  | checkLink pred runner =>
    cases h
    split <;> exact .going rfl rfl
  | checkPred pred runner =>
    cases h
    split <;> exact .going rfl rfl
  | checkRunner pred runner =>
    cases h
    split <;> exact .going rfl rfl
  | decide pred runner =>
    obtain ⟨hnr, hw, hval⟩ := hv
    obtain ⟨hpred, hrunner⟩ := hval.published
    cases op with
    | contains key => exact absurd trivial hnr
    | remove key =>
      cases h
      split
      · exact .going rfl rfl
      · rename_i hne
        refine .decides rfl rfl ⟨?_, rfl⟩
        exact hs.notMem_keys hpred hval.linked hw.low (lt_of_le_of_ne hw.high (Ne.symm hne))
    | add key val =>
      cases h
      split
      · exact .going rfl rfl
      · rename_i heq
        refine .decides rfl rfl ⟨?_, rfl⟩
        exact (hs.mem_keys_iff hop hrunner (not_not.mp heq)).mpr hval.runnerUnmarked
  | mark pred runner =>
    obtain ⟨hrem, _, hval⟩ := hv
    cases h
    have hkey : op.key = m.key runner := by rw [hrem, Op.key]
    rw [hrem]
    refine .decides rfl rfl ⟨?_, Memory.keys_setMarked hs hval⟩
    exact (hs.mem_keys_iff (hkey ▸ hop) hval.published.2 rfl).mpr hval.runnerUnmarked
  | readSucc pred runner =>
    cases h
    exact .going rfl rfl
  | unlink pred runner succ =>
    obtain ⟨_, hw, hu, rfl⟩ := hv
    cases h
    exact .going (Memory.keys_unlink hs (hw.predPublished.reaches hu.predUnmarked) hu.linked
      hu.runnerMarked) rfl
  | create pred runner =>
    cases op with
    | contains key => exact hv.1.elim
    | remove key => exact hv.1.elim
    | add key val =>
      cases h
      exact .going (Memory.keys_create hs key val) rfl
  | setNext pred runner insertion =>
    obtain ⟨_, _, _, _, hpriv, _⟩ := hv
    cases h
    exact .going (Memory.keys_setNext_private hpriv _) rfl
  | link pred runner insertion =>
    obtain ⟨hadd, hw, hval, hne, hpriv, hkey, hn⟩ := hv
    cases op with
    | contains key => exact hadd.elim
    | remove key => exact hadd.elim
    | add key val =>
      cases h
      have hins : m.key insertion = key := hkey
      refine .decides rfl rfl ⟨?_, ?_⟩
      · exact hs.notMem_keys hval.published.1 hval.linked hw.low
          (lt_of_le_of_ne hw.high (Ne.symm hne))
      · rw [Memory.keys_link hs hval hpriv hn (hkey ▸ hw.low) (hkey ▸ hop), hins]
  | unlockPred pred runner result =>
    cases h
    exact .going (Memory.keys_setLock _) rfl
  | unlockRunner runner result =>
    cases h
    cases result with
    | some result => exact .back (Memory.keys_setLock _) rfl
    | none => exact .going (Memory.keys_setLock _) Op.start_decided

/-! ## Accesses that change no link and no mark -/

/-- Up to here the call has changed no link and no mark, if `ABORT_FAILURE` may
still be its answer. -/
def Pc.untouched : Pc → Prop
  | .readSucc _ _ | .unlink _ _ _ | .setNext _ _ _ | .link _ _ _ => False
  | .unlockPred _ _ result | .unlockRunner _ result => result = none
  | _ => True

def Outcome.untouched : Outcome → Prop
  | .goto pc => pc.untouched
  | .answer result => result = .abortFailure

/-- An access after which nothing has been touched touches nothing. -/
theorem advance_untouched (h : advance m i op pc = some (m', o)) (ho : o.untouched)
    (hv : pc.Valid m i op) : pc.untouched ∧ m'.next = m.next ∧ m'.marked = m.marked := by
  cases pc with
  | readNext runner =>
    obtain ⟨next, _, he⟩ := Option.map_eq_some_iff.mp h
    cases he
    exact ⟨trivial, rfl, rfl⟩
  | walkNext pred =>
    obtain ⟨next, _, he⟩ := Option.map_eq_some_iff.mp h
    cases he
    exact ⟨trivial, rfl, rfl⟩
  | lockPred pred runner =>
    simp only [advance] at h
    split at h
    · cases h
      exact ⟨trivial, rfl, rfl⟩
    · cases h
      exact ⟨trivial, Memory.next_setLock _ _ _, Memory.marked_setLock _ _ _⟩
  | lockRunner pred runner =>
    simp only [advance] at h
    split at h
    · cases h
      exact ⟨trivial, rfl, rfl⟩
    · cases h
      exact ⟨trivial, Memory.next_setLock _ _ _, Memory.marked_setLock _ _ _⟩
  | giveUp pred =>
    cases h
    exact ⟨trivial, Memory.next_setLock _ _ _, Memory.marked_setLock _ _ _⟩
  | decide pred runner =>
    cases op with
    | contains key => cases h
    | remove key => cases h; exact ⟨trivial, rfl, rfl⟩
    | add key val => cases h; exact ⟨trivial, rfl, rfl⟩
  | create pred runner =>
    cases op with
    | contains key => cases h
    | remove key => cases h
    | add key val => cases h; exact ho.elim
  | mark pred runner => cases h; exact ho.elim
  | readSucc pred runner => cases h; exact ho.elim
  | unlink pred runner succ => cases h; cases ho
  | setNext pred runner insertion => cases h; exact ho.elim
  | link pred runner insertion => cases h; cases ho
  | unlockPred pred runner result =>
    cases h
    exact ⟨ho, Memory.next_setLock _ _ _, Memory.marked_setLock _ _ _⟩
  | unlockRunner runner result =>
    cases h
    cases result with
    | some result => exact absurd (congrArg some ho) hv.2.2
    | none => exact ⟨rfl, Memory.next_setLock _ _ _, Memory.marked_setLock _ _ _⟩
  | readKey runner => cases h; exact ⟨trivial, rfl, rfl⟩
  | compareKey runner => cases h; exact ⟨trivial, rfl, rfl⟩
  | readMarked runner => cases h; exact ⟨trivial, rfl, rfl⟩
  | walkKey pred runner => cases h; exact ⟨trivial, rfl, rfl⟩
  | checkLink pred runner => cases h; exact ⟨trivial, rfl, rfl⟩
  | checkPred pred runner => cases h; exact ⟨trivial, rfl, rfl⟩
  | checkRunner pred runner => cases h; exact ⟨trivial, rfl, rfl⟩

end ConcurrentComputing.LazyList
