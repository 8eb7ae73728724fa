import ConcurrentComputing.LazyListMemory

/-! # Threads on the list

What a thread knows at each of its control points, whatever the others do: the
nodes it has found are published, those it has locked and checked stay as it found
them, and one it has made is known to no other. -/

namespace ConcurrentComputing.LazyList

open Function Runs SortedChain

variable {ι : Type} {m m' : Memory ι} {i : ι} {op : Op} {a : Addr}

def Op.reads : Op → Prop
  | .contains _ => True
  | .add _ _ | .remove _ => False

def Op.adds : Op → Prop
  | .add _ _ => True
  | .remove _ | .contains _ => False

/-- The nodes made and not linked yet. -/
def Pc.owns : Pc → Set Addr
  | .setNext _ _ insertion | .link _ _ insertion => {insertion}
  | _ => ∅

/-- The nodes locked. -/
def Pc.holds : Pc → Set Addr
  | .lockRunner pred _ | .giveUp pred => {pred}
  | .checkLink pred runner | .checkPred pred runner | .checkRunner pred runner
  | .decide pred runner | .mark pred runner | .readSucc pred runner | .unlink pred runner _
  | .create pred runner | .setNext pred runner _ | .link pred runner _
  | .unlockPred pred runner _ => {pred, runner}
  | .unlockRunner runner _ => {runner}
  | _ => ∅

namespace Memory

/-- Two published nodes with the key above the first and not above the second. -/
structure Window (m : Memory ι) (k : Int) (pred runner : Addr) : Prop where
  predPublished : m.Published pred
  runnerPublished : m.Published runner
  low : m.key pred < k
  high : k ≤ m.key runner

/-- The second of two neighbours is marked, and the first still points to it. -/
structure Unlinking (m : Memory ι) (i : ι) (pred runner : Addr) : Prop where
  predLock : m.lock pred = some i
  runnerLock : m.lock runner = some i
  linked : m.next pred = some runner
  predUnmarked : m.marked pred = false
  runnerMarked : m.marked runner = true

end Memory

/-- What holds at a control point. -/
def Pc.Valid (m : Memory ι) (i : ι) (op : Op) : Pc → Prop
  | .readKey runner => op.reads ∧ m.Published runner
  | .readNext runner => op.reads ∧ m.Published runner ∧ m.key runner < op.key
  | .compareKey runner => op.reads ∧ m.Published runner ∧ op.key ≤ m.key runner
  | .readMarked runner => op.reads ∧ m.Published runner ∧ m.key runner = op.key
  | .walkNext pred => ¬ op.reads ∧ m.Published pred ∧ m.key pred < op.key
  | .walkKey pred runner =>
    ¬ op.reads ∧ m.Published pred ∧ m.Published runner ∧ m.key pred < op.key
  | .lockPred pred runner => ¬ op.reads ∧ m.Window op.key pred runner
  | .lockRunner pred runner => ¬ op.reads ∧ m.Window op.key pred runner ∧ m.lock pred = some i
  | .giveUp pred => ¬ op.reads ∧ m.lock pred = some i
  | .checkLink pred runner =>
    ¬ op.reads ∧ m.Window op.key pred runner ∧ m.lock pred = some i ∧ m.lock runner = some i
  | .checkPred pred runner =>
    ¬ op.reads ∧ m.Window op.key pred runner ∧ m.lock pred = some i ∧ m.lock runner = some i ∧
      m.next pred = some runner
  | .checkRunner pred runner =>
    ¬ op.reads ∧ m.Window op.key pred runner ∧ m.lock pred = some i ∧ m.lock runner = some i ∧
      m.next pred = some runner ∧ m.marked pred = false
  | .decide pred runner =>
    ¬ op.reads ∧ m.Window op.key pred runner ∧ m.Validated i pred runner
  | .mark pred runner =>
    op = .remove (m.key runner) ∧ m.Window op.key pred runner ∧ m.Validated i pred runner
  | .readSucc pred runner =>
    op = .remove (m.key runner) ∧ m.Window op.key pred runner ∧ m.Unlinking i pred runner
  | .unlink pred runner succ =>
    op = .remove (m.key runner) ∧ m.Window op.key pred runner ∧ m.Unlinking i pred runner ∧
      succ = m.next runner
  | .create pred runner =>
    op.adds ∧ m.Window op.key pred runner ∧ m.Validated i pred runner ∧ m.key runner ≠ op.key
  | .setNext pred runner insertion =>
    op.adds ∧ m.Window op.key pred runner ∧ m.Validated i pred runner ∧
      m.key runner ≠ op.key ∧ m.Private insertion ∧ m.key insertion = op.key
  | .link pred runner insertion =>
    op.adds ∧ m.Window op.key pred runner ∧ m.Validated i pred runner ∧
      m.key runner ≠ op.key ∧ m.Private insertion ∧ m.key insertion = op.key ∧
      m.next insertion = some runner
  | .unlockPred pred runner result =>
    ¬ op.reads ∧ m.lock pred = some i ∧ m.lock runner = some i ∧ pred ≠ runner ∧
      result ≠ some .abortFailure
  | .unlockRunner runner result =>
    ¬ op.reads ∧ m.lock runner = some i ∧ result ≠ some .abortFailure

namespace Memory

variable {O : Set Addr} {k : Int} {pred runner : Addr}

theorem Stable.published_key (h : Stable i O m m') (hs : m.Shape) (ha : m.Published a) :
    m'.Published a ∧ m'.key a = m.key a :=
  ⟨h.published a ha, h.key a (hs.published_lt ha)⟩

theorem Window.stable (hw : m.Window k pred runner) (h : Stable i O m m') (hs : m.Shape) :
    m'.Window k pred runner := by
  obtain ⟨hp, hpk⟩ := h.published_key hs hw.predPublished
  obtain ⟨hr, hrk⟩ := h.published_key hs hw.runnerPublished
  exact ⟨hp, hr, hpk ▸ hw.low, hrk ▸ hw.high⟩

theorem Validated.stable (hv : m.Validated i pred runner) (h : Stable i O m m') :
    m'.Validated i pred runner where
  predLock := h.lock _ hv.predLock
  runnerLock := h.lock _ hv.runnerLock
  linked := (h.next _ hv.predLock hv.predPublished).trans hv.linked
  predUnmarked := (h.marked _ hv.predLock).trans hv.predUnmarked
  runnerUnmarked := (h.marked _ hv.runnerLock).trans hv.runnerUnmarked
  predPublished := h.published _ hv.predPublished

theorem Unlinking.stable (hu : m.Unlinking i pred runner) (h : Stable i O m m')
    (hp : m.Published pred) : m'.Unlinking i pred runner where
  predLock := h.lock _ hu.predLock
  runnerLock := h.lock _ hu.runnerLock
  linked := (h.next _ hu.predLock hp).trans hu.linked
  predUnmarked := (h.marked _ hu.predLock).trans hu.predUnmarked
  runnerMarked := (h.marked _ hu.runnerLock).trans hu.runnerMarked

theorem Window.ne (hw : m.Window k pred runner) : pred ≠ runner := by
  rintro rfl
  exact absurd hw.high (not_le.mpr hw.low)

end Memory

/-- What a thread knows survives the steps of the others. -/
theorem Pc.Valid.stable {pc : Pc} (hv : pc.Valid m i op) (h : m.Stable i pc.owns m')
    (hs : m.Shape) : pc.Valid m' i op := by
  cases pc with
  | readKey runner => exact ⟨hv.1, h.published _ hv.2⟩
  | readNext runner =>
    obtain ⟨hop, hp, hk⟩ := hv
    obtain ⟨hp', hk'⟩ := h.published_key hs hp
    exact ⟨hop, hp', hk' ▸ hk⟩
  | compareKey runner =>
    obtain ⟨hop, hp, hk⟩ := hv
    obtain ⟨hp', hk'⟩ := h.published_key hs hp
    exact ⟨hop, hp', hk' ▸ hk⟩
  | readMarked runner =>
    obtain ⟨hop, hp, hk⟩ := hv
    obtain ⟨hp', hk'⟩ := h.published_key hs hp
    exact ⟨hop, hp', hk'.trans hk⟩
  | walkNext pred =>
    obtain ⟨hop, hp, hk⟩ := hv
    obtain ⟨hp', hk'⟩ := h.published_key hs hp
    exact ⟨hop, hp', hk' ▸ hk⟩
  | walkKey pred runner =>
    obtain ⟨hop, hp, hr, hk⟩ := hv
    obtain ⟨hp', hk'⟩ := h.published_key hs hp
    exact ⟨hop, hp', h.published _ hr, hk' ▸ hk⟩
  | lockPred pred runner => exact ⟨hv.1, hv.2.stable h hs⟩
  | lockRunner pred runner => exact ⟨hv.1, hv.2.1.stable h hs, h.lock _ hv.2.2⟩
  | giveUp pred => exact ⟨hv.1, h.lock _ hv.2⟩
  | checkLink pred runner =>
    obtain ⟨hop, hw, hp, hr⟩ := hv
    exact ⟨hop, hw.stable h hs, h.lock _ hp, h.lock _ hr⟩
  | checkPred pred runner =>
    obtain ⟨hop, hw, hp, hr, hn⟩ := hv
    exact ⟨hop, hw.stable h hs, h.lock _ hp, h.lock _ hr, (h.next _ hp hw.predPublished).trans hn⟩
  | checkRunner pred runner =>
    obtain ⟨hop, hw, hp, hr, hn, hm⟩ := hv
    exact ⟨hop, hw.stable h hs, h.lock _ hp, h.lock _ hr, (h.next _ hp hw.predPublished).trans hn,
      (h.marked _ hp).trans hm⟩
  | decide pred runner => exact ⟨hv.1, hv.2.1.stable h hs, hv.2.2.stable h⟩
  | mark pred runner =>
    obtain ⟨hop, hw, hval⟩ := hv
    rw [Pc.Valid, (h.published_key hs hw.runnerPublished).2]
    exact ⟨hop, hw.stable h hs, hval.stable h⟩
  | readSucc pred runner =>
    obtain ⟨hop, hw, hu⟩ := hv
    rw [Pc.Valid, (h.published_key hs hw.runnerPublished).2]
    exact ⟨hop, hw.stable h hs, hu.stable h hw.predPublished⟩
  | unlink pred runner succ =>
    obtain ⟨hop, hw, hu, hn⟩ := hv
    rw [Pc.Valid, (h.published_key hs hw.runnerPublished).2, h.next _ hu.runnerLock hw.runnerPublished]
    exact ⟨hop, hw.stable h hs, hu.stable h hw.predPublished, hn⟩
  | create pred runner =>
    obtain ⟨hop, hw, hval, hk⟩ := hv
    rw [Pc.Valid, (h.published_key hs hw.runnerPublished).2]
    exact ⟨hop, hw.stable h hs, hval.stable h, hk⟩
  | setNext pred runner insertion =>
    obtain ⟨hop, hw, hval, hk, hpriv, hik⟩ := hv
    rw [Pc.Valid, (h.published_key hs hw.runnerPublished).2, h.key _ hpriv.old]
    exact ⟨hop, hw.stable h hs, hval.stable h, hk, (h.priv _ rfl hpriv).1, hik⟩
  | link pred runner insertion =>
    obtain ⟨hop, hw, hval, hk, hpriv, hik, hn⟩ := hv
    obtain ⟨hpriv', hn'⟩ := h.priv _ rfl hpriv
    rw [Pc.Valid, (h.published_key hs hw.runnerPublished).2, h.key _ hpriv.old, hn']
    exact ⟨hop, hw.stable h hs, hval.stable h, hk, hpriv', hik, hn⟩
  | unlockPred pred runner result =>
    obtain ⟨hop, hp, hr, hne⟩ := hv
    exact ⟨hop, h.lock _ hp, h.lock _ hr, hne⟩
  | unlockRunner runner result => exact ⟨hv.1, h.lock _ hv.2.1, hv.2.2⟩

/-! ## One access -/

def Outcome.Valid (m : Memory ι) (i : ι) (op : Op) : Outcome → Prop
  | .goto pc => pc.Valid m i op
  | .answer result => result = .abortFailure → ¬ op.reads

def Outcome.owns : Outcome → Set Addr
  | .goto pc => pc.owns
  | .answer _ => ∅

def Outcome.holds : Outcome → Set Addr
  | .goto pc => pc.holds
  | .answer _ => ∅

/-- What an access of thread `i` does. -/
structure Advanced (m : Memory ι) (i : ι) (op : Op) (pc : Pc) (m' : Memory ι) (o : Outcome) :
    Prop where
  effect : m.Effect i pc.owns m'
  valid : o.Valid m' i op
  owns : ∀ a ∈ o.owns, a ∈ pc.owns ∨ a = m.fresh
  holds : ∀ a, m'.lock a = some i → a ∈ o.holds

variable {pc : Pc} {o : Outcome} {pred runner : Addr}

/-- An access that only reads. -/
theorem Advanced.same (hheld : ∀ a, m.lock a = some i → a ∈ pc.holds) (hv : o.Valid m i op)
    (howns : o.owns = ∅) (hholds : pc.holds ⊆ o.holds) : Advanced m i op pc m o where
  effect := .same
  valid := hv
  owns a ha := by
    rw [howns] at ha
    cases ha
  holds a ha := hholds (hheld a ha)

theorem Advanced.lock (hheld : ∀ a, m.lock a = some i → a ∈ pc.holds) (hfree : m.lock a = none)
    (hpub : m.Published a) (hv : o.Valid (m.setLock a (some i)) i op) (howns : o.owns = ∅)
    (hholds : insert a pc.holds ⊆ o.holds) : Advanced m i op pc (m.setLock a (some i)) o where
  effect := .lock hfree hpub
  valid := hv
  owns b hb := by
    rw [howns] at hb
    cases hb
  holds b hb := by
    rw [Memory.lock_setLock, update_apply] at hb
    split at hb
    · rename_i he
      exact hholds (Or.inl he)
    · exact hholds (Or.inr (hheld b hb))

theorem Advanced.unlock (hheld : ∀ a, m.lock a = some i → a ∈ pc.holds) (hown : m.lock a = some i)
    (hv : o.Valid (m.setLock a none) i op) (howns : o.owns = ∅)
    (hholds : pc.holds \ {a} ⊆ o.holds) : Advanced m i op pc (m.setLock a none) o where
  effect := .unlock hown
  valid := hv
  owns b hb := by
    rw [howns] at hb
    cases hb
  holds b hb := by
    rw [Memory.lock_setLock, update_apply] at hb
    split at hb
    · cases hb
    · rename_i hne
      exact hholds ⟨hheld b hb, hne⟩

theorem published_head : m.Published head := Or.inl .refl

namespace Memory

variable {O : Set Addr} {k v : Int}

/-- No access closes the window a thread has found. -/
theorem Window.effect (hw : m.Window k pred runner) (h : m.Effect i O m') (hs : m.Shape) :
    m'.Window k pred runner := by
  have hp := h.key (hs.published_lt hw.predPublished)
  have hr := h.key (hs.published_lt hw.runnerPublished)
  exact ⟨h.published hs hw.predPublished, h.published hs hw.runnerPublished,
    by rw [hp]; exact hw.low, by rw [hr]; exact hw.high⟩

/-- A validated node that is marked is one to unlink. -/
theorem Validated.mark (hv : m.Validated i pred runner) (hne : pred ≠ runner) :
    (m.setMarked runner).Unlinking i pred runner where
  predLock := by rw [lock_setMarked]; exact hv.predLock
  runnerLock := by rw [lock_setMarked]; exact hv.runnerLock
  linked := by rw [next_setMarked]; exact hv.linked
  predUnmarked := by rw [marked_setMarked, update_of_ne hne]; exact hv.predUnmarked
  runnerMarked := by rw [marked_setMarked, update_self]

/-- A new node is neither of the two that are locked. -/
theorem Validated.create (hv : m.Validated i pred runner) (hs : m.Shape)
    (hpub : m.Published runner) : (m.create k v).Validated i pred runner := by
  have hp := (hs.published_lt hv.predPublished).ne
  have hr := (hs.published_lt hpub).ne
  have heff : m.Effect i ∅ (m.create k v) := .create
  refine ⟨?_, ?_, ?_, ?_, ?_, heff.published hs hv.predPublished⟩
  · rw [lock_create, update_of_ne hp]; exact hv.predLock
  · rw [lock_create, update_of_ne hr]; exact hv.runnerLock
  · rw [next_create, update_of_ne hp]; exact hv.linked
  · rw [marked_create, update_of_ne hp]; exact hv.predUnmarked
  · rw [marked_create, update_of_ne hr]; exact hv.runnerUnmarked

theorem Private.create (hs : m.Shape) : (m.create k v).Private m.fresh := by
  refine ⟨Nat.lt_succ_self _, hs.headOld.ne', ?_, fun b hb => ?_⟩
  · rw [marked_create, update_self]
  · rw [next_create, update_apply] at hb
    split at hb
    · cases hb
    · exact lt_irrefl _ (hs.pointed _ _ hb)

/-- A pointer of a private node is no pointer of the two that are locked. -/
theorem Validated.setNext (hv : m.Validated i pred runner) (ha : m.Private a) {x : Option Addr}
    (heff : m.Effect i O (m.setNext a x)) (hs : m.Shape) :
    (m.setNext a x).Validated i pred runner := by
  have hp : pred ≠ a := fun he => ha.not_published (he ▸ hv.predPublished)
  refine ⟨?_, ?_, ?_, ?_, ?_, heff.published hs hv.predPublished⟩
  · rw [lock_setNext]; exact hv.predLock
  · rw [lock_setNext]; exact hv.runnerLock
  · rw [next_setNext, update_of_ne hp]; exact hv.linked
  · rw [marked_setNext]; exact hv.predUnmarked
  · rw [marked_setNext]; exact hv.runnerUnmarked

theorem Private.setNext (ha : m.Private a) (hpub : m.Published runner) :
    (m.setNext a (some runner)).Private a := by
  refine ⟨ha.old, ha.ne_head, ?_, fun b => ?_⟩
  · rw [marked_setNext]; exact ha.unmarked
  · rw [next_setNext, update_apply]
    split
    · intro he
      exact ha.not_published (Option.some.inj he ▸ hpub)
    · exact ha.unlinked b

end Memory

theorem Op.start_valid (hs : m.Shape) (hop : intMin < op.key) : op.start.Valid m i op := by
  have hlow : m.key head < op.key := hs.headKey.symm ▸ hop
  cases op with
  | contains key => exact ⟨trivial, published_head⟩
  | add key val => exact ⟨id, published_head, hlow⟩
  | remove key => exact ⟨id, published_head, hlow⟩

theorem Outcome.Valid.answer {result : Result} (h : result ≠ .abortFailure) :
    Outcome.Valid m i op (.answer result) := fun he => absurd he h

/-- **One access** of a thread that knows what it should. -/
theorem advance_spec (hs : m.Shape) (hop : intMin < op.key ∧ op.key < intMax)
    (hv : pc.Valid m i op) (hheld : ∀ a, m.lock a = some i → a ∈ pc.holds)
    (h : advance m i op pc = some (m', o)) : Advanced m i op pc m' o := by
  cases pc with
  | readKey runner =>
    cases h
    split
    · rename_i hlt
      exact .same hheld ⟨hv.1, hv.2, hlt⟩ rfl subset_rfl
    · rename_i hge
      exact .same hheld ⟨hv.1, hv.2, not_lt.mp hge⟩ rfl subset_rfl
  | readNext runner =>
    obtain ⟨next, hn, he⟩ := Option.map_eq_some_iff.mp h
    cases he
    exact .same hheld ⟨hv.1, hs.closed _ _ hv.2.1 hn⟩ rfl subset_rfl
  | compareKey runner =>
    cases h
    split
    · rename_i heq
      exact .same hheld ⟨hv.1, hv.2.1, heq⟩ rfl subset_rfl
    · exact .same hheld (.answer (by decide)) rfl subset_rfl
  | readMarked runner =>
    cases h
    refine .same hheld ?_ rfl subset_rfl
    split <;> exact .answer (by decide)
  | walkNext pred =>
    obtain ⟨next, hn, he⟩ := Option.map_eq_some_iff.mp h
    cases he
    exact .same hheld ⟨hv.1, hv.2.1, hs.closed _ _ hv.2.1 hn, hv.2.2⟩ rfl subset_rfl
  | walkKey pred runner =>
    obtain ⟨hnr, hp, hr, hlow⟩ := hv
    cases h
    split
    · rename_i hlt
      exact .same hheld ⟨hnr, hr, hlt⟩ rfl subset_rfl
    · rename_i hge
      exact .same hheld ⟨hnr, hp, hr, hlow, not_lt.mp hge⟩ rfl subset_rfl
  | lockPred pred runner =>
    simp only [advance] at h
    split at h
    · cases h
      exact .same hheld (fun _ => hv.1) rfl subset_rfl
    · rename_i hfree
      cases h
      have hw := hv.2.effect (.lock (i := i) (O := ∅) hfree hv.2.predPublished) hs
      refine .lock hheld hfree hv.2.predPublished ⟨hv.1, hw, ?_⟩ rfl ?_
      · rw [Memory.lock_setLock, update_self]
      · exact subset_of_eq (insert_empty_eq pred)
  | lockRunner pred runner =>
    obtain ⟨hnr, hw, hlock⟩ := hv
    simp only [advance] at h
    split at h
    · cases h
      exact .same hheld ⟨hnr, hlock⟩ rfl subset_rfl
    · rename_i hfree
      cases h
      have hw' := hw.effect (.lock (i := i) (O := ∅) hfree hw.runnerPublished) hs
      refine .lock hheld hfree hw.runnerPublished ⟨hnr, hw', ?_, ?_⟩ rfl ?_
      · rwa [Memory.lock_setLock, update_of_ne hw.ne]
      · rw [Memory.lock_setLock, update_self]
      · exact subset_of_eq (Set.pair_comm runner pred)
  | giveUp pred =>
    cases h
    exact .unlock hheld hv.2 (fun _ => hv.1) rfl fun a ha => absurd ha.1 ha.2
  | checkLink pred runner =>
    obtain ⟨hnr, hw, hp, hr⟩ := hv
    cases h
    split
    · rename_i hn
      exact .same hheld ⟨hnr, hw, hp, hr, hn⟩ rfl subset_rfl
    · exact .same hheld ⟨hnr, hp, hr, hw.ne, by decide⟩ rfl subset_rfl
  | checkPred pred runner =>
    obtain ⟨hnr, hw, hp, hr, hn⟩ := hv
    cases h
    split
    · exact .same hheld ⟨hnr, hp, hr, hw.ne, by decide⟩ rfl subset_rfl
    · rename_i hm
      exact .same hheld ⟨hnr, hw, hp, hr, hn, Bool.eq_false_iff.mpr hm⟩ rfl subset_rfl
  | checkRunner pred runner =>
    obtain ⟨hnr, hw, hp, hr, hn, hpm⟩ := hv
    cases h
    split
    · exact .same hheld ⟨hnr, hp, hr, hw.ne, by decide⟩ rfl subset_rfl
    · rename_i hm
      exact .same hheld ⟨hnr, hw, hp, hr, hn, hpm, Bool.eq_false_iff.mpr hm, hw.predPublished⟩
        rfl subset_rfl
  | decide pred runner =>
    obtain ⟨hnr, hw, hval⟩ := hv
    have hno : Pc.Valid m i op (.unlockPred pred runner (some .false)) :=
      ⟨hnr, hval.predLock, hval.runnerLock, hw.ne, by decide⟩
    cases op with
    | contains key => exact absurd trivial hnr
    | remove key =>
      cases h
      split
      · rename_i heq
        exact .same hheld ⟨congrArg Op.remove heq.symm, hw, hval⟩ rfl subset_rfl
      · exact .same hheld hno rfl subset_rfl
    | add key val =>
      cases h
      split
      · rename_i hne
        exact .same hheld ⟨trivial, hw, hval, hne⟩ rfl subset_rfl
      · exact .same hheld hno rfl subset_rfl
  | mark pred runner =>
    obtain ⟨hrem, hw, hval⟩ := hv
    cases h
    have hw' := hw.effect (.mark (O := ∅) hval) hs
    refine ⟨.mark hval, ⟨?_, hw', hval.mark hw.ne⟩, fun a ha => absurd ha (Set.notMem_empty a), ?_⟩
    · rwa [Memory.key_setMarked]
    · intro a ha
      rw [Memory.lock_setMarked] at ha
      exact hheld a ha
  | readSucc pred runner =>
    cases h
    exact .same hheld ⟨hv.1, hv.2.1, hv.2.2, rfl⟩ rfl subset_rfl
  | unlink pred runner succ =>
    obtain ⟨hrem, hw, hu, rfl⟩ := hv
    cases h
    refine ⟨.unlink hu.predLock hu.linked hu.predUnmarked hw.predPublished hu.runnerMarked ?_,
      ⟨?_, ?_, ?_, hw.ne, by decide⟩, fun a ha => absurd ha (Set.notMem_empty a),
      fun a ha => hheld a (by rwa [Memory.lock_setNext] at ha)⟩
    · rw [hrem] at hop
      exact hop.2
    · rw [hrem]
      exact id
    · rw [Memory.lock_setNext]; exact hu.predLock
    · rw [Memory.lock_setNext]; exact hu.runnerLock
  | create pred runner =>
    obtain ⟨hadd, hw, hval, hne⟩ := hv
    cases op with
    | contains key => exact hadd.elim
    | remove key => exact hadd.elim
    | add key val =>
      cases h
      have hr := (hs.published_lt hw.runnerPublished).ne
      have heff : m.Effect i ∅ (m.create key val) := .create
      refine ⟨heff, ⟨trivial, hw.effect heff hs, hval.create hs hw.runnerPublished, ?_, .create hs, ?_⟩,
        fun a ha => Or.inr ha, fun a ha => ?_⟩
      · rw [Memory.key_create, update_of_ne hr]; exact hne
      · rw [Memory.key_create, update_self, Op.key]
      · rw [Memory.lock_create, update_apply] at ha
        split at ha
        · cases ha
        · exact hheld a ha
  | setNext pred runner insertion =>
    obtain ⟨hadd, hw, hval, hne, hpriv, hkey⟩ := hv
    have hlt : m.key insertion < m.key runner := hkey ▸ lt_of_le_of_ne hw.high hne.symm
    have heff : m.Effect i {insertion} (m.setNext insertion (some runner)) :=
      .setNext rfl hpriv hw.runnerPublished hlt
    cases h
    refine ⟨heff, ⟨hadd, hw.effect heff hs, hval.setNext hpriv heff hs, ?_,
      hpriv.setNext hw.runnerPublished, ?_, ?_⟩, fun a ha => Or.inl ha,
      fun a ha => hheld a (by rwa [Memory.lock_setNext] at ha)⟩
    · rw [Memory.key_setNext]; exact hne
    · rw [Memory.key_setNext]; exact hkey
    · rw [Memory.next_setNext, update_self]
  | link pred runner insertion =>
    obtain ⟨hadd, hw, hval, hne, hpriv, hkey, hn⟩ := hv
    cases h
    refine ⟨.link hval rfl hpriv hn (hkey ▸ hw.low), ⟨?_, ?_, ?_, hw.ne, by decide⟩, fun a ha => absurd ha (Set.notMem_empty a),
      fun a ha => hheld a (by rwa [Memory.lock_setNext] at ha)⟩
    · cases op with
      | add key val => exact id
      | remove key => exact hadd.elim
      | contains key => exact hadd.elim
    · rw [Memory.lock_setNext]; exact hval.predLock
    · rw [Memory.lock_setNext]; exact hval.runnerLock
  | unlockPred pred runner result =>
    obtain ⟨hnr, hp, hr, hne, hres⟩ := hv
    cases h
    refine .unlock hheld hp ⟨hnr, ?_, hres⟩ rfl fun a ha => ?_
    · rwa [Memory.lock_setLock, update_of_ne hne.symm]
    · exact ha.1.resolve_left ha.2
  | unlockRunner runner result =>
    obtain ⟨hnr, hr, hres⟩ := hv
    cases h
    cases result with
    | some result =>
      exact .unlock hheld hr (fun he => absurd (congrArg some he) hres) rfl fun a ha =>
        absurd ha.1 ha.2
    | none =>
      have hshape := (Memory.Effect.unlock (O := ∅) hr).shape hs
      refine .unlock hheld hr (Op.start_valid hshape hop.1) ?_ fun a ha => absurd ha.1 ha.2
      cases op <;> rfl

/-! ## All threads -/

/-- The keys of the calls lie between the sentinels'. -/
def Op.Plain (op : Op) : Prop := intMin < op.key ∧ op.key < intMax

instance (op : Op) : Decidable op.Plain := inferInstanceAs (Decidable (_ ∧ _))

/-- What holds in every state that plain calls lead to. -/
structure Inv (s : State ι) : Prop where
  shape : s.mem.Shape
  plain : ∀ i r, s.thread i = some r → r.call.thread = i ∧ r.call.op.Plain
  valid : ∀ i r, s.thread i = some r → r.pc.Valid s.mem i r.call.op
  distinct : ∀ i j r r', i ≠ j → s.thread i = some r → s.thread j = some r' →
    ∀ a ∈ r.pc.owns, a ∉ r'.pc.owns
  holds : ∀ i a, s.mem.lock a = some i → ∃ r, s.thread i = some r ∧ a ∈ r.pc.holds

variable {s s' : State ι} {r : Running ι}

/-- The nodes a thread has made are private. -/
theorem Pc.Valid.owned {pc : Pc} (hv : pc.Valid m i op) (ha : a ∈ pc.owns) : m.Private a := by
  cases pc with
  | setNext pred runner insertion =>
    rw [show a = insertion from ha]
    exact hv.2.2.2.2.1
  | link pred runner insertion =>
    rw [show a = insertion from ha]
    exact hv.2.2.2.2.1
  | _ => exact absurd ha (Set.notMem_empty a)

theorem Inv.advanced (h : Inv s) (hr : s.thread i = some r)
    (hstep : advance s.mem i r.call.op r.pc = some (m, o)) :
    Advanced s.mem i r.call.op r.pc m o := by
  refine advance_spec h.shape (h.plain i r hr).2 (h.valid i r hr) (fun a ha => ?_) hstep
  obtain ⟨r', hr', hm⟩ := h.holds i a ha
  rw [hr] at hr'
  cases hr'
  exact hm

/-- What the others know survives an access of thread `i`. -/
theorem Inv.other (h : Inv s) {j : ι} (hij : j ≠ i) (hr : s.thread i = some r)
    (ha : Advanced s.mem i r.call.op r.pc m o) {r' : Running ι} (hr' : s.thread j = some r') :
    r'.pc.Valid m j r'.call.op :=
  (h.valid j r' hr').stable (ha.effect.stable h.shape hij
    (h.distinct j i r' r hij hr' hr)) h.shape

variable [DecidableEq ι]

theorem update_thread {thread : ι → Option (Running ι)} {j : ι} {new r' : Running ι}
    (h : update thread i (some new) j = some r') :
    (j = i ∧ r' = new) ∨ (j ≠ i ∧ thread j = some r') := by
  rcases update_cases h with ⟨hji, hr⟩ | hother
  · exact Or.inl ⟨hji, (Option.some.inj hr).symm⟩
  · exact Or.inr hother

theorem goto_thread {j : ι} {r' : Running ι}
    (h : (s.proceed i r m (.goto pc)).thread j = some r') :
    (j = i ∧ r' = ⟨r.call, pc⟩) ∨ (j ≠ i ∧ s.thread j = some r') :=
  update_thread h

theorem answer_thread {j : ι} {r' : Running ι} {result : Result}
    (h : (s.proceed i r m (.answer result)).thread j = some r') :
    j ≠ i ∧ s.thread j = some r' := by
  by_cases hji : j = i
  · subst hji
    simp [State.proceed] at h
  · simp only [State.proceed, update_of_ne hji] at h
    exact ⟨hji, h⟩

/-- **One access** keeps the invariant. -/
theorem Inv.proceed (h : Inv s) (hr : s.thread i = some r)
    (ha : Advanced s.mem i r.call.op r.pc m o) : Inv (s.proceed i r m o) := by
  obtain ⟨hcall, hplain⟩ := h.plain i r hr
  have hshape := ha.effect.shape h.shape
  have hothers : ∀ j b, j ≠ i → m.lock b = some j → ∃ r', s.thread j = some r' ∧ b ∈ r'.pc.holds :=
    fun j b hj hb => h.holds j b ((ha.effect.lock_other h.shape hj).mp hb)
  cases o with
  | goto pc =>
    have hthread : ∀ j r', (s.proceed i r m (.goto pc)).thread j = some r' →
        (j = i ∧ r' = ⟨r.call, pc⟩) ∨ (j ≠ i ∧ s.thread j = some r') := fun _ _ => goto_thread
    -- a new node is nobody else's
    have hnew : ∀ j r', j ≠ i → s.thread j = some r' → ∀ b ∈ pc.owns, b ∉ r'.pc.owns := by
      intro j r' hj hr' b hb hb'
      rcases ha.owns b hb with hold | rfl
      · exact h.distinct i j r r' (Ne.symm hj) hr hr' b hold hb'
      · exact lt_irrefl _ ((h.valid j r' hr').owned hb').old
    refine ⟨hshape, fun j r' hj => ?_, fun j r' hj => ?_, fun j k r₁ r₂ hjk h₁ h₂ => ?_,
      fun j b hb => ?_⟩
    · rcases hthread j r' hj with ⟨rfl, rfl⟩ | ⟨_, hj⟩
      · exact ⟨hcall, hplain⟩
      · exact h.plain j r' hj
    · rcases hthread j r' hj with ⟨rfl, rfl⟩ | ⟨hji, hj⟩
      · exact ha.valid
      · exact h.other hji hr ha hj
    · rcases hthread j r₁ h₁ with ⟨rfl, rfl⟩ | ⟨hj, hj'⟩ <;>
        rcases hthread k r₂ h₂ with ⟨rfl, rfl⟩ | ⟨hk, hk'⟩
      · exact absurd rfl hjk
      · exact hnew k r₂ hk hk'
      · exact fun b hb hb' => hnew j r₁ hj hj' b hb' hb
      · exact h.distinct j k r₁ r₂ hjk hj' hk'
    · by_cases hji : j = i
      · subst hji
        exact ⟨⟨r.call, pc⟩, update_self _ _ _, ha.holds b hb⟩
      · obtain ⟨r', hr', hm⟩ := hothers j b hji hb
        exact ⟨r', (update_of_ne hji _ _).trans hr', hm⟩
  | answer result =>
    have hthread : ∀ j r', (s.proceed i r m (.answer result)).thread j = some r' →
        j ≠ i ∧ s.thread j = some r' := fun _ _ => answer_thread
    refine ⟨hshape, fun j r' hj => h.plain j r' (hthread j r' hj).2, fun j r' hj => ?_,
      fun j k r₁ r₂ hjk h₁ h₂ => ?_, fun j b hb => ?_⟩
    · exact h.other (hthread j r' hj).1 hr ha (hthread j r' hj).2
    · exact h.distinct j k r₁ r₂ hjk (hthread j r₁ h₁).2 (hthread k r₂ h₂).2
    · by_cases hji : j = i
      · subst hji
        exact absurd (ha.holds b hb) (Set.notMem_empty b)
      · obtain ⟨r', hr', hm⟩ := hothers j b hji hb
        exact ⟨r', (update_of_ne hji _ _).trans hr', hm⟩

theorem Inv.call (h : Inv s) (hi : s.thread i = none) (hop : op.Plain) (clock : Nat) :
    Inv { s with
      thread := update s.thread i (some ⟨⟨i, op, s.clock + 1⟩, op.start⟩)
      clock := clock } := by
  have hthread : ∀ j r', update s.thread i (some ⟨⟨i, op, s.clock + 1⟩, op.start⟩) j = some r' →
      (j = i ∧ r' = ⟨⟨i, op, s.clock + 1⟩, op.start⟩) ∨ (j ≠ i ∧ s.thread j = some r') :=
    fun _ _ => update_thread
  have howns : op.start.owns = ∅ := by cases op <;> rfl
  refine ⟨h.shape, fun j r' hj => ?_, fun j r' hj => ?_, fun j k r₁ r₂ hjk h₁ h₂ => ?_,
    fun j b hb => ?_⟩
  · rcases hthread j r' hj with ⟨rfl, rfl⟩ | ⟨_, hj⟩
    · exact ⟨rfl, hop⟩
    · exact h.plain j r' hj
  · rcases hthread j r' hj with ⟨rfl, rfl⟩ | ⟨_, hj⟩
    · exact Op.start_valid h.shape hop.1
    · exact h.valid j r' hj
  · rcases hthread j r₁ h₁ with ⟨rfl, rfl⟩ | ⟨_, h₁⟩ <;>
      rcases hthread k r₂ h₂ with ⟨rfl, rfl⟩ | ⟨_, h₂⟩
    · exact absurd rfl hjk
    · rw [howns]
      exact fun b hb => absurd hb (Set.notMem_empty b)
    · rw [howns]
      exact fun b _ => Set.notMem_empty b
    · exact h.distinct j k r₁ r₂ hjk h₁ h₂
  · obtain ⟨r', hr', hm⟩ := h.holds j b hb
    refine ⟨r', ?_, hm⟩
    have hji : j ≠ i := by
      rintro rfl
      rw [hi] at hr'
      cases hr'
    exact (update_of_ne hji _ _).trans hr'

/-- A step is a call or an access. -/
theorem step_cases {e : Event ι} (h : step s e = some s') :
    (∃ i op, e = .call i op ∧ s.thread i = none ∧ s' = { s with
      thread := update s.thread i (some ⟨⟨i, op, s.clock + 1⟩, op.start⟩)
      clock := s.clock + 1 }) ∨
    ∃ i r m o, e = .next i ∧ s.thread i = some r ∧
      advance s.mem i r.call.op r.pc = some (m, o) ∧ s' = s.proceed i r m o := by
  cases e with
  | call i op =>
    simp only [step] at h
    split at h
    · rename_i hi
      cases h
      exact Or.inl ⟨i, op, rfl, hi, rfl⟩
    · cases h
  | next i =>
    simp only [step] at h
    split at h
    · cases h
    · rename_i r hr
      obtain ⟨⟨m, o⟩, hadv, rfl⟩ := Option.map_eq_some_iff.mp h
      exact Or.inr ⟨i, r, m, o, rfl, hr, hadv, rfl⟩

theorem step_inv {e : Event ι} (hplain : ∀ i op, e = .call i op → op.Plain) (h : Inv s)
    (hs : step s e = some s') : Inv s' := by
  rcases step_cases hs with ⟨i, op, he, hi, rfl⟩ | ⟨i, r, m, o, _, hr, hadv, rfl⟩
  · exact h.call hi (hplain i op he) _
  · exact h.proceed hr (h.advanced hr hadv)

omit [DecidableEq ι] in
theorem Memory.new_spec (a : Addr) : (Memory.new : Memory ι).marked a = false ∧
    (Memory.new : Memory ι).lock a = none ∧
    ((a = head ∧ (Memory.new : Memory ι).key a = intMin ∧ (Memory.new : Memory ι).next a = some 1) ∨
      (a ≠ head ∧ (Memory.new : Memory ι).key a = intMax ∧
        (Memory.new : Memory ι).next a = none)) := by
  simp only [Memory.marked, Memory.lock, Memory.key, Memory.next, Memory.new]
  split
  · rename_i ha
    exact ⟨rfl, rfl, Or.inl ⟨ha, rfl, rfl⟩⟩
  · rename_i ha
    exact ⟨rfl, rfl, Or.inr ⟨ha, rfl, rfl⟩⟩

omit [DecidableEq ι] in
theorem Memory.new_shape : (Memory.new : Memory ι).Shape := by
  have hnext : ∀ a b, (Memory.new : Memory ι).next a = some b → a = head ∧ b = 1 := by
    intro a b hab
    rcases (Memory.new_spec a).2.2 with ⟨ha, _, hn⟩ | ⟨_, _, hn⟩
    · exact ⟨ha, Option.some.inj (hab.symm.trans hn)⟩
    · rw [hn] at hab
      cases hab
  have hkey : ∀ a, (Memory.new : Memory ι).key a = if a = head then intMin else intMax := by
    intro a
    rcases (Memory.new_spec a).2.2 with ⟨ha, hk, _⟩ | ⟨ha, hk, _⟩
    · rw [hk, if_pos ha]
    · rw [hk, if_neg ha]
  refine ⟨fun a b hab => ?_, fun a b _ hab => ?_, fun a _ hn => ?_, ?_, ?_, fun a b hab => ?_,
    fun a ha => ?_, fun a ha => ?_⟩
  · obtain ⟨rfl, rfl⟩ := hnext a b hab
    rw [hkey, hkey]
    decide
  · obtain ⟨rfl, rfl⟩ := hnext a b hab
    exact Or.inl (Reaches.refl.step hab)
  · rcases (Memory.new_spec a).2.2 with ⟨_, _, hs⟩ | ⟨_, hk, _⟩
    · rw [hs] at hn
      cases hn
    · exact hk
  · rw [hkey, if_pos rfl]
  · exact Nat.zero_lt_two
  · rw [(hnext a b hab).2]
    exact Nat.one_lt_two
  · rw [(Memory.new_spec a).1] at ha
    cases ha
  · exact absurd (Memory.new_spec a).2.1 ha

omit [DecidableEq ι] in
theorem start_inv : Inv (start : State ι) where
  shape := Memory.new_shape
  plain _ _ hr := by cases hr
  valid _ _ hr := by cases hr
  distinct _ _ _ _ _ hr := by cases hr
  holds i a ha := by
    have hfree : (Memory.new : Memory ι).lock a = none := (Memory.new_spec a).2.1
    cases hfree.symm.trans ha

theorem run_inv {es : List (Event ι)} (hplain : ∀ i op, .call i op ∈ es → op.Plain)
    (h : exec step start es = some s) : Inv s := by
  refine exec_induction (motive := fun es (s : State ι) =>
    (∀ i op, .call i op ∈ es → op.Plain) → Inv s) (fun _ => start_inv) ?_ h hplain
  intro es u e t _ ih hs hplain
  exact step_inv (fun i op he => hplain i op (by simp [he])) (ih fun i op hm =>
    hplain i op (by simp [hm])) hs

/-- **No step is missing.** A thread in a call can always make its next access: no
traversal follows `NULL`. -/
theorem Inv.can_step (h : Inv s) (hr : s.thread i = some r) : ∃ s', step s (.next i) = some s' := by
  have hadv : (advance s.mem i r.call.op r.pc).isSome = true := by
    have hv := h.valid i r hr
    have hlt := (h.plain i r hr).2.2
    have hnext : ∀ a, s.mem.Published a → s.mem.key a < r.call.op.key →
        (s.mem.next a).isSome = true := by
      intro a hp hk
      rw [Option.isSome_iff_ne_none]
      intro hn
      rw [h.shape.last a hp hn] at hk
      exact absurd hk (not_lt.mpr hlt.le)
    generalize r.pc = pc at hv
    generalize r.call.op = op at hv hnext
    cases pc with
    | readNext runner => simpa [advance] using hnext runner hv.2.1 hv.2.2
    | walkNext pred => simpa [advance] using hnext pred hv.2.1 hv.2.2
    | lockPred pred runner =>
      simp only [advance]
      split <;> rfl
    | lockRunner pred runner =>
      simp only [advance]
      split <;> rfl
    | decide pred runner =>
      cases op with
      | contains key => exact absurd trivial hv.1
      | _ => rfl
    | create pred runner =>
      cases op with
      | add key val => rfl
      | _ => exact hv.1.elim
    | _ => rfl
  obtain ⟨⟨m, o⟩, ho⟩ := Option.isSome_iff_exists.mp hadv
  exact ⟨s.proceed i r m o, by simp only [step, hr, ho, Option.map_some]⟩

end ConcurrentComputing.LazyList
