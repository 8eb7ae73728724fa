import ConcurrentComputing.LazyList
import Mathlib.Data.Set.Insert
import Mathlib.Tactic.Tauto

/-! # What a step does to the list in memory

A node is published once it has been reached from the head, and stays so: it is
reached as long as it is not marked. `Effect` lists what one access can do to the
memory, with what makes it harmless; every effect keeps the shape of the list, and
of a marked node nothing changes any more. -/

namespace ConcurrentComputing.LazyList

open Function SortedChain

namespace Memory

variable {ι : Type} (m : Memory ι) (a : Addr)

section updates

variable (o : Option ι) (x : Option Addr) (k v : Int)

theorem field_update {β : Type} (f : Node ι → β) (node : Node ι) :
    (fun b => f (update m.nodes a node b)) = update (fun b => f (m.nodes b)) a (f node) :=
  comp_update f m.nodes a node

theorem field_same {β : Type} (f : Node ι → β) (node : Node ι) (h : f node = f (m.nodes a)) :
    (fun b => f (update m.nodes a node b)) = fun b => f (m.nodes b) := by
  rw [field_update, h]
  exact update_eq_self a (fun b => f (m.nodes b))

@[simp] theorem key_setLock : (m.setLock a o).key = m.key := field_same m a Node.key _ rfl
@[simp] theorem marked_setLock : (m.setLock a o).marked = m.marked :=
  field_same m a Node.marked _ rfl
@[simp] theorem next_setLock : (m.setLock a o).next = m.next := field_same m a Node.next _ rfl
@[simp] theorem lock_setLock : (m.setLock a o).lock = update m.lock a o :=
  field_update m a Node.lock _
@[simp] theorem fresh_setLock : (m.setLock a o).fresh = m.fresh := rfl

@[simp] theorem key_setMarked : (m.setMarked a).key = m.key := field_same m a Node.key _ rfl
@[simp] theorem marked_setMarked : (m.setMarked a).marked = update m.marked a true :=
  field_update m a Node.marked _
@[simp] theorem next_setMarked : (m.setMarked a).next = m.next := field_same m a Node.next _ rfl
@[simp] theorem lock_setMarked : (m.setMarked a).lock = m.lock := field_same m a Node.lock _ rfl
@[simp] theorem fresh_setMarked : (m.setMarked a).fresh = m.fresh := rfl

@[simp] theorem key_setNext : (m.setNext a x).key = m.key := field_same m a Node.key _ rfl
@[simp] theorem marked_setNext : (m.setNext a x).marked = m.marked :=
  field_same m a Node.marked _ rfl
@[simp] theorem next_setNext : (m.setNext a x).next = update m.next a x :=
  field_update m a Node.next _
@[simp] theorem lock_setNext : (m.setNext a x).lock = m.lock := field_same m a Node.lock _ rfl
@[simp] theorem fresh_setNext : (m.setNext a x).fresh = m.fresh := rfl

@[simp] theorem key_create : (m.create k v).key = update m.key m.fresh k :=
  field_update m m.fresh Node.key _
@[simp] theorem marked_create : (m.create k v).marked = update m.marked m.fresh false :=
  field_update m m.fresh Node.marked _
@[simp] theorem next_create : (m.create k v).next = update m.next m.fresh none :=
  field_update m m.fresh Node.next _
@[simp] theorem lock_create : (m.create k v).lock = update m.lock m.fresh none :=
  field_update m m.fresh Node.lock _
@[simp] theorem fresh_create : (m.create k v).fresh = m.fresh + 1 := rfl

end updates

/-- Reached from the head, or once reached and marked. -/
def Published : Prop := Reaches m.next head a ∨ m.marked a = true

/-- A node no pointer leads to yet. -/
structure Private : Prop where
  old : a < m.fresh
  ne_head : a ≠ head
  unmarked : m.marked a = false
  unlinked : ∀ b, m.next b ≠ some a

/-- The keys of the list: those of its unmarked nodes between the two sentinels. -/
def keys : Set Int :=
  {k | intMin < k ∧ k < intMax ∧ ∃ a, Reaches m.next head a ∧ m.marked a = false ∧ m.key a = k}

/-- What holds of the list at any time. -/
structure Shape : Prop where
  ascending : Ascending m.next m.key
  closed : ∀ a b, m.Published a → m.next a = some b → m.Published b
  last : ∀ a, m.Published a → m.next a = none → m.key a = intMax
  headKey : m.key head = intMin
  headOld : head < m.fresh
  pointed : ∀ a b, m.next a = some b → b < m.fresh
  marked : ∀ a, m.marked a = true → a < m.fresh
  locked : ∀ a, m.lock a ≠ none → a < m.fresh

/-- Two nodes next to each other that thread `i` has locked and found linked and
unmarked. -/
structure Validated (i : ι) (pred runner : Addr) : Prop where
  predLock : m.lock pred = some i
  runnerLock : m.lock runner = some i
  linked : m.next pred = some runner
  predUnmarked : m.marked pred = false
  runnerUnmarked : m.marked runner = false
  predPublished : m.Published pred

variable {m} {a} {b : Addr} {k : Int}

theorem Published.reaches (h : m.Published a) (hm : m.marked a = false) : Reaches m.next head a := by
  rcases h with h | h
  · exact h
  · rw [hm] at h
    cases h

theorem Shape.published_lt (h : m.Shape) (ha : m.Published a) : a < m.fresh := by
  rcases ha with ha | ha
  · rcases Relation.ReflTransGen.cases_tail ha with he | ⟨b, _, hb⟩
    · exact he ▸ h.headOld
    · exact h.pointed b a hb
  · exact h.marked a ha

theorem Private.not_published (h : m.Private a) : ¬ m.Published a := by
  intro hp
  rcases Relation.ReflTransGen.cases_tail (hp.reaches h.unmarked) with he | ⟨b, _, hb⟩
  · exact h.ne_head he
  · exact h.unlinked b hb

theorem Validated.published {i : ι} {pred runner : Addr} (h : m.Validated i pred runner) :
    Reaches m.next head pred ∧ Reaches m.next head runner := by
  have hp := h.predPublished.reaches h.predUnmarked
  exact ⟨hp, hp.step h.linked⟩

/-- The unmarked node with a key of the list is the only node of the chain with
it. -/
theorem Shape.mem_keys_iff (h : m.Shape) (hk : intMin < k ∧ k < intMax)
    (ha : Reaches m.next head a) (hak : m.key a = k) : k ∈ m.keys ↔ m.marked a = false := by
  refine ⟨fun ⟨_, _, b, hb, hbm, hbk⟩ => ?_, fun hm => ⟨hk.1, hk.2, a, ha, hm, hak⟩⟩
  rwa [h.ascending.key_inj ha hb (hak.trans hbk.symm)]

/-- A key between those of two neighbours is not in the list. -/
theorem Shape.notMem_keys (h : m.Shape) (ha : Reaches m.next head a) (hab : m.next a = some b)
    (hlt : m.key a < k) (hgt : k < m.key b) : k ∉ m.keys := by
  intro ⟨_, _, c, hc, _, hck⟩
  rcases h.ascending.gap ha hab hc with hle | hle
  · exact absurd (hck ▸ hle) (not_le.mpr hlt)
  · exact absurd (hck ▸ hle) (not_le.mpr hgt)

/-! ## The effects -/

/-- What thread `i`, with the private nodes `O`, can do to the memory in one
access. -/
inductive Effect (i : ι) (O : Set Addr) (m : Memory ι) : Memory ι → Prop
  | same : Effect i O m m
  | lock {node : Addr} (hfree : m.lock node = none) (hpub : m.Published node) :
    Effect i O m (m.setLock node (some i))
  | unlock {node : Addr} (hown : m.lock node = some i) : Effect i O m (m.setLock node none)
  | mark {pred runner : Addr} (hv : m.Validated i pred runner) : Effect i O m (m.setMarked runner)
  | unlink {pred runner : Addr} (hlock : m.lock pred = some i) (hlinked : m.next pred = some runner)
    (hunmarked : m.marked pred = false) (hpub : m.Published pred)
    (hmarked : m.marked runner = true) (hkey : m.key runner < intMax) : Effect i O m (m.setNext pred (m.next runner))
  | create {key val : Int} : Effect i O m (m.create key val)
  | setNext {insertion runner : Addr} (hown : insertion ∈ O) (hpriv : m.Private insertion)
    (hpub : m.Published runner) (hlt : m.key insertion < m.key runner) :
    Effect i O m (m.setNext insertion (some runner))
  | link {pred runner insertion : Addr} (hv : m.Validated i pred runner) (hown : insertion ∈ O)
    (hpriv : m.Private insertion) (hnext : m.next insertion = some runner)
    (hlt : m.key pred < m.key insertion) : Effect i O m (m.setNext pred (some insertion))

variable {m' : Memory ι} {i j : ι} {O : Set Addr}

/-- Private nodes are not in the chain, so pointers of theirs are not either. -/
theorem Private.reaches_setNext (h : m.Private a) (x : Option Addr) :
    Reaches (m.setNext a x).next head b ↔ Reaches m.next head b := by
  rw [next_setNext]
  exact reaches_update_iff (fun ha => h.not_published (Or.inl ha)) x

/-- A new node is not in the chain. -/
theorem Shape.reaches_create (h : m.Shape) (k v : Int) :
    Reaches (m.create k v).next head b ↔ Reaches m.next head b := by
  rw [next_create]
  exact reaches_update_iff (fun hn => absurd (h.published_lt (Or.inl hn)) (lt_irrefl _)) _

/-- Published nodes stay published. -/
theorem Effect.published (h : Effect i O m m') (hs : m.Shape) (ha : m.Published a) :
    m'.Published a := by
  cases h with
  | same => exact ha
  | lock => simpa [Published] using ha
  | unlock => simpa [Published] using ha
  | @mark pred runner hv =>
    rcases ha with ha | ha
    · exact Or.inl (by simpa using ha)
    · right
      rw [marked_setMarked, update_apply]
      split
      · rfl
      · exact ha
  | @unlink pred runner hlock hlinked hunmarked hpub hmarked hkey =>
    rcases ha with ha | ha
    · rcases hs.ascending.reaches_skip (hpub.reaches hunmarked) hlinked ha with hr | rfl
      · exact Or.inl (by rwa [next_setNext])
      · exact Or.inr (by rwa [marked_setNext])
    · exact Or.inr (by rwa [marked_setNext])
  | create =>
    rcases ha with ha | ha
    · exact Or.inl ((hs.reaches_create _ _).mpr ha)
    · refine Or.inr ?_
      rwa [marked_create, update_of_ne (hs.marked a ha).ne]
  | setNext hown hpriv =>
    exact ha.imp (hpriv.reaches_setNext _).mpr (fun hm => by rwa [marked_setNext])
  | @link pred runner insertion hv hown hpriv hnext hlt =>
    refine ha.imp (fun hr => ?_) (fun hm => by rwa [marked_setNext])
    rw [next_setNext]
    refine hs.ascending.reaches_insert hv.published.1 hv.linked ?_ hnext hr
    rintro rfl
    exact lt_irrefl _ hlt

/-- Nothing changes of a marked node. -/
theorem Effect.frozen (h : Effect i O m m') (hs : m.Shape) (ha : m.marked a = true) :
    m'.marked a = true ∧ m'.next a = m.next a := by
  have hne : ∀ b, m.marked b = false → a ≠ b := by
    rintro b hb rfl
    rw [ha] at hb
    cases hb
  cases h with
  | same => exact ⟨ha, rfl⟩
  | lock => simpa using ha
  | unlock => simpa using ha
  | @mark pred runner hv =>
    rw [marked_setMarked, next_setMarked, update_of_ne (hne _ hv.runnerUnmarked)]
    exact ⟨ha, rfl⟩
  | unlink _ _ hunmarked =>
    rw [marked_setNext, next_setNext, update_of_ne (hne _ hunmarked)]
    exact ⟨ha, rfl⟩
  | create =>
    have hold := (hs.marked a ha).ne
    rw [marked_create, next_create, update_of_ne hold, update_of_ne hold]
    exact ⟨ha, rfl⟩
  | setNext _ hpriv =>
    rw [marked_setNext, next_setNext, update_of_ne (hne _ hpriv.unmarked)]
    exact ⟨ha, rfl⟩
  | link hv =>
    rw [marked_setNext, next_setNext, update_of_ne (hne _ hv.predUnmarked)]
    exact ⟨ha, rfl⟩

/-- The step that marks a node finds it in the chain and changes no pointer. -/
theorem Effect.marking (h : Effect i O m m') (ha : m.marked a = false)
    (ha' : m'.marked a = true) : Reaches m.next head a ∧ m'.next = m.next := by
  cases h with
  | same => rw [ha] at ha'; cases ha'
  | lock => rw [marked_setLock, ha] at ha'; cases ha'
  | unlock => rw [marked_setLock, ha] at ha'; cases ha'
  | @mark pred runner hv =>
    rw [marked_setMarked, update_apply] at ha'
    split at ha'
    · rename_i he
      exact ⟨he ▸ hv.published.2, next_setMarked m runner⟩
    · rw [ha] at ha'
      cases ha'
  | unlink => rw [marked_setNext, ha] at ha'; cases ha'
  | create =>
    rw [marked_create, update_apply] at ha'
    split at ha'
    · cases ha'
    · rw [ha] at ha'
      cases ha'
  | setNext => rw [marked_setNext, ha] at ha'; cases ha'
  | link => rw [marked_setNext, ha] at ha'; cases ha'

/-- Only a private node that is linked gets published. -/
theorem Effect.of_published (h : Effect i O m m') (hs : m.Shape) (ha : m'.Published a) :
    m.Published a ∨ (m.Private a ∧ m'.next a = m.next a ∧ m.next a ≠ none) := by
  cases h with
  | same => exact Or.inl ha
  | lock => exact Or.inl (by simpa [Published] using ha)
  | unlock => exact Or.inl (by simpa [Published] using ha)
  | @mark pred runner hv =>
    left
    rcases ha with ha | ha
    · exact Or.inl (by simpa using ha)
    · rw [marked_setMarked, update_apply] at ha
      split at ha
      · rename_i he
        exact Or.inl (he ▸ hv.published.2)
      · exact Or.inr ha
  | unlink _ hlinked =>
    refine Or.inl (ha.imp (fun hr => ?_) fun hm => by rwa [marked_setNext] at hm)
    rw [next_setNext] at hr
    exact hr.of_skip hlinked
  | create =>
    refine Or.inl (ha.imp (hs.reaches_create _ _).mp fun hm => ?_)
    rw [marked_create, update_apply] at hm
    split at hm
    · cases hm
    · exact hm
  | setNext _ hpriv =>
    exact Or.inl (ha.imp (hpriv.reaches_setNext _).mp fun hm => by rwa [marked_setNext] at hm)
  | @link pred runner insertion hv _ hpriv hnext hlt =>
    have hne : insertion ≠ pred := by
      rintro rfl
      exact lt_irrefl _ hlt
    rcases ha with hr | hm
    · rw [next_setNext] at hr
      rcases hv.published.1.of_insert hv.linked hne hnext hr with hr | rfl
      · exact Or.inl (Or.inl hr)
      · refine Or.inr ⟨hpriv, by rw [next_setNext, update_of_ne hne], ?_⟩
        rw [hnext]
        nofun
    · exact Or.inl (Or.inr (by rwa [marked_setNext] at hm))

theorem Effect.closed (h : Effect i O m m') (hs : m.Shape) (ha : m'.Published a)
    (hab : m'.next a = some b) : m'.Published b := by
  rcases ha with hr | hm'
  · exact Or.inl (hr.step hab)
  · cases hm : m.marked a with
    | true =>
      rw [(h.frozen hs hm).2] at hab
      exact h.published hs (hs.closed a b (Or.inr hm) hab)
    | false =>
      obtain ⟨hr, hnext⟩ := h.marking hm hm'
      rw [← hnext] at hr
      exact Or.inl (hr.step hab)

/-- Pointers still lead to greater keys. -/
theorem Effect.ascending (h : Effect i O m m') (hs : m.Shape) : Ascending m'.next m'.key := by
  have hset : ∀ c x, (∀ d, x = some d → m.key c < m.key d) →
      Ascending (m.setNext c x).next (m.setNext c x).key := by
    intro c x hx a b hab
    rw [next_setNext, update_apply] at hab
    rw [key_setNext]
    split at hab
    · rename_i he
      exact he ▸ hx b hab
    · exact hs.ascending a b hab
  cases h with
  | same => exact hs.ascending
  | lock => simpa using hs.ascending
  | unlock => simpa using hs.ascending
  | mark => simpa using hs.ascending
  | unlink _ hlinked =>
    exact hset _ _ fun d hd => (hs.ascending _ _ hlinked).trans (hs.ascending _ _ hd)
  | create =>
    intro a b hab
    rw [next_create, update_apply] at hab
    split at hab
    · cases hab
    · rename_i ha
      rw [key_create, update_of_ne ha, update_of_ne (hs.pointed a b hab).ne]
      exact hs.ascending a b hab
  | setNext _ _ _ hlt => exact hset _ _ fun d hd => Option.some.inj hd ▸ hlt
  | link _ _ _ _ hlt => exact hset _ _ fun d hd => Option.some.inj hd ▸ hlt

theorem Effect.key (h : Effect i O m m') (ha : a < m.fresh) : m'.key a = m.key a := by
  cases h with
  | create => rw [key_create, update_of_ne ha.ne]
  | _ => simp

theorem Effect.fresh (h : Effect i O m m') : m.fresh ≤ m'.fresh := by
  cases h with
  | create => exact Nat.le_succ _
  | _ => exact le_rfl

theorem Effect.last (h : Effect i O m m') (hs : m.Shape) (ha : m'.Published a)
    (hn : m'.next a = none) : m'.key a = intMax := by
  rcases h.of_published hs ha with hp | ⟨_, he, hne⟩
  · have hlt := hs.published_lt hp
    rw [h.key hlt]
    have hset : ∀ c x, x ≠ none → (m.setNext c x).next a = none → m.key a = intMax := by
      intro c x hx hn
      rw [next_setNext, update_apply] at hn
      split at hn
      · exact absurd hn hx
      · exact hs.last a hp hn
    cases h with
    | same => exact hs.last a hp hn
    | lock => exact hs.last a hp (by simpa using hn)
    | unlock => exact hs.last a hp (by simpa using hn)
    | mark => exact hs.last a hp (by simpa using hn)
    | unlink _ _ _ _ hmarked hkey =>
      exact hset _ _ (fun he => hkey.ne (hs.last _ (Or.inr hmarked) he)) hn
    | create =>
      rw [next_create, update_of_ne hlt.ne] at hn
      exact hs.last a hp hn
    | setNext => exact hset _ _ (Option.some_ne_none _) hn
    | link => exact hset _ _ (Option.some_ne_none _) hn
  · exact absurd (he ▸ hn) hne

theorem Effect.pointed (h : Effect i O m m') (hs : m.Shape) (hab : m'.next a = some b) :
    b < m'.fresh := by
  have hset : ∀ c x, (∀ d, x = some d → d < m.fresh) → (m.setNext c x).next a = some b →
      b < m.fresh := by
    intro c x hx hab
    rw [next_setNext, update_apply] at hab
    split at hab
    · exact hx b hab
    · exact hs.pointed a b hab
  cases h with
  | same => exact hs.pointed a b hab
  | lock => exact hs.pointed a b (by simpa using hab)
  | unlock => exact hs.pointed a b (by simpa using hab)
  | mark => exact hs.pointed a b (by simpa using hab)
  | unlink => exact hset _ _ (fun d hd => hs.pointed _ d hd) hab
  | create =>
    rw [next_create, update_apply] at hab
    split at hab
    · cases hab
    · exact (hs.pointed a b hab).trans (Nat.lt_succ_self _)
  | setNext _ _ hpub =>
    exact hset _ _ (fun d hd => Option.some.inj hd ▸ hs.published_lt hpub) hab
  | link _ _ hpriv => exact hset _ _ (fun d hd => Option.some.inj hd ▸ hpriv.old) hab

/-- **Every effect keeps the shape of the list.** -/
theorem Effect.shape (h : Effect i O m m') (hs : m.Shape) : m'.Shape where
  ascending := h.ascending hs
  closed _ _ ha hab := h.closed hs ha hab
  last _ ha hn := h.last hs ha hn
  headKey := (h.key hs.headOld).trans hs.headKey
  headOld := hs.headOld.trans_le h.fresh
  pointed _ _ hab := h.pointed hs hab
  marked a ha := by
    refine lt_of_lt_of_le ?_ h.fresh
    cases hm : m.marked a with
    | true => exact hs.marked a hm
    | false => exact hs.published_lt (Or.inl (h.marking hm ha).1)
  locked a ha := by
    refine lt_of_lt_of_le ?_ h.fresh
    cases h with
    | same => exact hs.locked a ha
    | lock _ hpub =>
      rw [lock_setLock, update_apply] at ha
      split at ha
      · rename_i he
        exact he ▸ hs.published_lt hpub
      · exact hs.locked a ha
    | unlock =>
      rw [lock_setLock, update_apply] at ha
      split at ha
      · exact absurd rfl ha
      · exact hs.locked a ha
    | mark => exact hs.locked a (by simpa using ha)
    | unlink => exact hs.locked a (by simpa using ha)
    | create =>
      rw [lock_create, update_apply] at ha
      split at ha
      · exact absurd rfl ha
      · exact hs.locked a ha
    | setNext => exact hs.locked a (by simpa using ha)
    | link => exact hs.locked a (by simpa using ha)

/-! ## What other threads may rely on -/

/-- What a step of another thread leaves thread `i`, with the private nodes `O`. -/
structure Stable (i : ι) (O : Set Addr) (m m' : Memory ι) : Prop where
  published : ∀ a, m.Published a → m'.Published a
  key : ∀ a, a < m.fresh → m'.key a = m.key a
  lock : ∀ a, m.lock a = some i → m'.lock a = some i
  next : ∀ a, m.lock a = some i → m.Published a → m'.next a = m.next a
  marked : ∀ a, m.lock a = some i → m'.marked a = m.marked a
  priv : ∀ a ∈ O, m.Private a → m'.Private a ∧ m'.next a = m.next a

/-- Locks of other threads are not touched. -/
theorem Effect.lock_other (h : Effect j O m m') (hs : m.Shape) (hij : i ≠ j) :
    m'.lock a = some i ↔ m.lock a = some i := by
  cases h with
  | same => rfl
  | lock hfree =>
    rw [lock_setLock, update_apply]
    split
    · rename_i he
      subst he
      rw [hfree]
      exact iff_of_false (fun he => hij (Option.some.inj he).symm) nofun
    · rfl
  | unlock hown =>
    rw [lock_setLock, update_apply]
    split
    · rename_i he
      subst he
      rw [hown]
      exact iff_of_false nofun (fun he => hij (Option.some.inj he).symm)
    · rfl
  | mark => rw [lock_setMarked]
  | unlink => rw [lock_setNext]
  | create =>
    rw [lock_create, update_apply]
    split
    · rename_i he
      refine iff_of_false nofun fun hl => ?_
      have := hs.locked a (by rw [hl]; nofun)
      exact absurd he this.ne
    · rfl
  | setNext => rw [lock_setNext]
  | link => rw [lock_setNext]

/-- A pointer only changes in a private node, or in one the thread has locked. -/
theorem Effect.next_other (h : Effect j O m m') (hij : i ≠ j) (hlock : m.lock a = some i)
    (hpub : m.Published a) (hs : m.Shape) : m'.next a = m.next a := by
  have hset : ∀ c x, a ≠ c → (m.setNext c x).next a = m.next a := fun c x hc => by
    rw [next_setNext, update_of_ne hc]
  have hne : ∀ c, m.lock c = some j → a ≠ c := by
    rintro c hc rfl
    exact hij (Option.some.inj (hlock.symm.trans hc))
  cases h with
  | same => rfl
  | lock => rw [next_setLock]
  | unlock => rw [next_setLock]
  | mark => rw [next_setMarked]
  | unlink hown => exact hset _ _ (hne _ hown)
  | create => rw [next_create, update_of_ne (hs.published_lt hpub).ne]
  | setNext _ hpriv => exact hset _ _ fun he => hpriv.not_published (he ▸ hpub)
  | link hv => exact hset _ _ (hne _ hv.predLock)

theorem Effect.marked_other (h : Effect j O m m') (hij : i ≠ j) (hlock : m.lock a = some i)
    (hs : m.Shape) : m'.marked a = m.marked a := by
  cases h with
  | mark hv =>
    rw [marked_setMarked, update_of_ne]
    rintro rfl
    exact hij (Option.some.inj (hlock.symm.trans hv.runnerLock))
  | create => rw [marked_create, update_of_ne (hs.locked a (by rw [hlock]; nofun)).ne]
  | _ => simp

/-- Private nodes of a thread stay so while others step. -/
theorem Effect.private_other (h : Effect j O m m') (hown : a ∉ O)
    (ha : m.Private a) : m'.Private a ∧ m'.next a = m.next a := by
  have hset : ∀ c x, a ≠ c → x ≠ some a →
      (m.setNext c x).Private a ∧ (m.setNext c x).next a = m.next a := by
    intro c x hc hx
    refine ⟨⟨ha.old, ha.ne_head, by rw [marked_setNext]; exact ha.unmarked, fun b => ?_⟩, ?_⟩
    · rw [next_setNext, update_apply]
      split
      · exact hx
      · exact ha.unlinked b
    · rw [next_setNext, update_of_ne hc]
  have hpub : ∀ c, m.Published c → a ≠ c := fun c hc he => ha.not_published (he ▸ hc)
  cases h with
  | same => exact ⟨ha, rfl⟩
  | lock => exact ⟨⟨ha.old, ha.ne_head, by simpa using ha.unmarked, by simpa using ha.unlinked⟩,
      by rw [next_setLock]⟩
  | unlock => exact ⟨⟨ha.old, ha.ne_head, by simpa using ha.unmarked, by simpa using ha.unlinked⟩,
      by rw [next_setLock]⟩
  | mark hv =>
    refine ⟨⟨ha.old, ha.ne_head, ?_, by simpa using ha.unlinked⟩, by rw [next_setMarked]⟩
    rw [marked_setMarked, update_of_ne (hpub _ (Or.inl hv.published.2))]
    exact ha.unmarked
  | unlink _ _ _ hp => exact hset _ _ (hpub _ hp) (ha.unlinked _)
  | create =>
    refine ⟨⟨ha.old.trans (Nat.lt_succ_self _), ha.ne_head, ?_, fun b => ?_⟩, ?_⟩
    · rw [marked_create, update_of_ne ha.old.ne]
      exact ha.unmarked
    · rw [next_create, update_apply]
      split
      · nofun
      · exact ha.unlinked b
    · rw [next_create, update_of_ne ha.old.ne]
  | setNext hins _ hp =>
    exact hset _ _ (fun he => hown (he ▸ hins)) fun he => hpub _ hp (Option.some.inj he).symm
  | link hv hins =>
    exact hset _ _ (hpub _ hv.predPublished) fun he => hown (Option.some.inj he ▸ hins)

theorem Effect.stable {O' : Set Addr} (h : Effect j O m m') (hs : m.Shape) (hij : i ≠ j)
    (hO : ∀ a ∈ O', a ∉ O) : Stable i O' m m' where
  published _ ha := h.published hs ha
  key _ ha := h.key ha
  lock _ ha := (h.lock_other hs hij).mpr ha
  next _ ha hp := h.next_other hij ha hp hs
  marked _ ha := h.marked_other hij ha hs
  priv a ha hp := h.private_other (hO a ha) hp

/-! ## What the effects do to the keys -/

theorem keys_setMarked {pred runner : Addr} (hs : m.Shape) (hv : m.Validated i pred runner) :
    (m.setMarked runner).keys = m.keys \ {m.key runner} := by
  ext k
  simp only [keys, next_setMarked, marked_setMarked, key_setMarked, Set.mem_ofPred_eq,
    Set.mem_sdiff, Set.mem_singleton_iff]
  refine ⟨fun ⟨hlo, hhi, a, ha, hm, hk⟩ => ?_, fun ⟨⟨hlo, hhi, a, ha, hm, hk⟩, hne⟩ => ?_⟩
  · rw [update_apply] at hm
    split at hm
    · cases hm
    · rename_i hne
      exact ⟨⟨hlo, hhi, a, ha, hm, hk⟩, fun he =>
        hne (hs.ascending.key_inj ha hv.published.2 (hk.trans he))⟩
  · refine ⟨hlo, hhi, a, ha, ?_, hk⟩
    rw [update_of_ne]
    · exact hm
    · rintro rfl
      exact hne hk.symm

theorem keys_unlink {pred runner : Addr} (hs : m.Shape) (hpred : Reaches m.next head pred)
    (hlinked : m.next pred = some runner) (hmarked : m.marked runner = true) :
    (m.setNext pred (m.next runner)).keys = m.keys := by
  ext k
  simp only [keys, next_setNext, marked_setNext, key_setNext, Set.mem_ofPred_eq]
  refine and_congr_right fun _ => and_congr_right fun _ => exists_congr fun a => ?_
  refine ⟨fun ⟨ha, hm, hk⟩ => ⟨ha.of_skip hlinked, hm, hk⟩, fun ⟨ha, hm, hk⟩ => ?_⟩
  rcases hs.ascending.reaches_skip hpred hlinked ha with ha | rfl
  · exact ⟨ha, hm, hk⟩
  · rw [hmarked] at hm
    cases hm

theorem keys_link {pred runner insertion : Addr} (hs : m.Shape) (hv : m.Validated i pred runner)
    (hpriv : m.Private insertion) (hnext : m.next insertion = some runner)
    (hlt : m.key pred < m.key insertion)
    (hk : intMin < m.key insertion ∧ m.key insertion < intMax) :
    (m.setNext pred (some insertion)).keys = insert (m.key insertion) m.keys := by
  have hne : insertion ≠ pred := by
    rintro rfl
    exact lt_irrefl _ hlt
  have hpred := hv.published.1
  ext k
  simp only [keys, next_setNext, marked_setNext, key_setNext, Set.mem_ofPred_eq,
    Set.mem_insert_iff]
  refine ⟨fun ⟨hlo, hhi, a, ha, hm, hak⟩ => ?_, fun hor => ?_⟩
  · rcases hpred.of_insert hv.linked hne hnext ha with ha | rfl
    · exact Or.inr ⟨hlo, hhi, a, ha, hm, hak⟩
    · exact Or.inl hak.symm
  · rcases hor with rfl | ⟨hlo, hhi, a, ha, hm, hak⟩
    · exact ⟨hk.1, hk.2, insertion, hs.ascending.reaches_inserted hpred, hpriv.unmarked, rfl⟩
    · exact ⟨hlo, hhi, a, hs.ascending.reaches_insert hpred hv.linked hne hnext ha, hm, hak⟩

theorem keys_setNext_private (hpriv : m.Private a) (x : Option Addr) :
    (m.setNext a x).keys = m.keys := by
  ext k
  simp only [keys, marked_setNext, key_setNext, Set.mem_ofPred_eq, hpriv.reaches_setNext]

theorem keys_create (hs : m.Shape) (key val : Int) : (m.create key val).keys = m.keys := by
  ext k
  simp only [keys, Set.mem_ofPred_eq, hs.reaches_create]
  refine and_congr_right fun _ => and_congr_right fun _ => exists_congr fun a =>
    and_congr_right fun ha => ?_
  have hne := (hs.published_lt (Or.inl ha)).ne
  rw [marked_create, key_create, update_of_ne hne, update_of_ne hne]

theorem keys_setLock (o : Option ι) : (m.setLock a o).keys = m.keys := by
  simp only [keys, next_setLock, marked_setLock, key_setLock]

end Memory

end ConcurrentComputing.LazyList
