import ConcurrentComputing.LazyListMemory
import Mathlib.Data.Finset.Card
import Mathlib.Data.List.Perm.Subperm
import Mathlib.Tactic.NormNum

/-! # The lazy list in the hands of one thread

A call that no other runs beside: its accesses come one after the other. Between
calls nothing is locked, and the nodes between the sentinels are in ascending
order. Here a key may be one of the sentinels' own. -/

namespace ConcurrentComputing.LazyList

open Function SortedChain

variable {ι : Type}

/-- The accesses of a call from a control point on, at most so many of them. -/
def perform (i : ι) (op : Op) : Nat → Memory ι → Pc → Option (Memory ι × Result)
  | 0, _, _ => none
  | n + 1, m, pc =>
    match advance m i op pc with
    | none => none
    | some (m', .goto pc') => perform i op n m' pc'
    | some (m', .answer result) => some (m', result)

/-- More accesses than a call alone makes. -/
def Memory.accesses (m : Memory ι) : Nat := 2 * m.fresh + 16

/-- A whole call. -/
def Memory.call (m : Memory ι) (i : ι) (op : Op) : Option (Memory ι × Result) :=
  perform i op m.accesses m op.start

/-- `while (runner != NULL)`, for at most so many nodes. -/
def Memory.sizeLoop (m : Memory ι) : Nat → Option Addr → Int → Option Int
  | 0, _, _ => none
  | _ + 1, none, size => some size
  | n + 1, some runner, size => m.sizeLoop n (m.next runner) (Int.bmod (size + 1) (2 ^ 32))

def Memory.size (m : Memory ι) : Option Int := m.sizeLoop (m.fresh + 1) (some head) (-2)

variable {i : ι} {op : Op} {m m' : Memory ι} {pc pc' : Pc} {n : Nat} {result : Result}
  {a b tail : Addr} {l pre : List Addr}

theorem perform_goto (h : advance m i op pc = some (m', .goto pc')) :
    perform i op (n + 1) m pc = perform i op n m' pc' := by
  rw [perform, h]

theorem perform_answer (h : advance m i op pc = some (m', .answer result)) :
    perform i op (n + 1) m pc = some (m', result) := by
  rw [perform, h]

/-- Allowing more accesses changes no answer. -/
theorem perform_more {k : Nat} {s : Memory ι × Result} (h : perform i op n m pc = some s) :
    perform i op (n + k) m pc = some s := by
  induction n generalizing m pc with
  | zero => cases h
  | succ n ih =>
    rw [Nat.add_right_comm]
    unfold perform at h ⊢
    split at h
    · cases h
    · exact ih h
    · exact h

/-! ## Between calls -/

/-- The nodes of the list between its sentinels, no call being under way. -/
structure Alone (m : Memory ι) (l : List Addr) (tail : Addr) : Prop where
  linked : Linked m.next head l tail
  ended : m.next tail = none
  headKey : m.key head = intMin
  tailKey : m.key tail = intMax
  sorted : l.Pairwise fun a b => m.key a < m.key b
  range : ∀ a ∈ l, intMin ≤ m.key a ∧ m.key a < intMax
  head_notMem : head ∉ l
  old : ∀ a ∈ head :: (l ++ [tail]), a < m.fresh
  unmarked : ∀ a ∈ head :: (l ++ [tail]), m.marked a = false
  unlocked : ∀ a, m.lock a = none

theorem Alone.congr (h : Alone m l tail) (hkey : m'.key = m.key) (hnext : m'.next = m.next)
    (hmarked : m'.marked = m.marked) (hfresh : m'.fresh = m.fresh) (hlock : ∀ a, m'.lock a = none) :
    Alone m' l tail where
  linked := hnext ▸ h.linked
  ended := hnext ▸ h.ended
  headKey := hkey ▸ h.headKey
  tailKey := hkey ▸ h.tailKey
  sorted := hkey ▸ h.sorted
  range := hkey ▸ h.range
  head_notMem := h.head_notMem
  old := hfresh ▸ h.old
  unmarked := hmarked ▸ h.unmarked
  unlocked := hlock

theorem Alone.tail_notMem (h : Alone m l tail) : tail ∉ head :: l := by
  intro hmem
  rcases List.mem_cons.mp hmem with rfl | hmem
  · exact absurd (h.headKey.symm.trans h.tailKey) (by decide)
  · exact (h.range tail hmem).2.ne h.tailKey

theorem Alone.nodup (h : Alone m l tail) : (head :: (l ++ [tail])).Nodup := by
  have htail := h.tail_notMem
  rw [List.mem_cons, not_or] at htail
  rw [List.nodup_cons, List.nodup_append]
  refine ⟨?_, h.sorted.imp fun hlt he => ?_, List.pairwise_singleton _ _, ?_⟩
  · simpa [h.head_notMem] using Ne.symm htail.1
  · subst he
    exact lt_irrefl _ hlt
  · intro a ha b hb
    rw [List.mem_singleton.mp hb]
    rintro rfl
    exact htail.2 ha

/-- There are no more nodes than have been made. -/
theorem Alone.length_le (h : Alone m l tail) : l.length + 2 ≤ m.fresh := by
  have hsub : head :: (l ++ [tail]) ⊆ List.range m.fresh :=
    fun a ha => List.mem_range.mpr (h.old a ha)
  have hle := (h.nodup.subperm hsub).length_le
  rw [List.length_cons, List.length_append, List.length_singleton, List.length_range] at hle
  exact hle

/-- Where a key belongs: after `pred`, which is the last node of `l₁`, or the head,
and before `runner`, the first of `l₂`, or the tail. -/
structure Place (m : Memory ι) (l : List Addr) (tail : Addr) (k : Int) (l₁ l₂ : List Addr)
    (runner : Addr) : Prop where
  split : l = l₁ ++ l₂
  before : ∀ a ∈ l₁, m.key a < k
  after : ∀ a ∈ l₂, k ≤ m.key a
  first : runner = l₂.headD tail
  linked : Linked m.next head l₁ runner
  high : k ≤ m.key runner

theorem Alone.place (h : Alone m l tail) {k : Int} (hk : k ≤ intMax) :
    ∃ l₁ l₂ runner, Place m l tail k l₁ l₂ runner := by
  obtain ⟨l₁, l₂, rfl, hlow, hhigh⟩ := exists_split h.sorted k
  refine ⟨l₁, l₂, _, rfl, hlow, hhigh, rfl, ?_, ?_⟩
  · cases l₂ with
    | nil => simpa using h.linked
    | cons c l₂ => exact (linked_append.mp h.linked).1
  · cases l₂ with
    | nil => exact h.tailKey.symm ▸ hk
    | cons c l₂ => exact hhigh c List.mem_cons_self

/-! ## Traversals -/

theorem perform_look (hl : Linked m.next a pre b) (hk : ∀ c ∈ a :: pre, m.key c < op.key) :
    perform i op (n + 2 * (pre.length + 1)) m (.readKey a) = perform i op n m (.readKey b) := by
  have hkey : advance m i op (.readKey a) = some (m, .goto (.readNext a)) := by
    rw [advance, if_pos (hk a List.mem_cons_self)]
  induction pre generalizing a with
  | nil =>
    have hnext : advance m i op (.readNext a) = some (m, .goto (.readKey b)) := by
      rw [advance, show m.next a = some b from hl]
      rfl
    exact (perform_goto hkey).trans (perform_goto hnext)
  | cons c pre ih =>
    have hnext : advance m i op (.readNext a) = some (m, .goto (.readKey c)) := by
      rw [advance, hl.1]
      rfl
    have hc : ∀ d ∈ c :: pre, m.key d < op.key := fun d hd => hk d (List.mem_cons_of_mem _ hd)
    have hnow := ih hl.2 hc (by rw [advance, if_pos (hc c List.mem_cons_self)])
    exact (perform_goto hkey).trans ((perform_goto hnext).trans hnow)

theorem perform_compare (hb : op.key ≤ m.key b) (hm : m.marked b = false) :
    perform i op (n + 3) m (.readKey b) =
      some (m, if m.key b = op.key then .true else .false) := by
  have hread : advance m i op (.readKey b) = some (m, .goto (.compareKey b)) := by
    rw [advance, if_neg (not_lt.mpr hb)]
  rw [perform_goto hread]
  by_cases he : m.key b = op.key
  · have hcmp : advance m i op (.compareKey b) = some (m, .goto (.readMarked b)) := by
      rw [advance, if_pos he]
    have hmark : advance m i op (.readMarked b) = some (m, .answer .true) := by
      rw [advance, hm]
      rfl
    rw [perform_goto hcmp, perform_answer hmark, if_pos he]
  · have hcmp : advance m i op (.compareKey b) = some (m, .answer .false) := by
      rw [advance, if_neg he]
    rw [perform_answer hcmp, if_neg he]

theorem perform_walk (hl : Linked m.next a pre b) (hk : ∀ c ∈ pre, m.key c < op.key)
    (hb : op.key ≤ m.key b) : perform i op (n + 2 * (pre.length + 1)) m (.walkNext a) =
      perform i op n m (.lockPred (pre.getLastD a) b) := by
  induction pre generalizing a with
  | nil =>
    have hnext : advance m i op (.walkNext a) = some (m, .goto (.walkKey a b)) := by
      rw [advance, show m.next a = some b from hl]
      rfl
    have hkey : advance m i op (.walkKey a b) = some (m, .goto (.lockPred a b)) := by
      rw [advance, if_neg (not_lt.mpr hb)]
    exact (perform_goto hnext).trans (perform_goto hkey)
  | cons c pre ih =>
    have hnext : advance m i op (.walkNext a) = some (m, .goto (.walkKey a c)) := by
      rw [advance, hl.1]
      rfl
    have hkey : advance m i op (.walkKey a c) = some (m, .goto (.walkNext c)) := by
      rw [advance, if_pos (hk c List.mem_cons_self)]
    have hnow := ih hl.2 fun d hd => hk d (List.mem_cons_of_mem _ hd)
    rw [List.getLastD_cons]
    exact (perform_goto hnext).trans ((perform_goto hkey).trans hnow)

/-! ## Locking and unlocking -/

/-- Both nodes locked. -/
def Memory.lockBoth (m : Memory ι) (i : ι) (pred runner : Addr) : Memory ι :=
  (m.setLock pred (some i)).setLock runner (some i)

def Memory.unlockBoth (m : Memory ι) (pred runner : Addr) : Memory ι :=
  (m.setLock pred none).setLock runner none

variable {pred runner : Addr}

/-- Both locks are there to be taken, and the check passes. -/
theorem perform_lock (hfree : ∀ a, m.lock a = none) (hn : m.next pred = some runner)
    (hne : pred ≠ runner) (hp : m.marked pred = false) (hr : m.marked runner = false) :
    perform i op (n + 5) m (.lockPred pred runner) =
      perform i op n (m.lockBoth i pred runner) (.decide pred runner) := by
  have hlock₁ : advance m i op (.lockPred pred runner) =
      some (m.setLock pred (some i), .goto (.lockRunner pred runner)) := by
    simp only [advance, hfree]
  have hlock₂ : advance (m.setLock pred (some i)) i op (.lockRunner pred runner) =
      some (m.lockBoth i pred runner, .goto (.checkLink pred runner)) := by
    have hlock : (m.setLock pred (some i)).lock runner = none := by
      rw [Memory.lock_setLock, update_of_ne hne.symm, hfree]
    simp only [advance, hlock, Memory.lockBoth]
  have hcheck₁ : advance (m.lockBoth i pred runner) i op (.checkLink pred runner) =
      some (m.lockBoth i pred runner, .goto (.checkPred pred runner)) := by
    simp [advance, Memory.lockBoth, hn]
  have hcheck₂ : advance (m.lockBoth i pred runner) i op (.checkPred pred runner) =
      some (m.lockBoth i pred runner, .goto (.checkRunner pred runner)) := by
    simp [advance, Memory.lockBoth, hp]
  have hcheck₃ : advance (m.lockBoth i pred runner) i op (.checkRunner pred runner) =
      some (m.lockBoth i pred runner, .goto (.decide pred runner)) := by
    simp [advance, Memory.lockBoth, hr]
  rw [perform_goto hlock₁, perform_goto hlock₂, perform_goto hcheck₁, perform_goto hcheck₂,
    perform_goto hcheck₃]

theorem perform_unlock : perform i op (n + 2) m (.unlockPred pred runner (some result)) =
    some (m.unlockBoth pred runner, result) :=
  (perform_goto rfl).trans (perform_answer rfl)

/-- Nothing is locked once both are given back. -/
theorem lock_unlockBoth (hm : ∀ c, c ≠ pred → c ≠ runner → m.lock c = none) (c : Addr) :
    (m.unlockBoth pred runner).lock c = none := by
  simp only [Memory.unlockBoth, Memory.lock_setLock, update_apply]
  split_ifs with h₁ h₂
  · rfl
  · rfl
  · exact hm c h₂ h₁

theorem lock_lockBoth {c : Addr} (hfree : ∀ a, m.lock a = none) (h₁ : c ≠ pred) (h₂ : c ≠ runner) :
    (m.lockBoth i pred runner).lock c = none := by
  simp only [Memory.lockBoth, Memory.lock_setLock]
  rw [update_of_ne h₂, update_of_ne h₁, hfree]

/-! ## Whole calls -/

/-- The keys of the nodes between the sentinels. -/
def listKeys (m : Memory ι) (l : List Addr) : List Int := l.map m.key

section place

variable {k val : Int} {l₁ l₂ : List Addr}

/-- Two nodes next to each other, found by a traversal. -/
theorem Alone.neighbours (h : Alone m l tail) (hp : Place m l tail k l₁ l₂ runner) :
    l₁.getLastD head ∈ head :: l₁ ∧ runner ∈ l₂ ++ [tail] ∧ l₁.getLastD head ≠ runner ∧
      m.next (l₁.getLastD head) = some runner ∧ m.marked (l₁.getLastD head) = false ∧
        m.marked runner = false := by
  obtain ⟨rfl, _, _, rfl, hlinked, _⟩ := hp
  have hfirst : l₁.getLastD head ∈ head :: l₁ := List.getLastD_mem_cons
  have hsecond : l₂.headD tail ∈ l₂ ++ [tail] := by cases l₂ <;> simp
  have hnd := h.nodup
  rw [List.append_assoc, ← List.cons_append, List.nodup_append] at hnd
  refine ⟨hfirst, hsecond, hnd.2.2 _ hfirst _ hsecond, hlinked.last, h.unmarked _ ?_,
    h.unmarked _ ?_⟩
  · rw [List.append_assoc, ← List.cons_append]
    exact List.mem_append_left _ hfirst
  · rw [List.append_assoc, ← List.cons_append]
    exact List.mem_append_right _ hsecond

/-- The key is in the list exactly when `runner` has it, the tail apart. -/
theorem Alone.mem_keys_iff (h : Alone m l tail) (hp : Place m l tail k l₁ l₂ runner)
    (hk : k < intMax) : k ∈ listKeys m l ↔ m.key runner = k := by
  obtain ⟨rfl, hlow, hhigh, rfl, _, _⟩ := hp
  rw [listKeys, List.map_append, List.mem_append]
  constructor
  · intro hmem
    rcases hmem with hmem | hmem
    · obtain ⟨a, ha, rfl⟩ := List.mem_map.mp hmem
      exact absurd (hlow a ha) (lt_irrefl _)
    · obtain ⟨a, ha, rfl⟩ := List.mem_map.mp hmem
      cases l₂ with
      | nil => cases ha
      | cons c l₂ =>
        rcases List.mem_cons.mp ha with rfl | ha
        · rfl
        · have hlt := (List.pairwise_cons.mp (List.pairwise_append.mp h.sorted).2.1).1 a ha
          exact absurd (hhigh c List.mem_cons_self) (not_le.mpr hlt)
  · intro he
    cases l₂ with
    | nil => exact absurd (h.tailKey.symm.trans he) hk.ne'
    | cons c l₂ => exact Or.inr (List.mem_map.mpr ⟨c, List.mem_cons_self, he⟩)

theorem Alone.key_le (h : Alone m l tail) (hp : Place m l tail k l₁ l₂ runner) :
    m.key runner ≤ intMax := by
  obtain ⟨rfl, _, _, rfl, _, _⟩ := hp
  cases l₂ with
  | nil => exact h.tailKey.le
  | cons c l₂ => exact (h.range c (List.mem_append_right _ List.mem_cons_self)).2.le

theorem listKeys_insert (hold : ∀ a ∈ head :: (l ++ [tail]), a ≠ m.fresh) (hl : l = l₁ ++ l₂)
    (hkey : m'.key = update m.key m.fresh k) :
    (listKeys m' (l₁ ++ m.fresh :: l₂)).Perm (k :: listKeys m (l₁ ++ l₂)) := by
  have hself : m'.key m.fresh = k := by rw [hkey, update_self]
  have hrest : (l₁ ++ l₂).map m'.key = (l₁ ++ l₂).map m.key := by
    refine List.map_congr_left fun a ha => ?_
    rw [hkey, update_of_ne (hold a (List.mem_cons_of_mem _ (List.mem_append_left _ (hl ▸ ha))))]
  have hperm : (l₁ ++ m.fresh :: l₂).Perm (m.fresh :: (l₁ ++ l₂)) := List.perm_middle
  have hmap := hperm.map m'.key
  rwa [List.map_cons, hself, hrest] at hmap

/-- A call that changes something makes its way to two locked neighbours. -/
theorem Alone.perform_update (h : Alone m l tail) (hop : op.start = .walkNext head)
    (hp : Place m l tail op.key l₁ l₂ runner) :
    ∃ n, m.call i op = perform i op (n + 6) (m.lockBoth i (l₁.getLastD head) runner)
      (.decide (l₁.getLastD head) runner) := by
  obtain ⟨_, _, hne, hn, hm₁, hm₂⟩ := h.neighbours hp
  have hle := h.length_le
  have hsplit := congrArg List.length hp.split
  rw [List.length_append] at hsplit
  obtain ⟨n, hacc⟩ : ∃ n, m.accesses = n + 6 + 5 + 2 * (l₁.length + 1) :=
    ⟨m.accesses - (11 + 2 * (l₁.length + 1)), by unfold Memory.accesses; omega⟩
  refine ⟨n, ?_⟩
  rw [Memory.call, hop, hacc, perform_walk hp.linked hp.before hp.high,
    perform_lock h.unlocked hn hne hm₁ hm₂]

/-- A key that is there, or the tail's: nothing is changed. -/
theorem Alone.refused (h : Alone m l tail) (pred runner : Addr) :
    Alone ((m.lockBoth i pred runner).unlockBoth pred runner) l tail := by
  refine h.congr ?_ ?_ ?_ rfl ?_
  · simp [Memory.lockBoth, Memory.unlockBoth]
  · simp [Memory.lockBoth, Memory.unlockBoth]
  · simp [Memory.lockBoth, Memory.unlockBoth]
  · exact lock_unlockBoth fun c h₁ h₂ => lock_lockBoth h.unlocked h₁ h₂

theorem Alone.insert (h : Alone m l tail) (hp : Place m l tail k l₁ l₂ runner)
    (hk : intMin ≤ k ∧ k < intMax) (hnew : k ∉ listKeys m l)
    (hkey : m'.key = update m.key m.fresh k)
    (hnext : m'.next =
      update (update m.next m.fresh (some runner)) (l₁.getLastD head) (some m.fresh))
    (hmarked : m'.marked = update m.marked m.fresh false) (hfresh : m'.fresh = m.fresh + 1)
    (hlock : ∀ a, m'.lock a = none) : Alone m' (l₁ ++ m.fresh :: l₂) tail := by
  have hnd := h.nodup
  obtain ⟨rfl, hlow, hhigh, rfl, hlinked, _⟩ := hp
  have hold : ∀ a ∈ head :: (l₁ ++ l₂ ++ [tail]), a ≠ m.fresh := fun a ha => (h.old a ha).ne
  have hpred : l₁.getLastD head ∈ head :: l₁ := List.getLastD_mem_cons
  have hkeys : ∀ a ∈ head :: (l₁ ++ l₂ ++ [tail]), m'.key a = m.key a := fun a ha => by
    rw [hkey, update_of_ne (hold a ha)]
  have hmem : ∀ a, a ∈ head :: (l₁ ++ m.fresh :: l₂ ++ [tail]) →
      a = m.fresh ∨ a ∈ head :: (l₁ ++ l₂ ++ [tail]) := by
    intro a ha
    simp only [List.mem_cons, List.mem_append] at ha ⊢
    tauto
  have hafter : ∀ a ∈ l₂, k < m.key a := fun a ha => by
    refine lt_of_le_of_ne (hhigh a ha) fun he => hnew ?_
    exact List.mem_map.mpr ⟨a, List.mem_append_right _ ha, he.symm⟩
  have hin₁ : ∀ a ∈ head :: l₁, a ∈ head :: (l₁ ++ l₂ ++ [tail]) := fun a ha => by
    simp only [List.mem_cons, List.mem_append] at ha ⊢
    tauto
  have hin₂ : ∀ a ∈ l₂ ++ [tail], a ∈ head :: (l₁ ++ l₂ ++ [tail]) := fun a ha => by
    simp only [List.mem_cons, List.mem_append] at ha ⊢
    tauto
  have htail := hin₂ tail (by simp)
  rw [List.append_assoc, ← List.cons_append, List.nodup_append] at hnd
  have hapart : ∀ a ∈ l₂ ++ [tail], a ≠ l₁.getLastD head := fun a ha he =>
    hnd.2.2 _ hpred a ha he.symm
  have hnext₂ : ∀ a ∈ l₂ ++ [tail], m'.next a = m.next a := fun a ha => by
    rw [hnext, update_of_ne (hapart a ha), update_of_ne (hold a (hin₂ a ha))]
  refine ⟨linked_append.mpr ⟨?_, ?_⟩, ?_, ?_, ?_, ?_, fun a ha => ?_, ?_, fun a ha => ?_,
    fun a ha => ?_, hlock⟩
  · rw [hnext]
    exact Linked.redirect (hlinked.congr fun c hc => update_of_ne (hold c (hin₁ c hc)) _ _) hnd.1
  · have hnew : m'.next m.fresh = some (l₂.headD tail) := by
      rw [hnext, update_of_ne (hold _ (hin₁ _ hpred)).symm, update_self]
    cases l₂ with
    | nil => exact hnew
    | cons c l₂ =>
      refine ⟨hnew, (linked_append.mp h.linked).2.congr fun d hd => hnext₂ d ?_⟩
      exact List.mem_append_left _ hd
  · rw [hnext₂ tail (by simp), h.ended]
  · rw [hkeys head List.mem_cons_self, h.headKey]
  · rw [hkeys tail htail, h.tailKey]
  · have hself : m'.key m.fresh = k := by rw [hkey, update_self]
    have hsort := List.pairwise_append.mp h.sorted
    refine List.pairwise_append.mpr ⟨?_, List.pairwise_cons.mpr ⟨fun a ha => ?_, ?_⟩,
      fun a ha b hb => ?_⟩
    · refine hsort.1.imp_of_mem fun ha hb hlt => ?_
      rwa [hkeys _ (hin₁ _ (List.mem_cons_of_mem _ ha)), hkeys _ (hin₁ _ (List.mem_cons_of_mem _ hb))]
    · rw [hself, hkeys a (hin₂ a (List.mem_append_left _ ha))]
      exact hafter a ha
    · refine hsort.2.1.imp_of_mem fun ha hb hlt => ?_
      rwa [hkeys _ (hin₂ _ (List.mem_append_left _ ha)), hkeys _ (hin₂ _ (List.mem_append_left _ hb))]
    · rw [hkeys a (hin₁ a (List.mem_cons_of_mem _ ha))]
      rcases List.mem_cons.mp hb with rfl | hb
      · rw [hself]
        exact hlow a ha
      · rw [hkeys b (hin₂ b (List.mem_append_left _ hb))]
        exact hsort.2.2 a ha b hb
  · rcases List.mem_append.mp ha with ha | ha
    · rw [hkeys a (hin₁ a (List.mem_cons_of_mem _ ha))]
      exact h.range a (List.mem_append_left _ ha)
    · rcases List.mem_cons.mp ha with rfl | ha
      · rwa [hkey, update_self]
      · rw [hkeys a (hin₂ a (List.mem_append_left _ ha))]
        exact h.range a (List.mem_append_right _ ha)
  · intro hin
    rcases List.mem_append.mp hin with hin | hin
    · exact h.head_notMem (List.mem_append_left _ hin)
    · rcases List.mem_cons.mp hin with he | hin
      · exact hold head List.mem_cons_self he
      · exact h.head_notMem (List.mem_append_right _ hin)
  · rw [hfresh]
    rcases hmem a ha with rfl | ha
    · exact Nat.lt_succ_self _
    · exact Nat.lt_succ_of_lt (h.old a ha)
  · rw [hmarked]
    rcases hmem a ha with rfl | ha
    · exact update_self _ _ _
    · rw [update_of_ne (hold a ha), h.unmarked a ha]

theorem Alone.erase (h : Alone m l tail) (hp : Place m l tail k l₁ (runner :: l₂) runner)
    (hkey : m'.key = m.key)
    (hnext : m'.next = update m.next (l₁.getLastD head) (m.next runner))
    (hmarked : m'.marked = update m.marked runner true) (hfresh : m'.fresh = m.fresh)
    (hlock : ∀ a, m'.lock a = none) : Alone m' (l₁ ++ l₂) tail := by
  have hnd := h.nodup
  obtain ⟨rfl, _, _, _, hlinked, _⟩ := hp
  have hpred : l₁.getLastD head ∈ head :: l₁ := List.getLastD_mem_cons
  have hmem : ∀ a ∈ head :: (l₁ ++ l₂ ++ [tail]),
      a ∈ head :: (l₁ ++ runner :: l₂ ++ [tail]) ∧ a ≠ runner := by
    intro a ha
    have hnd' : runner ∉ head :: (l₁ ++ l₂ ++ [tail]) := by
      have hperm : (head :: (l₁ ++ runner :: l₂ ++ [tail])).Perm
          (runner :: head :: (l₁ ++ l₂ ++ [tail])) := by
        rw [List.append_assoc, List.append_assoc]
        exact (List.Perm.cons _ List.perm_middle).trans (List.Perm.swap _ _ _)
      exact (List.nodup_cons.mp (hperm.nodup_iff.mp hnd)).1
    refine ⟨?_, fun he => hnd' (he ▸ ha)⟩
    simp only [List.mem_cons, List.mem_append] at ha ⊢
    tauto
  rw [List.append_assoc, ← List.cons_append, List.nodup_append] at hnd
  have hnext₂ : ∀ a ∈ runner :: l₂ ++ [tail], m'.next a = m.next a := fun a ha => by
    rw [hnext, update_of_ne]
    exact fun he => hnd.2.2 _ hpred a ha he.symm
  have hsort := List.pairwise_append.mp h.sorted
  refine ⟨?_, ?_, ?_, ?_, ?_, fun a ha => ?_, ?_, fun a ha => ?_, fun a ha => ?_, hlock⟩
  · have hrest := (linked_append.mp h.linked).2
    cases l₂ with
    | nil =>
      rw [List.append_nil, hnext, show m.next runner = some tail from hrest]
      exact hlinked.redirect hnd.1
    | cons c l₂ =>
      refine linked_append.mpr ⟨?_, hrest.2.congr fun d hd => hnext₂ d ?_⟩
      · rw [hnext, hrest.1]
        exact hlinked.redirect hnd.1
      · exact List.mem_append_left _ (List.mem_cons_of_mem _ hd)
  · rw [hnext₂ tail (by simp), h.ended]
  · rw [hkey, h.headKey]
  · rw [hkey, h.tailKey]
  · rw [hkey]
    exact h.sorted.sublist ((List.sublist_cons_self _ _).append_left _)
  · rw [hkey]
    refine h.range a ?_
    simp only [List.mem_cons, List.mem_append] at ha ⊢
    tauto
  · intro hin
    refine h.head_notMem ?_
    simp only [List.mem_cons, List.mem_append] at hin ⊢
    tauto
  · rw [hfresh]
    exact h.old a (hmem a ha).1
  · rw [hmarked, update_of_ne (hmem a ha).2]
    exact h.unmarked a (hmem a ha).1

end place

/-! ## What a call answers -/

section calls

variable {k val : Int}

/-- **`contains`**: the two sentinels' keys are always found. -/
theorem Alone.contains (h : Alone m l tail) (hk : intMin ≤ k ∧ k ≤ intMax) :
    m.call i (.contains k) =
      some (m, if k = intMin ∨ k = intMax ∨ k ∈ listKeys m l then .true else .false) := by
  have hle := h.length_le
  rcases hk.1.eq_or_lt with rfl | hlow
  · -- the traversal does not leave the head
    obtain ⟨n, hacc⟩ : ∃ n, m.accesses = n + 3 := ⟨m.accesses - 3, by unfold Memory.accesses; omega⟩
    have hcmp : perform i (.contains intMin) (n + 3) m (.readKey head) = _ :=
      perform_compare h.headKey.ge (h.unmarked head List.mem_cons_self)
    rw [Memory.call, hacc]
    refine hcmp.trans (congrArg (fun r => some (m, r)) ?_)
    exact (if_pos h.headKey).trans (if_pos (Or.inl rfl)).symm
  · obtain ⟨l₁, l₂, runner, hp⟩ := h.place hk.2
    have hrunner := (h.neighbours hp).2.1
    have hsplit := congrArg List.length hp.split
    rw [List.length_append] at hsplit
    obtain ⟨n, hacc⟩ : ∃ n, m.accesses = n + 3 + 2 * (l₁.length + 1) :=
      ⟨m.accesses - (3 + 2 * (l₁.length + 1)), by unfold Memory.accesses; omega⟩
    have hbefore : ∀ c ∈ head :: l₁, m.key c < (Op.contains k).key := by
      intro c hc
      rcases List.mem_cons.mp hc with rfl | hc
      · exact h.headKey.symm ▸ hlow
      · exact hp.before c hc
    have hmem : runner ∈ head :: (l ++ [tail]) := by
      rw [hp.split, List.append_assoc]
      exact List.mem_cons_of_mem _ (List.mem_append_right _ hrunner)
    have hiff : m.key runner = k ↔ k = intMin ∨ k = intMax ∨ k ∈ listKeys m l := by
      rcases hk.2.eq_or_lt with rfl | hhigh
      · refine iff_of_true ?_ (Or.inr (Or.inl rfl))
        cases hl₂ : l₂ with
        | nil => rw [hp.first, hl₂, List.headD_nil, h.tailKey]
        | cons c l₂ =>
          subst hl₂
          have hc : c ∈ l := hp.split ▸ List.mem_append_right _ List.mem_cons_self
          exact absurd (hp.after c List.mem_cons_self) (not_le.mpr (h.range c hc).2)
      · rw [← h.mem_keys_iff hp hhigh]
        exact ⟨fun hm => Or.inr (Or.inr hm), fun hm => (hm.resolve_left hlow.ne').resolve_left hhigh.ne⟩
    have hcmp : perform i (.contains k) (n + 3) m (.readKey runner) = _ :=
      perform_compare hp.high (h.unmarked runner hmem)
    rw [Memory.call, hacc]
    refine (perform_look hp.linked hbefore).trans (hcmp.trans ?_)
    exact congrArg (fun r => some (m, r)) (if_congr hiff rfl rfl)

/-- **`add`**: the last node's key is never added. -/
theorem Alone.add (h : Alone m l tail) (hk : intMin ≤ k ∧ k ≤ intMax) (val : Int) :
    ∃ m' l', m.call i (.add k val) =
        some (m', if k = intMax ∨ k ∈ listKeys m l then .false else .true) ∧
      Alone m' l' tail ∧
        (listKeys m' l').Perm (if k = intMax ∨ k ∈ listKeys m l then listKeys m l
          else k :: listKeys m l) := by
  obtain ⟨l₁, l₂, runner, hp⟩ := h.place hk.2
  obtain ⟨n, hcall⟩ := h.perform_update (i := i) (show (Op.add k val).start = _ from rfl) hp
  have hiff : m.key runner = k ↔ k = intMax ∨ k ∈ listKeys m l := by
    rcases hk.2.eq_or_lt with rfl | hhigh
    · exact iff_of_true (le_antisymm (h.key_le hp) hp.high) (Or.inl rfl)
    · rw [← h.mem_keys_iff hp hhigh]
      exact ⟨Or.inr, fun hm => hm.resolve_left hhigh.ne⟩
  obtain ⟨pred, hpred⟩ : ∃ pred, pred = l₁.getLastD head := ⟨_, rfl⟩
  rw [← hpred] at hcall
  by_cases he : m.key runner = k
  · have hdecide : advance (m.lockBoth i pred runner) i (.add k val) (.decide pred runner) =
        some (m.lockBoth i pred runner, .goto (.unlockPred pred runner (some .false))) := by
      simp [advance, Memory.lockBoth, he]
    refine ⟨(m.lockBoth i pred runner).unlockBoth pred runner, l, ?_, h.refused pred runner, ?_⟩
    · rw [hcall, perform_goto hdecide, perform_unlock, if_pos (hiff.mp he)]
    · rw [if_pos (hiff.mp he)]
      simp [listKeys, Memory.lockBoth, Memory.unlockBoth]
  · have hdecide : advance (m.lockBoth i pred runner) i (.add k val) (.decide pred runner) =
        some (m.lockBoth i pred runner, .goto (.create pred runner)) := by
      simp [advance, Memory.lockBoth, he]
    obtain ⟨hne, hnew⟩ := not_or.mp (hiff.not.mp he)
    obtain ⟨hne, hnew⟩ := not_or.mp (hiff.not.mp he)
    obtain ⟨m₁, hm₁⟩ : ∃ m₁, m₁ = (((m.lockBoth i pred runner).create k val).setNext m.fresh
      (some runner)).setNext pred (some m.fresh) := ⟨_, rfl⟩
    have hkey : (m₁.unlockBoth pred runner).key = update m.key m.fresh k := by
      simp [hm₁, Memory.unlockBoth, Memory.lockBoth]
    refine ⟨m₁.unlockBoth pred runner, l₁ ++ m.fresh :: l₂, ?_,
      h.insert hp ⟨hk.1, lt_of_le_of_ne hk.2 hne⟩ hnew hkey ?_ ?_ ?_ ?_, ?_⟩
    · rw [hcall, perform_goto hdecide, perform_goto rfl, perform_goto rfl, perform_goto rfl,
        perform_unlock, if_neg (hiff.not.mp he), hm₁]
      rfl
    · rw [← hpred]
      simp [hm₁, Memory.unlockBoth, Memory.lockBoth]
    · simp [hm₁, Memory.unlockBoth, Memory.lockBoth]
    · simp [hm₁, Memory.unlockBoth, Memory.lockBoth]
    · refine lock_unlockBoth fun c h₁ h₂ => ?_
      simp only [hm₁, Memory.lock_setNext, Memory.lock_create, update_apply]
      split
      · rfl
      · exact lock_lockBoth h.unlocked h₁ h₂
    · rw [if_neg (hiff.not.mp he), hp.split]
      exact listKeys_insert (fun a ha => (h.old a ha).ne) hp.split hkey

/-- **`remove`** of any key but the last node's. -/
theorem Alone.remove (h : Alone m l tail) (hk : intMin ≤ k ∧ k < intMax) :
    ∃ m' l', m.call i (.remove k) = some (m', if k ∈ listKeys m l then .true else .false) ∧
      Alone m' l' tail ∧ (listKeys m' l').Perm ((listKeys m l).erase k) := by
  obtain ⟨l₁, l₂, runner, hp⟩ := h.place hk.2.le
  obtain ⟨n, hcall⟩ := h.perform_update (i := i) (show (Op.remove k).start = _ from rfl) hp
  have hiff := h.mem_keys_iff hp hk.2
  obtain ⟨pred, hpred⟩ : ∃ pred, pred = l₁.getLastD head := ⟨_, rfl⟩
  rw [← hpred] at hcall
  by_cases he : m.key runner = k
  · have hdecide : advance (m.lockBoth i pred runner) i (.remove k) (.decide pred runner) =
        some (m.lockBoth i pred runner, .goto (.mark pred runner)) := by
      simp [advance, Memory.lockBoth, he]
    obtain ⟨m₁, hm₁⟩ : ∃ m₁, m₁ = ((m.lockBoth i pred runner).setMarked runner).setNext pred
      (m.next runner) := ⟨_, rfl⟩
    have hkey : (m₁.unlockBoth pred runner).key = m.key := by
      simp [hm₁, Memory.unlockBoth, Memory.lockBoth]
    obtain ⟨l₃, rfl⟩ : ∃ l₃, l₂ = runner :: l₃ := by
      have hfirst := hp.first
      cases l₂ with
      | nil =>
        rw [hfirst, List.headD_nil, h.tailKey] at he
        exact absurd he hk.2.ne'
      | cons c l₃ => exact ⟨l₃, by rw [hfirst]; rfl⟩
    refine ⟨m₁.unlockBoth pred runner, l₁ ++ l₃, ?_, h.erase hp hkey ?_ ?_ ?_ ?_, ?_⟩
    · rw [hcall, perform_goto hdecide, perform_goto rfl, perform_goto rfl, perform_goto rfl,
        perform_unlock, if_pos (hiff.mpr he), hm₁]
      simp [Memory.lockBoth]
    · rw [← hpred]
      simp [hm₁, Memory.unlockBoth, Memory.lockBoth]
    · simp [hm₁, Memory.unlockBoth, Memory.lockBoth]
    · simp [hm₁, Memory.unlockBoth, Memory.lockBoth]
    · exact lock_unlockBoth fun c h₁ h₂ => by
        rw [hm₁, Memory.lock_setNext, Memory.lock_setMarked, lock_lockBoth h.unlocked h₁ h₂]
    · rw [listKeys, hkey, listKeys, hp.split, List.map_append, List.map_append, List.map_cons, he]
      have hperm : (l₁.map m.key ++ k :: l₃.map m.key).Perm (k :: (l₁.map m.key ++ l₃.map m.key)) :=
        List.perm_middle
      have herase := hperm.erase k
      rw [List.erase_cons_head] at herase
      exact herase.symm
  · have hdecide : advance (m.lockBoth i pred runner) i (.remove k) (.decide pred runner) =
        some (m.lockBoth i pred runner, .goto (.unlockPred pred runner (some .false))) := by
      simp [advance, Memory.lockBoth, he]
    refine ⟨(m.lockBoth i pred runner).unlockBoth pred runner, l, ?_, h.refused pred runner, ?_⟩
    · rw [hcall, perform_goto hdecide, perform_unlock, if_neg (hiff.not.mpr he)]
    · rw [List.erase_of_not_mem (hiff.not.mpr he)]
      simp [listKeys, Memory.lockBoth, Memory.unlockBoth]

/-- The last node can be removed. -/
theorem Alone.remove_last (h : Alone m l tail) :
    ∃ m', m.call i (.remove intMax) = some (m', .true) := by
  obtain ⟨l₁, l₂, runner, hp⟩ := h.place le_rfl
  obtain ⟨n, hcall⟩ := h.perform_update (i := i) (show (Op.remove intMax).start = _ from rfl) hp
  have he : m.key runner = intMax := le_antisymm (h.key_le hp) hp.high
  obtain ⟨pred, hpred⟩ : ∃ pred, pred = l₁.getLastD head := ⟨_, rfl⟩
  rw [← hpred] at hcall
  have hdecide : advance (m.lockBoth i pred runner) i (.remove intMax) (.decide pred runner) =
      some (m.lockBoth i pred runner, .goto (.mark pred runner)) := by
    simp [advance, Memory.lockBoth, he]
  rw [hcall, perform_goto hdecide, perform_goto rfl, perform_goto rfl, perform_goto rfl,
    perform_unlock]
  exact ⟨_, rfl⟩

theorem sizeLoop_linked (hl : Linked m.next a l tail) (ht : m.next tail = none) (size : Int) :
    m.sizeLoop (n + (l.length + 3)) (some a) size =
      some (Int.bmod (size + (l.length + 2 : Nat)) (2 ^ 32)) := by
  induction l generalizing a size with
  | nil =>
    have hn : m.next a = some tail := hl
    simp only [List.length_nil, Memory.sizeLoop, hn, ht, Int.bmod_add_bmod]
    norm_num [add_assoc]
  | cons c l ih =>
    rw [show n + ((c :: l).length + 3) = n + (l.length + 3) + 1 from rfl, Memory.sizeLoop, hl.1,
      ih hl.2, Int.bmod_add_bmod, List.length_cons]
    push_cast
    rw [show size + 1 + ((l.length : Int) + 2) = size + (l.length + 1 + 2) by omega]

theorem Alone.size (h : Alone m l tail) : m.size = some (Int.bmod l.length (2 ^ 32)) := by
  obtain ⟨n, hn⟩ := Nat.exists_eq_add_of_le' h.length_le
  rw [Memory.size, hn, Nat.add_assoc, sizeLoop_linked h.linked h.ended]
  push_cast
  rw [show -2 + ((l.length : Int) + 2) = l.length by omega]

end calls

/-! ## The set in a list -/

theorem new_alone : Alone (Memory.new : Memory ι) [] 1 where
  linked := rfl
  ended := rfl
  headKey := rfl
  tailKey := rfl
  sorted := .nil
  range := nofun
  head_notMem := nofun
  old a ha := by
    rcases List.mem_pair.mp ha with rfl | rfl
    · exact Nat.zero_lt_two
    · exact Nat.one_lt_two
  unmarked a ha := by
    rcases List.mem_pair.mp ha with rfl | rfl <;> rfl
  unlocked a := by
    simp only [Memory.lock, Memory.new]
    split <;> rfl

/-- Between calls, the list holds exactly these keys. -/
def Memory.Holds (m : Memory ι) (S : Finset Int) : Prop :=
  ∃ l tail, Alone m l tail ∧ (listKeys m l).toFinset = S

variable {S : Finset Int} {k : Int}

theorem Memory.Holds.new : (Memory.new : Memory ι).Holds ∅ := ⟨[], 1, new_alone, rfl⟩

theorem Alone.listKeys_nodup (h : Alone m l tail) : (listKeys m l).Nodup := by
  refine List.pairwise_map.mpr (h.sorted.imp fun hlt he => ?_)
  rw [he] at hlt
  exact lt_irrefl _ hlt

theorem Memory.Holds.contains (h : m.Holds S) (hk : intMin ≤ k ∧ k ≤ intMax) :
    m.call i (.contains k) =
      some (m, if k = intMin ∨ k = intMax ∨ k ∈ S then .true else .false) := by
  obtain ⟨l, tail, h, rfl⟩ := h
  simp only [h.contains hk, List.mem_toFinset]

theorem Memory.Holds.add (h : m.Holds S) (hk : intMin ≤ k ∧ k ≤ intMax) (val : Int) :
    ∃ m', m.call i (.add k val) = some (m', if k = intMax ∨ k ∈ S then .false else .true) ∧
      (k ≠ intMax → m'.Holds (insert k S)) := by
  obtain ⟨l, tail, h, rfl⟩ := h
  obtain ⟨m', l', hcall, h', hperm⟩ := h.add (i := i) hk val
  refine ⟨m', by simp only [hcall, List.mem_toFinset], fun hne => ⟨l', tail, h', ?_⟩⟩
  rw [List.toFinset_eq_of_perm _ _ hperm]
  by_cases hmem : k ∈ listKeys m l
  · rw [if_pos (Or.inr hmem), Finset.insert_eq_of_mem (List.mem_toFinset.mpr hmem)]
  · rw [if_neg (not_or.mpr ⟨hne, hmem⟩), List.toFinset_cons]

theorem Memory.Holds.remove (h : m.Holds S) (hk : intMin ≤ k ∧ k < intMax) :
    ∃ m', m.call i (.remove k) = some (m', if k ∈ S then .true else .false) ∧
      m'.Holds (S.erase k) := by
  obtain ⟨l, tail, h, rfl⟩ := h
  obtain ⟨m', l', hcall, h', hperm⟩ := h.remove (i := i) hk
  refine ⟨m', by simp only [hcall, List.mem_toFinset], l', tail, h', ?_⟩
  rw [List.toFinset_eq_of_perm _ _ hperm]
  ext x
  rw [List.mem_toFinset, h.listKeys_nodup.mem_erase_iff, Finset.mem_erase, List.mem_toFinset]

theorem Memory.Holds.remove_last (h : m.Holds S) :
    ∃ m', m.call i (.remove intMax) = some (m', .true) := by
  obtain ⟨l, tail, h, _⟩ := h
  exact h.remove_last

theorem Memory.Holds.size (h : m.Holds S) : m.size = some (Int.bmod S.card (2 ^ 32)) := by
  obtain ⟨l, tail, h, rfl⟩ := h
  rw [h.size, List.toFinset_card_of_nodup h.listKeys_nodup, listKeys, List.length_map]

end ConcurrentComputing.LazyList
