import ConcurrentComputing.LazyListAlone
import ConcurrentComputing.Runs
import Mathlib.Algebra.BigOperators.Ring.Finset

/-! # The hash map of lazy lists

`Persistence/KeyValueStore/ConcurrentHashMap.cpp`, called by one thread: every
bucket is a list, and a key goes to the bucket that its value as an unsigned
number leaves modulo the bucket count. -/

namespace ConcurrentComputing.HashMap

open Function Runs LazyList

structure ConcurrentHashMap where
  buckets : Nat
  map : Nat → Memory Unit

/-- `key % this -> buckets`: the key is converted to unsigned. -/
def translate (key : Int) (buckets : Nat) : Nat := (key % 2 ^ 32).toNat % buckets

namespace ConcurrentHashMap

def new (buckets : Nat) : ConcurrentHashMap := ⟨buckets, fun _ => .new⟩

/-- `contains`, `remove` and `add`: the call of that name on the key's list, whose
number has to be an `int`. -/
def call (h : ConcurrentHashMap) (op : Op) : Option (ConcurrentHashMap × Result) :=
  if (translate op.key h.buckets : Int) ≤ intMax then
    ((h.map (translate op.key h.buckets)).call () op).map fun (m, result) =>
      (⟨h.buckets, update h.map (translate op.key h.buckets) m⟩, result)
  else none

def size (h : ConcurrentHashMap) : Option Int :=
  (List.range h.buckets).foldlM
    (fun size i => (h.map i).size.map fun n => Int.bmod (size + n) (2 ^ 32)) 0

/-- The keys stored, each in its bucket. -/
def Represents (h : ConcurrentHashMap) (S : Finset Int) : Prop :=
  ∀ b < h.buckets, (h.map b).Holds (S.filter fun k => translate k h.buckets = b)

variable {h : ConcurrentHashMap} {S S' : Finset Int} {m : Memory Unit} {k : Int} {op : Op}

theorem Represents.new (buckets : Nat) : (new buckets).Represents ∅ := fun _ _ => .new

/-- The keys of one bucket. -/
theorem mem_bucket {b : Nat} : k ∈ S.filter (fun k => translate k h.buckets = b) ↔
    k ∈ S ∧ translate k h.buckets = b := Finset.mem_filter

/-- A call changes the list of its key only. -/
theorem Represents.update (hr : h.Represents S)
    (hm : m.Holds (S'.filter fun x => translate x h.buckets = translate k h.buckets))
    (hS : ∀ x, x ≠ k → (x ∈ S' ↔ x ∈ S)) :
    Represents ⟨h.buckets, Function.update h.map (translate k h.buckets) m⟩ S' := by
  intro b hb
  dsimp only
  by_cases he : b = translate k h.buckets
  · rwa [he, update_self]
  · rw [update_of_ne he]
    have hsame : (S'.filter fun x => translate x h.buckets = b) =
        S.filter fun x => translate x h.buckets = b := by
      ext x
      rw [mem_bucket, mem_bucket]
      refine and_congr_left fun hx => hS x ?_
      rintro rfl
      exact he hx.symm
    rw [hsame]
    exact hr b hb

/-- The bucket counts an `int` can run through. -/
def Countable (h : ConcurrentHashMap) : Prop := 0 < h.buckets ∧ (h.buckets : Int) ≤ intMax

theorem translate_lt (hb : h.Countable) (k : Int) : translate k h.buckets < h.buckets :=
  Nat.mod_lt _ hb.1

theorem call_eq (hb : h.Countable) (op : Op) : h.call op =
    ((h.map (translate op.key h.buckets)).call () op).map fun (m, result) =>
      (⟨h.buckets, Function.update h.map (translate op.key h.buckets) m⟩, result) := by
  have hlt := translate_lt hb op.key
  have hle := hb.2
  exact if_pos (by omega)

theorem Represents.contains (hr : h.Represents S) (hb : h.Countable)
    (hk : intMin ≤ k ∧ k ≤ intMax) : h.call (.contains k) =
      some (h, if k = intMin ∨ k = intMax ∨ k ∈ S then .true else .false) := by
  have hcall := (hr _ (translate_lt hb k)).contains (i := ()) hk
  simp only [call_eq hb, Op.key, hcall, Option.map_some, mem_bucket, and_true, update_eq_self]

theorem Represents.add (hr : h.Represents S) (hb : h.Countable)
    (hk : intMin ≤ k ∧ k ≤ intMax) (val : Int) :
    ∃ h', h.call (.add k val) = some (h', if k = intMax ∨ k ∈ S then .false else .true) ∧
      h'.Countable ∧ (k ≠ intMax → h'.Represents (insert k S)) := by
  obtain ⟨m, hcall, hm⟩ := (hr _ (translate_lt hb k)).add (i := ()) hk val
  refine ⟨⟨h.buckets, Function.update h.map (translate k h.buckets) m⟩, ?_, hb, fun hne => ?_⟩
  · simp only [call_eq hb, Op.key, hcall, Option.map_some, mem_bucket, and_true]
  · refine hr.update ?_ fun x hx => by simp [hx]
    have hsplit := Finset.filter_insert (fun x => translate x h.buckets = translate k h.buckets) k S
    rw [hsplit, if_pos rfl]
    exact hm hne

theorem Represents.remove (hr : h.Represents S) (hb : h.Countable)
    (hk : intMin ≤ k ∧ k < intMax) :
    ∃ h', h.call (.remove k) = some (h', if k ∈ S then .true else .false) ∧
      h'.Countable ∧ h'.Represents (S.erase k) := by
  obtain ⟨m, hcall, hm⟩ := (hr _ (translate_lt hb k)).remove (i := ()) hk
  refine ⟨⟨h.buckets, Function.update h.map (translate k h.buckets) m⟩, ?_, hb, ?_⟩
  · simp only [call_eq hb, Op.key, hcall, Option.map_some, mem_bucket, and_true]
  · refine hr.update ?_ fun x hx => by simp [hx]
    rwa [Finset.filter_erase]

theorem Represents.remove_last (hr : h.Represents S) (hb : h.Countable) :
    ∃ h', h.call (.remove intMax) = some (h', .true) := by
  obtain ⟨m, hcall⟩ := (hr _ (translate_lt hb intMax)).remove_last (i := ())
  exact ⟨⟨h.buckets, Function.update h.map (translate intMax h.buckets) m⟩, by
    simp only [call_eq hb, Op.key, hcall, Option.map_some]⟩

/-- What the lists count, as an `int`. -/
theorem sum_sizes {f : Nat → Option Int} {c : Nat → Nat} {n : Nat}
    (h : ∀ b < n, f b = some (Int.bmod (c b) (2 ^ 32))) :
    (List.range n).foldlM (fun size b => (f b).map fun k => Int.bmod (size + k) (2 ^ 32)) 0 =
      some (Int.bmod (∑ b ∈ Finset.range n, (c b : Int)) (2 ^ 32)) := by
  induction n with
  | zero => rfl
  | succ n ih =>
    rw [List.range_succ, List.foldlM_append, ih fun b hb => h b (hb.trans (Nat.lt_succ_self n))]
    simp [h n (Nat.lt_succ_self n), Finset.sum_range_succ]

/-- The keys are as many as those of the lists. -/
theorem card_buckets {buckets : Nat} (hb : 0 < buckets) (S : Finset Int) :
    (S.card : Int) =
      ∑ b ∈ Finset.range buckets, ((S.filter fun k => translate k buckets = b).card : Int) := by
  rw [← Nat.cast_sum]
  exact congrArg _ (Finset.card_eq_sum_card_fiberwise fun k _ =>
    Finset.mem_range.mpr (Nat.mod_lt _ hb))

/-- `size` adds up, as an `int`. -/
theorem Represents.size (hr : h.Represents S) (hb : h.Countable) :
    h.size = some (Int.bmod S.card (2 ^ 32)) := by
  rw [ConcurrentHashMap.size, sum_sizes fun b hlt => (hr b hlt).size, card_buckets hb.1]

end ConcurrentHashMap

/-! ## Runs of calls -/

/-- What a set answers to a call, and the set after it. -/
def Op.answer (S : Finset Int) : Op → Result × Finset Int
  | .add key _ => (if key ∈ S then .false else .true, insert key S)
  | .remove key => (if key ∈ S then .true else .false, S.erase key)
  | .contains key => (if key ∈ S then .true else .false, S)

/-- The answers of a set to a sequence of calls and the set after them. -/
def specRun (calls : List Op) : List Result × Finset Int :=
  calls.foldl (fun (answers, S) op =>
    (answers ++ [(Op.answer S op).1], (Op.answer S op).2)) ([], ∅)

/-- A map with the answers it has given. -/
abbrev Session := ConcurrentHashMap × List Result

def callStep (s : Session) (op : Op) : Option Session :=
  (s.1.call op).map fun (h, result) => (h, s.2 ++ [result])

/-- After the calls the map has answered as a set does, and has its size. -/
def Refines (buckets : Nat) (calls : List Op) : Prop :=
  ∃ h, exec callStep (.new buckets, []) calls = some (h, (specRun calls).1) ∧
    h.size = some ((specRun calls).2.card : Int)

/-- The condition on a call: its key is not the last node's, it is not the head's in
a `contains` that should not find it, and the keys can still be counted. -/
def Served (S : Finset Int) : Op → Prop
  | .add key _ => key ≠ intMax ∧ (key ∉ S → (S.card : Int) < intMax)
  | .remove key => key ≠ intMax
  | .contains key => key ≠ intMax ∧ (key = intMin → key ∈ S)

instance (S : Finset Int) (op : Op) : Decidable (Served S op) := by
  unfold Served
  split <;> infer_instance

def setStep (S : Finset Int) (op : Op) : Option (Finset Int) := some (Op.answer S op).2

theorem specRun_snoc (calls : List Op) (op : Op) :
    specRun (calls ++ [op]) = ((specRun calls).1 ++ [(Op.answer (specRun calls).2 op).1],
      (Op.answer (specRun calls).2 op).2) := by
  simp [specRun]

theorem exec_setStep (calls : List Op) : exec setStep ∅ calls = some (specRun calls).2 := by
  induction calls using List.reverseRecOn with
  | nil => rfl
  | append_singleton calls op ih => exact exec_snoc.mpr ⟨_, ih, by rw [specRun_snoc]; rfl⟩

/-- What is known of a map as long as the condition has been met. -/
structure Kept (h : ConcurrentHashMap) (S : Finset Int) : Prop where
  countable : h.Countable
  represents : h.Represents S
  last : intMax ∉ S
  card : (S.card : Int) ≤ intMax

variable {h : ConcurrentHashMap} {S : Finset Int} {op : Op}

/-- The size is right as long as it fits. -/
theorem size_iff (hr : h.Represents S) (hb : h.Countable) :
    h.size = some (S.card : Int) ↔ (S.card : Int) ≤ intMax := by
  rw [hr.size hb, Option.some.injEq]
  constructor
  · intro he
    have hlt : Int.bmod S.card (2 ^ 32) < (2 ^ 32 + 1) / 2 := Int.bmod_lt (by decide)
    rw [he] at hlt
    exact Int.le_sub_one_of_lt hlt
  · intro hle
    unfold intMax at hle
    exact Int.bmod_eq_of_le (by omega) (by omega)

/-- A call that meets the condition is answered as by a set. -/
theorem Kept.served (hs : Kept h S) (hk : intMin ≤ op.key ∧ op.key ≤ intMax) (hc : Served S op) :
    ∃ h', h.call op = some (h', (Op.answer S op).1) ∧ Kept h' (Op.answer S op).2 := by
  obtain ⟨hb, hr, hlast, hcard⟩ := hs
  cases op with
  | add k val =>
    change intMin ≤ k ∧ k ≤ intMax at hk
    obtain ⟨hne, hroom⟩ := hc
    obtain ⟨h', hcall, hb', hr'⟩ := hr.add hb hk val
    refine ⟨h', by simp only [hcall, hne, false_or, Op.answer], hb', hr' hne, ?_, ?_⟩
    · exact Finset.mem_insert.not.mpr (not_or.mpr ⟨hne.symm, hlast⟩)
    · by_cases hmem : k ∈ S
      · simpa only [Op.answer, Finset.insert_eq_of_mem hmem] using hcard
      · have hroom := hroom hmem
        simp only [Op.answer, Finset.card_insert_of_notMem hmem]
        omega
  | remove k =>
    change intMin ≤ k ∧ k ≤ intMax at hk
    obtain ⟨h', hcall, hb', hr'⟩ := hr.remove hb ⟨hk.1, lt_of_le_of_ne hk.2 hc⟩
    refine ⟨h', hcall, hb', hr', fun hmem => hlast (Finset.mem_of_mem_erase hmem), ?_⟩
    have hle := Finset.card_erase_le (s := S) (a := k)
    simp only [Op.answer]
    omega
  | contains k =>
    change intMin ≤ k ∧ k ≤ intMax at hk
    obtain ⟨hne, hmin⟩ := hc
    refine ⟨h, ?_, hb, hr, hlast, hcard⟩
    have hiff : k = intMin ∨ k = intMax ∨ k ∈ S ↔ k ∈ S :=
      ⟨fun hm => hm.elim hmin fun hm => hm.resolve_left hne, fun hm => Or.inr (Or.inr hm)⟩
    have hcall := hr.contains hb hk
    simp only [hiff] at hcall
    exact hcall

/-- A call that does not meet it is answered wrongly, or the size is wrong then. -/
theorem Kept.served_of (hs : Kept h S) (hk : intMin ≤ op.key ∧ op.key ≤ intMax)
    {h' : ConcurrentHashMap} (hcall : h.call op = some (h', (Op.answer S op).1))
    (hsize : h'.size = some ((Op.answer S op).2.card : Int)) : Served S op := by
  obtain ⟨hb, hr, hlast, hcard⟩ := hs
  cases op with
  | add k val =>
    change intMin ≤ k ∧ k ≤ intMax at hk
    obtain ⟨h'', hcall', hb', hr'⟩ := hr.add hb hk val
    obtain ⟨rfl, hans⟩ := Prod.mk.inj (Option.some.inj (hcall'.symm.trans hcall))
    have hne : k ≠ intMax := by
      rintro rfl
      rw [if_pos (Or.inl rfl), Op.answer, if_neg hlast] at hans
      cases hans
    refine ⟨hne, fun hmem => ?_⟩
    have hle := (size_iff (hr' hne) hb').mp hsize
    rw [Finset.card_insert_of_notMem hmem] at hle
    omega
  | remove k =>
    change intMin ≤ k ∧ k ≤ intMax at hk
    rintro rfl
    obtain ⟨h'', hcall'⟩ := hr.remove_last hb
    obtain ⟨_, hans⟩ := Prod.mk.inj (Option.some.inj (hcall'.symm.trans hcall))
    rw [Op.answer, if_neg hlast] at hans
    cases hans
  | contains k =>
    change intMin ≤ k ∧ k ≤ intMax at hk
    obtain ⟨_, hans⟩ := Prod.mk.inj (Option.some.inj ((hr.contains hb hk).symm.trans hcall))
    have hmem : (k = intMin ∨ k = intMax) → k ∈ S := by
      intro hk'
      by_contra hn
      rw [Op.answer, if_neg hn, if_pos (hk'.imp_right Or.inl)] at hans
      cases hans
    refine ⟨?_, fun he => hmem (Or.inl he)⟩
    rintro rfl
    exact hlast (hmem (Or.inr rfl))

theorem refines_snoc {buckets : Nat} {calls : List Op}
    (hrun : exec callStep (.new buckets, []) calls = some (h, (specRun calls).1)) :
    Refines buckets (calls ++ [op]) ↔
      ∃ h', h.call op = some (h', (Op.answer (specRun calls).2 op).1) ∧
        h'.size = some ((Op.answer (specRun calls).2 op).2.card : Int) := by
  unfold Refines
  rw [specRun_snoc]
  refine exists_congr fun h' => and_congr_left fun _ => ?_
  rw [exec_snoc]
  constructor
  · intro ⟨s, hs, hstep⟩
    obtain rfl := Option.some.inj (hrun.symm.trans hs)
    obtain ⟨⟨h'', result⟩, hcall, he⟩ := Option.map_eq_some_iff.mp hstep
    obtain ⟨rfl, hlog⟩ := Prod.mk.inj he
    rw [hcall, List.append_cancel_left_eq, List.cons.injEq] at *
    rw [hlog.1]
  · intro hcall
    exact ⟨_, hrun, by rw [callStep, hcall]; rfl⟩

theorem refines_take_snoc {buckets : Nat} {calls : List Op} :
    (∀ n, Refines buckets ((calls ++ [op]).take n)) ↔
      (∀ n, Refines buckets (calls.take n)) ∧ Refines buckets (calls ++ [op]) := by
  constructor
  · intro h
    refine ⟨fun n => ?_, ?_⟩
    · have hn := h (min n calls.length)
      rwa [List.take_append_of_le_length (Nat.min_le_right _ _), ← List.take_eq_take_min] at hn
    · have hn := h (calls ++ [op]).length
      rwa [List.take_length] at hn
  · intro ⟨h, hlast⟩ n
    rcases Nat.lt_or_ge calls.length n with hlt | hle
    · rwa [List.take_of_length_le (by simpa using Nat.succ_le_of_lt hlt)]
    · rw [List.take_append_of_le_length hle]
      exact h n

theorem meets_snoc {calls : List Op} : Meets setStep Served ∅ (calls ++ [op]) ↔
    Meets setStep Served ∅ calls ∧ Served (specRun calls).2 op := by
  rw [meets_append]
  refine and_congr_right fun _ => ⟨fun h => (h _ (exec_setStep calls)).1, fun h u hu => ?_⟩
  obtain rfl := Option.some.inj ((exec_setStep calls).symm.trans hu)
  exact ⟨h, fun _ _ => trivial⟩

/-- **Set refinement.** For every bucket count the map answers every call of a run as
a finite set does, with its size at any time, exactly when every call of the run
meets the condition. -/
theorem calls_refine_set_iff {buckets : Nat} (hb : 0 < buckets) (hmax : (buckets : Int) ≤ intMax)
    {calls : List Op} (hk : ∀ op ∈ calls, intMin ≤ op.key ∧ op.key ≤ intMax) :
    (∀ n, Refines buckets (calls.take n)) ↔ Meets setStep Served ∅ calls := by
  have key : ∀ calls : List Op, (∀ op ∈ calls, intMin ≤ op.key ∧ op.key ≤ intMax) →
      ((∀ n, Refines buckets (calls.take n)) ↔ Meets setStep Served ∅ calls) ∧
        (Meets setStep Served ∅ calls → ∃ h,
          exec callStep (.new buckets, []) calls = some (h, (specRun calls).1) ∧
            Kept h (specRun calls).2) := by
    intro calls
    induction calls using List.reverseRecOn with
    | nil =>
      intro _
      have hnew : Kept (.new buckets) ∅ :=
        ⟨⟨hb, hmax⟩, .new buckets, Finset.notMem_empty _, by decide⟩
      refine ⟨iff_of_true (fun n => ?_) trivial, fun _ => ⟨_, rfl, hnew⟩⟩
      rw [List.take_nil]
      exact ⟨_, rfl, (size_iff hnew.represents ⟨hb, hmax⟩).mpr hnew.card⟩
    | append_singleton calls op ih =>
      intro hk
      obtain ⟨hiff, hkept⟩ := ih fun op hop => hk op (by simp [hop])
      have hop := hk op (by simp)
      rw [refines_take_snoc, meets_snoc, hiff]
      refine ⟨and_congr_right fun hm => ?_, fun ⟨hm, hserved⟩ => ?_⟩
      · obtain ⟨h, hrun, hs⟩ := hkept hm
        rw [refines_snoc hrun]
        constructor
        · exact fun ⟨h', hcall, hsize⟩ => hs.served_of hop hcall hsize
        · intro hserved
          obtain ⟨h', hcall, hs'⟩ := hs.served hop hserved
          exact ⟨h', hcall, (size_iff hs'.represents hs'.countable).mpr hs'.card⟩
      · obtain ⟨h, hrun, hs⟩ := hkept hm
        obtain ⟨h', hcall, hs'⟩ := hs.served hop hserved
        rw [specRun_snoc]
        exact ⟨h', exec_snoc.mpr ⟨_, hrun, by rw [callStep, hcall]; rfl⟩, hs'⟩
  exact (key calls hk).1

/-- Two buckets, keys of either sign, and the head's own key. -/
def someCalls : List Op :=
  [.add (-1) 7, .add 5 1, .add 5 2, .add intMin 3, .contains intMin, .remove 5, .contains 5,
    .remove (-2)]

theorem calls_refine_set_some :
    (∀ n, Refines 2 (someCalls.take n)) ∧ Meets setStep Served ∅ someCalls := by
  have hmeets : Meets setStep Served ∅ someCalls := by decide
  exact ⟨(calls_refine_set_iff (by decide) (by decide) (by decide)).mpr hmeets, hmeets⟩

/-- The last node's key is refused, then taken out with the last node, and the next
traversal of that bucket follows its `NULL`. -/
def lastNodeCalls : List Op := [.add intMax 0, .remove intMax, .contains 7]

theorem last_node_removed : ¬ ∀ n, Refines 20 (lastNodeCalls.take n) := by
  intro h
  obtain ⟨h', hrun, _⟩ := h 3
  have hnone : (exec callStep (.new 20, []) (lastNodeCalls.take 3)).isSome = false := by
    decide +kernel
  rw [hrun] at hnone
  cases hnone

end ConcurrentComputing.HashMap
