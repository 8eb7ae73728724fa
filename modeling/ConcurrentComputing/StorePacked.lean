import ConcurrentComputing.StoreMap
import Mathlib.Data.List.GetD

/-! # Tables a run can reach

Every run of calls, whatever its keys, keeps the table well formed; and a bucket
can be filled with any eight keys that hash to it, one insert after the other. -/

namespace ConcurrentComputing.Store

open CuckooPath Placement Runs

/-! ## Runs with any keys -/

theorem Cuckoo.remove_wellFormed {c : Cuckoo} (hc : c.WellFormed) (key : Word) :
    (c.remove key).2.buckets = c.buckets ∧ (c.remove key).2.WellFormed := by
  have hset : ∀ side slot, slot < entryWidth →
      (⟨c.buckets, c.table.setKey (hash c.buckets key side) slot 0⟩ : Cuckoo).WellFormed := by
    intro side slot hs
    have hi := hash_lt hc.pos key side
    refine ⟨⟨hc.pos, ?_⟩, ?_⟩ <;> rw [content_setKey hi hs]
    · exact hc.placed.erase
    · exact hc.unique.erase
  unfold remove
  dsimp only
  cases h1 : c.table.findSlot key (hash c.buckets key .one) with
  | some slot => exact ⟨rfl, hset .one slot (Table.findSlot_some h1).1⟩
  | none =>
    cases h2 : c.table.findSlot key (hash c.buckets key .two) with
    | some slot => exact ⟨rfl, hset .two slot (Table.findSlot_some h2).1⟩
    | none => exact ⟨rfl, hc⟩

/-- Every table a run of calls leads to is well formed, whatever the keys. -/
theorem run_wellFormed {buckets : Nat} (hb : 0 < buckets) {calls : List Call} {s : Session}
    (h : exec callStep (Cuckoo.new buckets, []) calls = some s) :
    s.1.buckets = buckets ∧ s.1.WellFormed := by
  refine exec_invariant (I := fun s => s.1.buckets = buckets ∧ s.1.WellFormed)
    ⟨rfl, .new hb⟩ ?_ h
  intro u ⟨op, rands, fuel⟩ t ⟨hub, hu⟩ hstep
  cases op with
  | insert element =>
    obtain ⟨⟨r, c'⟩, hi, rfl⟩ := Option.map_eq_some_iff.mp hstep
    obtain ⟨hb', hwf, _⟩ := Cuckoo.insert_spec hu hi
    exact ⟨hb'.trans hub, hwf⟩
  | remove key =>
    cases hstep
    obtain ⟨hb', hwf⟩ := Cuckoo.remove_wellFormed hu key
    exact ⟨hb'.trans hub, hwf⟩
  | contains key =>
    cases hstep
    exact ⟨hub, hu⟩

/-! ## Filling one bucket -/

/-- The table whose only nodes are the given ones, in the first slots of one
bucket. -/
def packed (buckets b : Nat) (elements : List Node) : Cuckoo :=
  ⟨buckets, ⟨fun p =>
    if p / entryWidth = b then elements.getD (p % entryWidth) ⟨0, 0⟩ else ⟨0, 0⟩⟩⟩

variable {buckets b : Nat} {elements : List Node} {element : Node}

theorem packed_getElement (idx : Nat) {slot : Nat} (hs : slot < entryWidth) :
    (packed buckets b elements).table.getElement idx slot =
      if idx = b then elements.getD slot ⟨0, 0⟩ else ⟨0, 0⟩ := by
  have hdiv : (idx * entryWidth + slot) / entryWidth = idx := by
    simp only [entryWidth] at *
    omega
  have hmod : (idx * entryWidth + slot) % entryWidth = slot := by
    simp only [entryWidth] at *
    omega
  simp only [packed, Table.getElement, hdiv, hmod]

theorem packed_nil : packed buckets b [] = Cuckoo.new buckets := by
  simp [packed, Cuckoo.new, Table.new]

theorem packed_missing (hk : element.key ≠ 0) (hn : ∀ a ∈ elements, a.key ≠ element.key)
    (idx : Nat) : (packed buckets b elements).table.findSlot element.key idx = none := by
  rw [Table.findSlot, List.find?_eq_none]
  intro i hi
  rw [packed_getElement idx (List.mem_range.mp hi)]
  split
  · by_cases hlt : i < elements.length
    · rw [List.getD_eq_getElem?_getD, List.getElem?_eq_getElem hlt]
      simpa using hn _ (List.getElem_mem hlt)
    · rw [List.getD_eq_getElem?_getD, List.getElem?_eq_none (by omega)]
      simpa using hk.symm
  · simpa using hk.symm

/-- The first slot that is not taken is the next one, if there is one. -/
theorem packed_isAvailable (hz : ∀ a ∈ elements, a.key ≠ 0) :
    (packed buckets b elements).table.isAvailable b =
      if elements.length < entryWidth then some elements.length else none := by
  have htaken : ∀ i < elements.length, i < entryWidth →
      Table.isOccupied ((packed buckets b elements).table.getElement b i) = true := by
    intro i hi hw
    rw [packed_getElement b hw, if_pos rfl, List.getD_eq_getElem?_getD,
      List.getElem?_eq_getElem hi, Table.isOccupied_iff]
    exact hz _ (List.getElem_mem hi)
  split
  · rename_i hlt
    rw [Table.isAvailable, List.find?_range_eq_some, packed_getElement b hlt, if_pos rfl,
      List.getD_eq_getElem?_getD, List.getElem?_eq_none (le_refl _)]
    refine ⟨rfl, List.mem_range.mpr hlt, fun j hj => ?_⟩
    simp [htaken j hj (by omega)]
  · rename_i hge
    rw [Table.isAvailable, List.find?_eq_none]
    intro i hi
    have hw := List.mem_range.mp hi
    simp [htaken i (by omega) hw]

theorem packed_setElement (hlen : elements.length < entryWidth) :
    (packed buckets b elements).table.setElement b elements.length element =
      (packed buckets b (elements ++ [element])).table := by
  unfold packed Table.setElement
  congr 1
  funext p
  rw [Function.update_apply]
  dsimp only
  by_cases hp : p / entryWidth = b
  · rw [if_pos hp, if_pos hp]
    have heq : p = b * entryWidth + elements.length ↔ p % entryWidth = elements.length := by
      simp only [entryWidth] at *
      omega
    rcases Nat.lt_trichotomy (p % entryWidth) elements.length with hlt | he | hgt
    · rw [if_neg (by rw [heq]; omega), List.getD_append _ _ _ _ hlt]
    · rw [if_pos (heq.mpr he), he, List.getD_append_right _ _ _ _ (le_refl _)]
      simp
    · rw [if_neg (by rw [heq]; omega)]
      simp only [List.getD_eq_getElem?_getD]
      rw [List.getElem?_eq_none (by omega), List.getElem?_eq_none (by simp; omega)]
  · rw [if_neg hp, if_neg hp, if_neg]
    intro he
    apply hp
    simp only [entryWidth] at *
    omega

/-- An insert into a bucket with room takes its next slot. -/
theorem packed_insert (hlen : elements.length < entryWidth) (hz : ∀ a ∈ elements, a.key ≠ 0)
    (hk : element.key ≠ 0) (hn : ∀ a ∈ elements, a.key ≠ element.key)
    (hb : hash buckets element.key .one = b) (rands : Nat → Nat → Nat) :
    (packed buckets b elements).insert element rands 1 =
      some (.true, packed buckets b (elements ++ [element])) := by
  have hcheck : (packed buckets b elements).firstCheck element.key b
      (hash buckets element.key .two) = some (.success .one b elements.length) := by
    unfold Cuckoo.firstCheck
    rw [packed_missing hk hn, packed_missing hk hn, packed_isAvailable hz, if_pos hlen]
  have hbuckets : (packed buckets b elements).buckets = buckets := rfl
  unfold Cuckoo.insert Cuckoo.insertLoop Cuckoo.insertAt
  rw [hbuckets, hb, hcheck]
  dsimp only
  rw [packed_setElement hlen]
  rfl

/-- With the bucket full, the insert goes to the first slot of the other one. -/
theorem packed_insert_second (hlen : elements.length = entryWidth)
    (hz : ∀ a ∈ elements, a.key ≠ 0) (hk : element.key ≠ 0)
    (hn : ∀ a ∈ elements, a.key ≠ element.key) (hb : hash buckets element.key .one = b)
    (hne : hash buckets element.key .two ≠ b) (rands : Nat → Nat → Nat) :
    (packed buckets b elements).insert element rands 1 = some (.true, ⟨buckets,
      (packed buckets b elements).table.setElement (hash buckets element.key .two) 0 element⟩) := by
  have hempty : (packed buckets b elements).table.isAvailable (hash buckets element.key .two) =
      some 0 := by
    rw [Table.isAvailable, List.find?_range_eq_some, packed_getElement _ (by decide), if_neg hne]
    exact ⟨rfl, by decide, fun j hj => absurd hj (Nat.not_lt_zero j)⟩
  have hcheck : (packed buckets b elements).firstCheck element.key b
      (hash buckets element.key .two) =
        some (.success .two (hash buckets element.key .two) 0) := by
    unfold Cuckoo.firstCheck
    rw [packed_missing hk hn, packed_missing hk hn, packed_isAvailable hz, if_neg (by omega),
      hempty]
  have hbuckets : (packed buckets b elements).buckets = buckets := rfl
  unfold Cuckoo.insert Cuckoo.insertLoop Cuckoo.insertAt
  rw [hbuckets, hb, hcheck]
  rfl

/-- Filling a bucket one insert after the other. -/
theorem run_packed (new : List Node) : ∀ (elements : List Node) (log : List (Op × Result)),
    (∀ a ∈ elements ++ new, a.key ≠ 0 ∧ hash buckets a.key .one = b) →
    ((elements ++ new).map Node.key).Nodup → (elements ++ new).length ≤ entryWidth →
    ∃ log', exec callStep (packed buckets b elements, log)
      (new.map fun element => { op := .insert element }) =
        some (packed buckets b (elements ++ new), log') := by
  induction new with
  | nil => intro elements log _ _ _; exact ⟨log, by simp⟩
  | cons element new ih =>
    intro elements log hkeys hnodup hlen
    rw [List.append_cons] at hkeys hnodup hlen ⊢
    have hn : ∀ a ∈ elements, a.key ≠ element.key := by
      intro a ha he
      rw [List.map_append, List.map_append, List.append_assoc, List.nodup_append] at hnodup
      exact hnodup.2.2 a.key (List.mem_map_of_mem ha) element.key (by simp) he
    have hroom : elements.length < entryWidth := by
      simp only [List.length_append, List.length_singleton] at hlen
      omega
    have hins := packed_insert hroom (fun a ha => (hkeys a (by simp [ha])).1)
      (hkeys element (by simp)).1 hn (hkeys element (by simp)).2 fun _ _ => 0
    obtain ⟨log', hrun⟩ := ih (elements ++ [element]) (log ++ [(.insert element, .true)])
      hkeys hnodup hlen
    refine ⟨log', ?_⟩
    rw [List.map_cons, exec_cons]
    exact ⟨_, by simp [callStep, hins], hrun⟩

end ConcurrentComputing.Store
