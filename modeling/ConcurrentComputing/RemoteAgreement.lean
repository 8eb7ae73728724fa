import ConcurrentComputing.RemoteGet
import ConcurrentComputing.StorePacked

/-! # Where client and server agree on a key

One direction is the invariant of the store: a key is only ever in the two buckets
the server computes. For the other, a table is reached in which the key sits in
the bucket the client does not read: its primary bucket in an empty table, its
secondary one after eight other keys have filled the primary. -/

namespace ConcurrentComputing.Remote

open CuckooPath Placement Runs Store

/-- Nine keys of a primary bucket. -/
def primaryKeys (b : Nat) : List Word :=
  (List.range 9).map fun j => BitVec.ofNat 32 (b + size * (j + 1))

/-- Eight of them that are not the given one. -/
def fillers (b : Nat) (key : Word) : List Node :=
  (((primaryKeys b).erase key).take entryWidth).map fun k => ⟨k, 0⟩

theorem primaryKeys_toNat {b j : Nat} (hb : b < size) (hj : j < 9) :
    (BitVec.ofNat 32 (b + size * (j + 1))).toNat = b + size * (j + 1) := by
  simp only [BitVec.toNat_ofNat, size, entryWidth] at *
  omega

theorem primaryKeys_nodup {b : Nat} (hb : b < size) : (primaryKeys b).Nodup := by
  refine List.Nodup.map_on ?_ List.nodup_range
  intro i hi j hj he
  have h := congrArg BitVec.toNat he
  rw [primaryKeys_toNat hb (List.mem_range.mp hi), primaryKeys_toNat hb (List.mem_range.mp hj)] at h
  simp only [size, entryWidth] at h
  omega

theorem mem_primaryKeys {b : Nat} (hb : b < size) {k : Word} (hk : k ∈ primaryKeys b) :
    k ≠ 0 ∧ Store.hash size k .one = b := by
  obtain ⟨j, hj, rfl⟩ := List.mem_map.mp hk
  have ht := primaryKeys_toNat hb (List.mem_range.mp hj)
  refine ⟨fun h0 => ?_, ?_⟩
  · rw [h0] at ht
    change 0 = _ at ht
    simp only [size, entryWidth] at ht
    omega
  · rw [Store.hash, ht, Nat.add_mul_mod_self_left, Nat.mod_eq_of_lt hb]

theorem fillers_keys (b : Nat) (key : Word) :
    (fillers b key).map Node.key = ((primaryKeys b).erase key).take entryWidth := by
  rw [fillers, List.map_map]
  exact List.map_id _

theorem fillers_length {b : Nat} (key : Word) : (fillers b key).length = entryWidth := by
  have hle : (primaryKeys b).length - 1 ≤ ((primaryKeys b).erase key).length :=
    List.le_length_erase
  have h9 : (primaryKeys b).length = 9 := by simp [primaryKeys]
  simp only [fillers, List.length_map, List.length_take, entryWidth]
  omega

theorem mem_fillers {b : Nat} (hb : b < size) {key : Word} {a : Node} (ha : a ∈ fillers b key) :
    a.key ∈ primaryKeys b ∧ a.key ≠ key := by
  have hmem : a.key ∈ (fillers b key).map Node.key := List.mem_map_of_mem ha
  rw [fillers_keys] at hmem
  have := ((primaryKeys_nodup hb).mem_erase_iff).mp (List.mem_of_mem_take hmem)
  exact ⟨this.2, this.1⟩

/-- A table where the key is in the first slot of some bucket it hashes to. -/
theorem contains_of_getElement {c : Cuckoo} {key : Word} (side : Side) {slot : Nat}
    (hs : slot < entryWidth) (h : (c.table.getElement (Store.hash c.buckets key side) slot).key = key) :
    c.contains key = .true := by
  have hfind : c.table.find key (Store.hash c.buckets key side) = true :=
    Table.find_iff.mpr ⟨slot, hs, h⟩
  unfold Cuckoo.contains
  cases side <;> simp [hfind]

/-- In an empty table the key goes to its primary bucket. -/
theorem exists_only_in_primary {key : Word} (hk : key ≠ 0) :
    ∃ calls s, exec callStep (Cuckoo.new size, []) calls = some s ∧ s.1.contains key = .true ∧
      ∀ idx ≠ Store.hash size key .one, ∀ i < entryWidth,
        (s.1.table.getElement idx i).key ≠ key := by
  have hkeys : ∀ a ∈ ([] ++ [⟨key, 0⟩] : List Node),
      a.key ≠ 0 ∧ Store.hash size a.key .one = Store.hash size key .one := by
    intro a ha
    rw [List.nil_append, List.mem_singleton] at ha
    rw [ha]
    exact ⟨hk, rfl⟩
  obtain ⟨log, hrun⟩ := run_packed [⟨key, 0⟩] [] [] hkeys (by simp)
    (Nat.succ_le_of_lt (by decide))
  rw [packed_nil] at hrun
  refine ⟨_, _, hrun, contains_of_getElement .one entryWidth_pos ?_, ?_⟩
  · rw [packed_getElement _ (by decide)]
    exact congrArg Node.key (if_pos rfl)
  · intro idx hidx i hi
    rw [packed_getElement _ hi, if_neg hidx]
    exact hk.symm

/-- With its primary bucket full, the key goes to its secondary one. -/
theorem exists_only_in_secondary {key : Word} (hk : key ≠ 0)
    (hne : Store.hash size key .two ≠ Store.hash size key .one) :
    ∃ calls s, exec callStep (Cuckoo.new size, []) calls = some s ∧ s.1.contains key = .true ∧
      ∀ idx ≠ Store.hash size key .two, ∀ i < entryWidth,
        (s.1.table.getElement idx i).key ≠ key := by
  have hb : Store.hash size key .one < size := Store.hash_lt (by decide) key .one
  have hfill : ∀ a ∈ fillers (Store.hash size key .one) key,
      a.key ≠ 0 ∧ Store.hash size a.key .one = Store.hash size key .one := fun a ha =>
    mem_primaryKeys hb (mem_fillers hb ha).1
  have hkeys : ∀ a ∈ [] ++ fillers (Store.hash size key .one) key,
      a.key ≠ 0 ∧ Store.hash size a.key .one = Store.hash size key .one := by
    rw [List.nil_append]
    exact hfill
  obtain ⟨log, hrun⟩ := run_packed (fillers (Store.hash size key .one) key) [] [] hkeys
    (by
      rw [List.nil_append, fillers_keys]
      exact ((primaryKeys_nodup hb).erase key).sublist (List.take_sublist _ _))
    (by rw [List.nil_append, fillers_length])
  rw [packed_nil, List.nil_append] at hrun
  have hins := packed_insert_second (fillers_length key) (fun a ha => (hfill a ha).1)
    (show (⟨key, 0⟩ : Node).key ≠ 0 from hk) (fun a ha => (mem_fillers hb ha).2) rfl hne
    fun _ _ => 0
  dsimp only at hins
  have hlast : callStep (packed size (Store.hash size key .one)
      (fillers (Store.hash size key .one) key), log) { op := .insert ⟨key, 0⟩ } = some (⟨size,
        (packed size (Store.hash size key .one)
          (fillers (Store.hash size key .one) key)).table.setElement
            (Store.hash size key .two) 0 ⟨key, 0⟩⟩, log ++ [(.insert ⟨key, 0⟩, .true)]) := by
    simp only [callStep, hins, Option.map_some]
  refine ⟨_, _, exec_snoc.mpr ⟨_, hrun, hlast⟩,
    contains_of_getElement .two entryWidth_pos ?_, ?_⟩
  · rw [Table.getElement_setElement _ _ (by decide) (by decide)]
    exact congrArg Node.key (if_pos ⟨rfl, rfl⟩)
  · intro idx hidx i hi
    rw [Table.getElement_setElement _ _ (by decide) hi, if_neg fun h => hidx h.1,
      packed_getElement _ hi]
    split
    · rw [List.getD_eq_getElem _ _ (by rw [fillers_length]; exact hi)]
      exact (mem_fillers hb (List.getElem_mem _)).2
    · exact hk.symm

/-- A table can be reached that has the key in the bucket of either hash and in no
other bucket. -/
theorem exists_only_in {key : Word} (hk : key ≠ 0) (side : Side) :
    ∃ calls s, exec callStep (Cuckoo.new size, []) calls = some s ∧ s.1.contains key = .true ∧
      ∀ idx ≠ Store.hash size key side, ∀ i < entryWidth,
        (s.1.table.getElement idx i).key ≠ key := by
  cases side with
  | one => exact exists_only_in_primary hk
  | two =>
    by_cases heq : Store.hash size key .two = Store.hash size key .one
    · rw [heq]
      exact exists_only_in_primary hk
    · exact exists_only_in_secondary hk heq

/-- **The client's lookup.** For every non-zero key, `get` and `contains` agree on
all tables that runs of the store reach exactly when every bucket the server may
keep the key in is one of those the client reads. -/
theorem get_iff_contains (recovers : Bool) {key : Word} (hk : key ≠ 0) :
    (∀ calls s, exec callStep (Cuckoo.new size, []) calls = some s →
      (get recovers (.of s.1) key = .true ↔ s.1.contains key = .true)) ↔ Covers recovers key := by
  have hpos : 0 < size := by decide
  refine ⟨fun hall side => ?_, fun hcov calls s h => ?_⟩
  · by_contra hn
    obtain ⟨calls, s, h, hcont, honly⟩ := exists_only_in hk side
    obtain ⟨hb, _⟩ := run_wellFormed hpos h
    obtain ⟨idx, hidx, i, hi, he⟩ := (get_iff hb hk).mp ((hall calls s h).mpr hcont)
    exact honly idx (fun heq => hn (heq ▸ hidx)) i hi he
  · obtain ⟨hb, hwf⟩ := run_wellFormed hpos h
    rw [get_iff hb hk, Cuckoo.contains_iff hwf.toWellPlaced hk]
    refine ⟨fun ⟨idx, hidx, i, hi, he⟩ => ?_, fun ⟨val, ⟨idx, slot⟩, hmem⟩ => ?_⟩
    · exact ⟨_, _, Cuckoo.content_eq_some.mpr
        ⟨hb ▸ readBuckets_lt idx hidx, hi, Cuckoo.node_eq he, hk⟩⟩
    · obtain ⟨hhome, hs⟩ := hwf.placed _ _ hmem
      obtain ⟨_, _, he, _⟩ := Cuckoo.content_eq_some.mp hmem
      rw [hb] at hhome
      refine ⟨idx, ?_, slot, hs, by rw [he]⟩
      rcases hhome with hi | hi <;> dsimp only at hi <;> rw [hi]
      · exact hcov .one
      · exact hcov .two

/-- The two secondary hashes of 1 agree, and those of 3 do not: with its primary
bucket full, 3 goes where the client does not look. -/
theorem get_iff_contains_one :
    ((∀ calls s, exec callStep (Cuckoo.new size, []) calls = some s →
      (get true (.of s.1) 1 = .true ↔ s.1.contains 1 = .true)) ↔ Covers true 1) ∧ Covers true 1 :=
  ⟨get_iff_contains true (by decide), by decide +kernel⟩

/-- Eight keys that share the primary bucket of 3, then 3. -/
def displaceThree : List Call :=
  [125003, 250003, 375003, 500003, 625003, 750003, 875003, 1000003, 3].map fun k =>
    { op := .insert ⟨BitVec.ofNat 32 k, 1⟩ }

theorem get_misses_three :
    ¬ ∀ s, exec callStep (Cuckoo.new size, []) displaceThree = some s →
      ∀ recovers, get recovers (.of s.1) 3 = .true ↔ s.1.contains 3 = .true := by
  intro h
  have hrun : (exec callStep (Cuckoo.new size, []) displaceThree).map
      (fun s => (get true (.of s.1) 3, s.1.contains 3)) = some (.false, .true) := by
    decide +kernel
  obtain ⟨s, hs, hpair⟩ := Option.map_eq_some_iff.mp hrun
  obtain ⟨hget, hcont⟩ := Prod.mk.inj hpair
  have htrue := (h s hs true).mpr hcont
  rw [hget] at htrue
  cases htrue

end ConcurrentComputing.Remote
