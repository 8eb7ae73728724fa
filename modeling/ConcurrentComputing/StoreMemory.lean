import ConcurrentComputing.StorePacked
import Mathlib.Data.List.Find

/-! # The memory of the store

The constructor computes the size of the block as an `unsigned int`, an access its
offset as an `int`, and neither is checked. The table of the model has no end, so what
lies beyond the block, or beyond the offsets there are, may be anything: up to a bound
on the buckets it has no part in any call, and the calls are those of a map. -/

namespace ConcurrentComputing.Store

open CuckooPath Placement Runs

def intMax : Nat := 2 ^ 31 - 1

namespace Table

/-- The node at the offset is the table's, and the offset an `int`. -/
def Inside (size offset : Nat) : Prop := offset < allocated size ∧ offset ≤ intMax

instance (size offset : Nat) : Decidable (Inside size offset) := instDecidableAnd

/-- The table where all other memory holds something else. -/
def beside (t : Table) (size : Nat) (other : Nat → Node) : Table :=
  ⟨fun offset => if Inside size offset then t.elements offset else other offset⟩

variable {size idx slot : Nat} {t : Table} {other : Nat → Node} {key : Word}

/-- Up to the bound every slot of every bucket is inside. -/
theorem inside_of_lt (hsize : size * entryWidth < 2 ^ 31) (hi : idx < size)
    (hs : slot < entryWidth) : Inside size (idx * entryWidth + slot) := by
  unfold Inside allocated intMax entryWidth at *
  rw [Nat.mod_eq_of_lt (by omega)]
  omega

theorem getElement_beside (h : Inside size (idx * entryWidth + slot)) :
    (t.beside size other).getElement idx slot = t.getElement idx slot := if_pos h

theorem setElement_beside (element : Node) (h : Inside size (idx * entryWidth + slot)) :
    (t.beside size other).setElement idx slot element =
      (t.setElement idx slot element).beside size other := by
  refine congrArg Table.mk (funext fun offset => ?_)
  by_cases ho : offset = idx * entryWidth + slot
  · subst ho
    simp only [setElement, Function.update_self]
    exact (if_pos h).symm
  · simp only [beside, setElement, Function.update_of_ne ho]

theorem setKey_beside (key : Word) (h : Inside size (idx * entryWidth + slot)) :
    (t.beside size other).setKey idx slot key = (t.setKey idx slot key).beside size other := by
  unfold setKey
  rw [getElement_beside h, setElement_beside _ h]

section

variable (hbucket : ∀ slot < entryWidth, Inside size (idx * entryWidth + slot))
include hbucket

theorem find_beside : (t.beside size other).find key idx = t.find key idx := by
  unfold find
  refine Bool.eq_iff_iff.mpr ?_
  simp only [List.any_eq_true, List.mem_range]
  exact exists_congr fun i => and_congr_right fun hi => by rw [getElement_beside (hbucket i hi)]

theorem findSlot_beside : (t.beside size other).findSlot key idx = t.findSlot key idx := by
  unfold findSlot
  refine List.find?_congr fun i hi => ?_
  rw [getElement_beside (hbucket i (List.mem_range.mp hi))]

theorem isAvailable_beside : (t.beside size other).isAvailable idx = t.isAvailable idx := by
  unfold isAvailable
  refine List.find?_congr fun i hi => ?_
  rw [getElement_beside (hbucket i (List.mem_range.mp hi))]

end

end Table

namespace Cuckoo

/-- The store where all memory but the table's holds something else. -/
def beside (c : Cuckoo) (other : Nat → Node) : Cuckoo :=
  { c with table := c.table.beside c.buckets other }

variable {c c' : Cuckoo} {other : Nat → Node} {key : Word} {idx1 idx2 : Nat}

/-- The slots of every bucket are inside. -/
theorem bucket_inside (hc : c.buckets * entryWidth < 2 ^ 31) {idx : Nat} (hi : idx < c.buckets) :
    ∀ slot < entryWidth, Table.Inside c.buckets (idx * entryWidth + slot) :=
  fun _ hs => Table.inside_of_lt hc hi hs

theorem firstCheck_beside (hc : c.buckets * entryWidth < 2 ^ 31) (h1 : idx1 < c.buckets)
    (h2 : idx2 < c.buckets) :
    (c.beside other).firstCheck key idx1 idx2 = c.firstCheck key idx1 idx2 := by
  have hb1 := bucket_inside hc h1
  have hb2 := bucket_inside hc h2
  simp only [firstCheck, beside, Table.findSlot_beside hb1, Table.findSlot_beside hb2,
    Table.isAvailable_beside hb1, Table.isAvailable_beside hb2]

theorem findPath_beside (hc : c.buckets * entryWidth < 2 ^ 31) (h1 : idx1 < c.buckets)
    (h2 : idx2 < c.buckets) (rand : Nat → Nat) :
    findPath (c.beside other).scheme (.still (c.beside other).view) rand idx1 idx2 =
      findPath c.scheme (.still c.view) rand idx1 idx2 := by
  have hview : ∀ side, ∀ idx < c.buckets, ∀ slot < entryWidth,
      (c.beside other).view side idx slot = c.view side idx slot := fun _ idx hi slot hs =>
    congrArg Node.key (Table.getElement_beside (bucket_inside hc hi slot hs))
  have hpos : 0 < c.buckets := Nat.zero_lt_of_lt h1
  exact findPath_congr (g := c.scheme) entryWidth_pos (fun key side => hash_lt hpos key side) h1 h2
    (fun _ _ => hview) (fun _ => hview)

theorem displace_beside (hc : c.buckets * entryWidth < 2 ^ 31) {dst src : Hop}
    (hd : dst.index < c.buckets ∧ dst.slot < entryWidth)
    (hs : src.index < c.buckets ∧ src.slot < entryWidth) :
    (c.beside other).displace dst src = (c.displace dst src).map (·.beside other) := by
  have hdst := Table.inside_of_lt hc hd.1 hd.2
  have hsrc := Table.inside_of_lt hc hs.1 hs.2
  simp only [displace, beside, Table.getElement_beside hdst, Table.getElement_beside hsrc,
    Table.setElement_beside _ hdst, Table.setKey_beside _ hsrc]
  split <;> rfl

theorem displaceAll_beside : ∀ {path : List Hop} {c : Cuckoo}, c.buckets * entryWidth < 2 ^ 31 →
    (∀ hop ∈ path, hop.index < c.buckets ∧ hop.slot < entryWidth) →
    (c.beside other).displaceAll path = (c.displaceAll path).map id (·.beside other)
  | [], c, _, _ => rfl
  | [hop], c, _, _ => rfl
  | dst :: src :: path, c, hc, hpath => by
    have hd := hpath dst (by simp)
    have hs := hpath src (by simp)
    simp only [displaceAll, displace_beside hc hd hs]
    cases hdisplace : c.displace dst src with
    | none => rfl
    | some d =>
      obtain ⟨hb, -⟩ := displace_spec hd hs hdisplace
      exact displaceAll_beside (hb ▸ hc) fun hop hmem =>
        hb.symm ▸ hpath hop (List.mem_cons_of_mem _ hmem)

theorem insertAt_beside (hc : c.buckets * entryWidth < 2 ^ 31) (h1 : idx1 < c.buckets)
    (h2 : idx2 < c.buckets) (rand : Nat → Nat) :
    (c.beside other).insertAt key idx1 idx2 rand =
      (c.insertAt key idx1 idx2 rand).map id (·.beside other) := by
  unfold insertAt
  rw [firstCheck_beside hc h1 h2, findPath_beside hc h1 h2]
  cases c.firstCheck key idx1 idx2 with
  | some r => rfl
  | none =>
    cases hp : findPath c.scheme (.still c.view) rand idx1 idx2 with
    | none => rfl
    | some path =>
      have hbounds := (path_good (Nat.zero_lt_of_lt h1) h1 h2 hp).bounds
      rcases path with _ | ⟨hop, _ | ⟨src, path⟩⟩
      · rfl
      · obtain ⟨hi, hs⟩ := hbounds hop List.mem_cons_self
        dsimp only [Prod.map]
        simp only [claim, beside, Table.getElement_beside (Table.inside_of_lt hc hi hs), id]
      · exact displaceAll_beside hc hbounds

theorem insertLoop_beside {element : Node} {rands : Nat → Nat → Nat} :
    ∀ {fuel n : Nat} {c : Cuckoo}, c.buckets * entryWidth < 2 ^ 31 → idx1 < c.buckets →
      idx2 < c.buckets → insertLoop element idx1 idx2 rands fuel n (c.beside other) =
        (insertLoop element idx1 idx2 rands fuel n c).map (Prod.map id (·.beside other)) := by
  intro fuel
  induction fuel with
  | zero => exact fun _ _ _ => rfl
  | succ fuel ih =>
    intro n c hc h1 h2
    simp only [insertLoop, insertAt_beside hc h1 h2]
    cases hres : c.insertAt element.key idx1 idx2 (rands n) with
    | mk res d =>
      obtain ⟨hb, -, hcase⟩ := insertAt_spec (Nat.zero_lt_of_lt h1) h1 h2 hres
      have hwrite : ∀ idx slot, Bucket idx1 idx2 idx → slot < entryWidth →
          (d.table.beside d.buckets other).setElement idx slot element =
            (d.table.setElement idx slot element).beside d.buckets other := fun idx slot hi hs =>
        Table.setElement_beside _ (Table.inside_of_lt (hb ▸ hc) (hb.symm ▸ hi.lt h1 h2) hs)
      rcases hcase with ⟨side, idx, slot, rfl, rfl, hi, hs, -⟩ | ⟨rfl, -⟩ | ⟨rfl, -⟩ |
        ⟨side, idx, slot, rfl, -, hi, hs, -⟩
      · simp only [Prod.map, id, beside, hwrite idx slot hi hs, Option.map_some]
      · rfl
      · exact ih (hb.symm ▸ hc) (hb.symm ▸ h1) (hb.symm ▸ h2)
      · simp only [Prod.map, id, beside, hwrite idx slot hi hs, Option.map_some]

/-- The public insert keeps to the memory of the table. -/
theorem insert_beside (hc : c.buckets * entryWidth < 2 ^ 31) (hpos : 0 < c.buckets)
    (element : Node) (rands : Nat → Nat → Nat) (fuel : Nat) :
    (c.beside other).insert element rands fuel =
      (c.insert element rands fuel).map (Prod.map id (·.beside other)) :=
  insertLoop_beside hc (hash_lt hpos element.key .one) (hash_lt hpos element.key .two)

theorem remove_eq (c : Cuckoo) (key : Word) : c.remove key =
    match c.table.findSlot key (hash c.buckets key .one) with
    | some slot => (.true, { c with table := c.table.setKey (hash c.buckets key .one) slot 0 })
    | none => match c.table.findSlot key (hash c.buckets key .two) with
      | some slot => (.true, { c with table := c.table.setKey (hash c.buckets key .two) slot 0 })
      | none => (.false, c) := rfl

theorem remove_beside (hc : c.buckets * entryWidth < 2 ^ 31) (hpos : 0 < c.buckets) (key : Word) :
    (c.beside other).remove key = (c.remove key).map id (·.beside other) := by
  have hfirst : (c.beside other).table.findSlot key (hash (c.beside other).buckets key .one) =
      c.table.findSlot key (hash c.buckets key .one) :=
    Table.findSlot_beside (bucket_inside hc (hash_lt hpos key .one))
  have hsecond : (c.beside other).table.findSlot key (hash (c.beside other).buckets key .two) =
      c.table.findSlot key (hash c.buckets key .two) :=
    Table.findSlot_beside (bucket_inside hc (hash_lt hpos key .two))
  have herase : ∀ side, ∀ slot < entryWidth, (⟨c.buckets, (c.table.beside c.buckets other).setKey
      (hash c.buckets key side) slot 0⟩ : Cuckoo) =
        (⟨c.buckets, c.table.setKey (hash c.buckets key side) slot 0⟩ : Cuckoo).beside other :=
    fun side slot hs => congrArg (Cuckoo.mk c.buckets)
      (Table.setKey_beside _ (bucket_inside hc (hash_lt hpos key side) slot hs))
  rw [remove_eq, remove_eq, hfirst, hsecond]
  cases hf1 : c.table.findSlot key (hash c.buckets key .one) with
  | some slot => exact Prod.ext rfl (herase .one slot (Table.findSlot_some hf1).1)
  | none =>
    cases hf2 : c.table.findSlot key (hash c.buckets key .two) with
    | some slot => exact Prod.ext rfl (herase .two slot (Table.findSlot_some hf2).1)
    | none => rfl

theorem contains_beside (hc : c.buckets * entryWidth < 2 ^ 31) (hpos : 0 < c.buckets) (key : Word) :
    (c.beside other).contains key = c.contains key := by
  have h1 := bucket_inside hc (hash_lt hpos key .one)
  have h2 := bucket_inside hc (hash_lt hpos key .two)
  simp only [contains, beside, Table.find_beside h1, Table.find_beside h2]

theorem size_beside (hc : c.buckets * entryWidth < 2 ^ 31) : (c.beside other).size = c.size := by
  refine List.foldl_ext _ _ _ fun size i hi => List.foldl_ext _ _ _ fun size j hj => ?_
  have hinside := bucket_inside hc (List.mem_range.mp hi) j (List.mem_range.mp hj)
  rw [beside, Table.getElement_beside hinside]

theorem size_le (c : Cuckoo) : c.size ≤ c.buckets * entryWidth := by
  have hcells : (cells c.buckets).card = c.buckets * entryWidth := by
    rw [cells, Finset.card_product, Finset.card_range, Finset.card_range]
  rw [size_eq_tally, tally, ← hcells]
  exact Finset.card_filter_le _ _

end Cuckoo

/-- The session beside something else. -/
def Session.beside (s : Session) (other : Nat → Node) : Session := (s.1.beside other, s.2)

variable {buckets : Nat}

theorem callStep_beside {s : Session} (hc : s.1.buckets * entryWidth < 2 ^ 31)
    (hpos : 0 < s.1.buckets) (other : Nat → Node) (call : Call) :
    callStep (s.beside other) call = (callStep s call).map (·.beside other) := by
  obtain ⟨op, rands, fuel⟩ := call
  cases op with
  | insert element =>
    change ((s.1.beside other).insert element rands fuel).map _ =
      ((s.1.insert element rands fuel).map _).map _
    rw [Cuckoo.insert_beside hc hpos, Option.map_map, Option.map_map]
    rfl
  | remove key =>
    simp only [callStep, Session.beside, Cuckoo.remove_beside hc hpos, Option.map_some, Prod.map,
      id]
  | contains key =>
    simp only [callStep, Session.beside, Cuckoo.contains_beside hc hpos, Option.map_some]

/-! ## Filling the table -/

/-- The number that comes to the slot when the numbers from one on are dealt to the
buckets, each to the one that it leaves modulo their count. -/
def turn (buckets idx slot : Nat) : Nat := slot * buckets + if idx = 0 then buckets else idx

/-- The table in which the first `m` numbers have been dealt. -/
def dealt (buckets m : Nat) : Cuckoo :=
  ⟨buckets, ⟨fun p => if p / entryWidth < buckets ∧
    turn buckets (p / entryWidth) (p % entryWidth) ≤ m then
      ⟨BitVec.ofNat 32 (turn buckets (p / entryWidth) (p % entryWidth)), 0⟩ else ⟨0, 0⟩⟩⟩

variable {m idx slot : Nat}

theorem turn_pos (hb : 0 < buckets) (idx slot : Nat) : 1 ≤ turn buckets idx slot := by
  unfold turn
  split <;> omega

theorem turn_eq_iff (hb : 0 < buckets) (hi : idx < buckets) :
    turn buckets idx slot = m + 1 ↔ idx = (m + 1) % buckets ∧ slot = m / buckets := by
  have hm := Nat.div_add_mod' m buckets
  have hr := Nat.mod_lt m hb
  have hmod : (m + 1) % buckets = if m % buckets + 1 = buckets then 0 else m % buckets + 1 := by
    rw [← Nat.mod_add_mod]
    split
    · rename_i he
      rw [he, Nat.mod_self]
    · exact Nat.mod_eq_of_lt (by omega)
  rw [hmod]
  unfold turn
  constructor
  · intro h
    have hslot : slot = m / buckets := by
      have hsplit : m = slot * buckets + ((if idx = 0 then buckets else idx) - 1) := by
        by_cases hz : idx = 0
        · rw [if_pos hz] at h ⊢
          omega
        · rw [if_neg hz] at h ⊢
          omega
      rw [hsplit, Nat.mul_comm, Nat.mul_add_div hb, Nat.div_eq_of_lt (by split <;> omega),
        Nat.add_zero]
    subst hslot
    refine ⟨?_, rfl⟩
    split at h <;> split <;> omega
  · rintro ⟨rfl, rfl⟩
    split <;> split <;> omega

/-- Each number fills the first empty slot of its bucket. -/
theorem turn_lt (h : turn buckets idx slot = m + 1) {j : Nat} (hj : j < slot) (hi : idx < buckets) :
    turn buckets idx j ≤ m := by
  have hle := Nat.mul_le_mul_right buckets hj
  rw [Nat.succ_mul] at hle
  unfold turn at *
  by_cases hz : idx = 0
  · rw [if_pos hz] at h ⊢
    omega
  · rw [if_neg hz] at h ⊢
    omega

theorem dealt_getElement (hi : idx < buckets) (hs : slot < entryWidth) :
    (dealt buckets m).table.getElement idx slot = if turn buckets idx slot ≤ m then
      ⟨BitVec.ofNat 32 (turn buckets idx slot), 0⟩ else ⟨0, 0⟩ := by
  have hdiv : (idx * entryWidth + slot) / entryWidth = idx := by
    simp only [entryWidth] at *
    omega
  have hmod : (idx * entryWidth + slot) % entryWidth = slot := by
    simp only [entryWidth] at *
    omega
  simp only [dealt, Table.getElement, hdiv, hmod, hi, true_and]

theorem dealt_zero (hb : 0 < buckets) : dealt buckets 0 = Cuckoo.new buckets := by
  have hnone : ∀ idx slot, ¬ turn buckets idx slot ≤ 0 := fun idx slot =>
    Nat.not_le.mpr (turn_pos hb idx slot)
  simp only [dealt, hnone, and_false, if_false]
  rfl

theorem dealt_key (hm : m < 2 ^ 32) (hi : idx < buckets) (hs : slot < entryWidth) :
    ((dealt buckets m).table.getElement idx slot).key.toNat =
      if turn buckets idx slot ≤ m then turn buckets idx slot else 0 := by
  rw [dealt_getElement hi hs]
  split
  · exact Nat.mod_eq_of_lt (by omega)
  · rfl

theorem dealt_setElement (hb : 0 < buckets) (hm : m < buckets * entryWidth) :
    (dealt buckets m).table.setElement ((m + 1) % buckets) (m / buckets)
      ⟨BitVec.ofNat 32 (m + 1), 0⟩ = (dealt buckets (m + 1)).table := by
  have hi := Nat.mod_lt (m + 1) hb
  have hs : m / buckets < entryWidth := Nat.div_lt_of_lt_mul hm
  have hturn := (turn_eq_iff (m := m) hb hi).mpr ⟨rfl, rfl⟩
  refine congrArg Table.mk (funext fun p => ?_)
  rw [Function.update_apply]
  split
  · rename_i hp
    have hdiv : p / entryWidth = (m + 1) % buckets := by
      rw [hp, Nat.mul_comm, Nat.mul_add_div entryWidth_pos, Nat.div_eq_of_lt hs, Nat.add_zero]
    have hmod : p % entryWidth = m / buckets := by
      rw [hp, Nat.mul_add_mod_of_lt hs]
    rw [hdiv, hmod, hturn, if_pos ⟨hi, le_rfl⟩]
  · rename_i hp
    have hiff : (p / entryWidth < buckets ∧ turn buckets (p / entryWidth) (p % entryWidth) ≤ m) ↔
        p / entryWidth < buckets ∧ turn buckets (p / entryWidth) (p % entryWidth) ≤ m + 1 := by
      refine and_congr_right fun hlt => ⟨Nat.le_succ_of_le, fun hle => ?_⟩
      refine Nat.le_of_lt_succ (Nat.lt_of_le_of_ne hle fun he => hp ?_)
      obtain ⟨hdiv, hmod⟩ := (turn_eq_iff hb hlt).mp he
      rw [← hdiv, ← hmod]
      exact (Nat.div_add_mod' p entryWidth).symm
    exact if_congr hiff rfl rfl

/-- The next number goes to the first empty slot of its first bucket. -/
theorem dealt_insert (hb : 0 < buckets) (hm : m < buckets * entryWidth)
    (hbuckets : buckets * entryWidth ≤ 2 ^ 31) (rands : Nat → Nat → Nat) :
    (dealt buckets m).insert ⟨BitVec.ofNat 32 (m + 1), 0⟩ rands 1 =
      some (.true, dealt buckets (m + 1)) := by
  have hword : (BitVec.ofNat 32 (m + 1)).toNat = m + 1 := Nat.mod_eq_of_lt (by omega)
  have hfirst : hash buckets (BitVec.ofNat 32 (m + 1)) .one = (m + 1) % buckets :=
    congrArg (· % buckets) hword
  have hsecond := hash_lt hb (BitVec.ofNat 32 (m + 1)) .two
  have hi := Nat.mod_lt (m + 1) hb
  have hs : m / buckets < entryWidth := Nat.div_lt_of_lt_mul hm
  have hturn := (turn_eq_iff (m := m) hb hi).mpr ⟨rfl, rfl⟩
  have hmissing : ∀ idx < buckets,
      (dealt buckets m).table.findSlot (BitVec.ofNat 32 (m + 1)) idx = none := by
    intro idx hidx
    refine List.find?_eq_none.mpr fun slot hslot => ?_
    have hkey := dealt_key (m := m) (by omega) hidx (List.mem_range.mp hslot)
    rw [beq_iff_eq]
    intro he
    rw [he, hword] at hkey
    split at hkey <;> omega
  have hroom : (dealt buckets m).table.isAvailable ((m + 1) % buckets) = some (m / buckets) := by
    refine List.find?_range_eq_some.mpr ⟨?_, List.mem_range.mpr hs, fun j hj => ?_⟩
    · rw [dealt_getElement hi hs, if_neg (by omega)]
      rfl
    · have hkey := dealt_key (m := m) (by omega) hi (hj.trans hs)
      rw [if_pos (turn_lt hturn hj hi)] at hkey
      have hpos := turn_pos hb ((m + 1) % buckets) j
      simp only [Bool.not_not, Table.isOccupied_iff]
      intro he
      rw [he] at hkey
      exact absurd hkey.symm (Nat.ne_of_gt hpos)
  have hcheck : (dealt buckets m).firstCheck (BitVec.ofNat 32 (m + 1)) ((m + 1) % buckets)
      (hash buckets (BitVec.ofNat 32 (m + 1)) .two) =
        some (.success .one ((m + 1) % buckets) (m / buckets)) := by
    unfold Cuckoo.firstCheck
    rw [hmissing _ hi, hmissing _ hsecond, hroom]
  have hsame : (dealt buckets m).buckets = buckets := rfl
  unfold Cuckoo.insert Cuckoo.insertLoop Cuckoo.insertAt
  rw [hsame, hfirst, hcheck]
  dsimp only
  rw [dealt_setElement hb hm]
  rfl

/-- The inserts of the numbers from one on. -/
def deals (m : Nat) : List Call :=
  (List.range m).map fun k => { op := .insert ⟨BitVec.ofNat 32 (k + 1), 0⟩ }

theorem run_dealt (hb : 0 < buckets) (hbuckets : buckets * entryWidth ≤ 2 ^ 31)
    (hm : m ≤ buckets * entryWidth) :
    ∃ log, exec callStep (Cuckoo.new buckets, []) (deals m) = some (dealt buckets m, log) := by
  induction m with
  | zero => exact ⟨[], by rw [dealt_zero hb]; rfl⟩
  | succ m ih =>
    obtain ⟨log, hrun⟩ := ih (Nat.le_of_succ_le hm)
    refine ⟨log ++ [(.insert ⟨BitVec.ofNat 32 (m + 1), 0⟩, .true)], ?_⟩
    rw [deals, List.range_succ, List.map_append, List.map_singleton]
    refine exec_snoc.mpr ⟨_, hrun, ?_⟩
    simp only [callStep, dealt_insert hb hm hbuckets, Option.map_some]

/-- Dealt to the last slot, the table is full. -/
theorem dealt_size (hb : 0 < buckets) (hbuckets : buckets * entryWidth ≤ 2 ^ 31) :
    (dealt buckets (buckets * entryWidth)).size = buckets * entryWidth := by
  have hfull : ∀ cell ∈ cells buckets, ((dealt buckets (buckets * entryWidth)).content cell).any
      (fun _ => true) = true := by
    rintro ⟨idx, slot⟩ hcell
    obtain ⟨hi, hs⟩ := mem_cells.mp hcell
    have hturn : turn buckets idx slot ≤ buckets * entryWidth := by
      have hle : (slot + 1) * buckets ≤ entryWidth * buckets := Nat.mul_le_mul_right buckets hs
      rw [Nat.succ_mul, Nat.mul_comm entryWidth] at hle
      unfold turn
      split <;> omega
    have hkey := dealt_key (m := buckets * entryWidth) (by omega) hi hs
    rw [if_pos hturn] at hkey
    have hsome := Cuckoo.content_eq_some.mpr ⟨hi, hs, rfl, fun h0 => by
      rw [h0] at hkey
      exact absurd hkey.symm (Nat.ne_of_gt (turn_pos hb idx slot))⟩
    rw [hsome]
    rfl
  rw [Cuckoo.size_eq_tally, tally]
  change ((cells buckets).filter _).card = _
  rw [Finset.filter_true_of_mem hfull, cells, Finset.card_product, Finset.card_range,
    Finset.card_range]

theorem deals_key (hm : m < 2 ^ 32) : ∀ call ∈ deals m, call.op.key ≠ 0 := by
  intro call hmem
  obtain ⟨k, hk, rfl⟩ := List.mem_map.mp hmem
  have hlt := List.mem_range.mp hk
  intro h0
  have hnat := congrArg BitVec.toNat h0
  change (k + 1) % 2 ^ 32 = 0 at hnat
  rw [Nat.mod_eq_of_lt (by omega)] at hnat
  exact Nat.succ_ne_zero k hnat

/-! ## The calls on the memory there is -/

/-- What the store is to be for every run of calls, the elements of the table being the
memory that the constructor has allocated and `size` an `int`. -/
structure RefinesMap (buckets : Nat) : Prop where
  /-- No other memory is read or written. -/
  inside : ∀ calls : List Call, (∀ call ∈ calls, call.op.key ≠ 0) → ∀ other,
    exec callStep ((Cuckoo.new buckets).beside other, []) calls =
      (exec callStep (Cuckoo.new buckets, []) calls).map (·.beside other)
  refines : ∀ (calls : List Call) (s : Session), (∀ call ∈ calls, call.op.key ≠ 0) →
    exec callStep (Cuckoo.new buckets, []) calls = some s →
      ∃ M, exec mapStep ∅ s.2 = some M ∧ s.2.map Prod.fst = calls.map Call.op ∧
        s.1.Represents M ∧ s.1.size = M.keys.card ∧ s.1.size ≤ intMax ∧
          ∀ other, (s.1.beside other).size = s.1.size

/-- Whole runs beside something else. -/
theorem run_beside (hb : 0 < buckets) (hbuckets : buckets * entryWidth < 2 ^ 31)
    (other : Nat → Node) (calls : List Call) :
    exec callStep ((Cuckoo.new buckets).beside other, []) calls =
      (exec callStep (Cuckoo.new buckets, []) calls).map (·.beside other) := by
  induction calls using List.reverseRecOn with
  | nil => rfl
  | append_singleton calls call ih =>
    rw [exec_eq_foldlM, exec_eq_foldlM, List.foldlM_append, List.foldlM_append, ← exec_eq_foldlM,
      ← exec_eq_foldlM, ih]
    cases hs : exec callStep (Cuckoo.new buckets, []) calls with
    | none => rfl
    | some s =>
      obtain ⟨hsame, hwf⟩ := run_wellFormed hb hs
      have hstep := callStep_beside (s := s) (hsame.symm ▸ hbuckets) hwf.pos other call
      simp only [Option.map_some, Option.bind_eq_bind, Option.bind_some, List.foldlM_cons,
        List.foldlM_nil, hstep]
      cases callStep s call <;> rfl

/-- A bucket that lies elsewhere: whatever is there is taken for its nodes. -/
theorem contains_outside {key : Word} (hk : key ≠ 0) (hb : 0 < buckets)
    (hout : ¬ Table.Inside buckets (hash buckets key .one * entryWidth)) :
    ¬ RefinesMap buckets := by
  intro h
  have hcalls := h.inside [{ op := .contains key }]
    (fun call hcall => by rw [List.mem_singleton.mp hcall]; exact hk) fun _ => ⟨key, 0⟩
  have hnew : (Cuckoo.new buckets).contains key = .false := by
    rw [Cuckoo.contains_false_iff, Ne,
      Cuckoo.contains_iff (Cuckoo.WellFormed.new hb).toWellPlaced hk, Cuckoo.content_new]
    rintro ⟨_, _, hcell⟩
    cases hcell
  have hfound : ((Cuckoo.new buckets).beside fun _ => ⟨key, 0⟩).contains key = .true := by
    refine if_pos (Bool.or_eq_true_iff.mpr (Or.inl (Table.find_iff.mpr ⟨0, entryWidth_pos, ?_⟩)))
    exact congrArg Node.key (if_neg hout)
  have hanswers := congrArg (Option.map Prod.snd) hcalls
  simp only [exec, callStep, Session.beside, Option.bind_some, Option.map_some, hnew,
    hfound] at hanswers
  cases hanswers

/-- **Map refinement, and its bound.** The calls are those of a finite map, on the memory
allocated for the table and with a `size` that is an `int`, exactly when the slots are
fewer than there are positive values of an `int`. -/
theorem session_refines_map_iff (hb : 0 < buckets) :
    RefinesMap buckets ↔ buckets * entryWidth < 2 ^ 31 := by
  constructor
  · intro h
    by_contra hlarge
    rcases Nat.lt_or_eq_of_le (Nat.le_of_not_lt hlarge) with hlt | he
    · -- the bucket 2 ^ 28 has no `int` for an offset
      have hlt : 268435456 < buckets := by
        unfold entryWidth at hlt
        omega
      have hhash : hash buckets 268435456 .one = 268435456 := Nat.mod_eq_of_lt hlt
      have hout : ¬ Table.Inside buckets (hash buckets 268435456 .one * entryWidth) := by
        rw [hhash]
        exact fun hin => absurd hin.2 (by decide)
      exact contains_outside (by decide) hb hout h
    · -- the table can be filled, and `size` has no value then
      obtain ⟨log, hrun⟩ := run_dealt hb he.symm.le (le_refl (buckets * entryWidth))
      obtain ⟨M, -, -, -, -, hsize, -⟩ := h.refines _ _ (deals_key (by omega)) hrun
      rw [dealt_size hb he.symm.le, ← he] at hsize
      exact absurd hsize (by decide)
  · intro hbuckets
    refine ⟨fun calls _ other => run_beside hb hbuckets other calls, fun calls s hk hrun => ?_⟩
    obtain ⟨M, hM, hops, hrep, hsize⟩ := session_refines_map hb hk hrun
    have hsame := (run_wellFormed hb hrun).1
    have hle := s.1.size_le
    rw [hsame] at hle
    exact ⟨M, hM, hops, hrep, hsize, Nat.le_sub_one_of_lt (hle.trans_lt hbuckets),
      fun other => Cuckoo.size_beside (hsame.symm ▸ hbuckets)⟩

/-- Nine keys for one bucket: the ninth is refused, and the others are still
there to be replaced and removed. -/
def fillOneBucket : List Call :=
  ([1, 2, 3, 4, 5, 6, 7, 8, 9, 3].map fun k => { op := .insert ⟨k, k + 1⟩ }) ++
    [{ op := .remove 5 }, { op := .contains 5 }]

theorem session_refines_map_full :
    ∃ s M, exec callStep (Cuckoo.new 1, []) fillOneBucket = some s ∧
      exec mapStep ∅ s.2 = some M ∧ M.keys.card = 7 := by
  have hrun : (exec callStep (Cuckoo.new 1, []) fillOneBucket).map
      (fun s => (s.1.size, s.2.map Prod.snd)) = some (7, [.true, .true, .true, .true, .true,
        .true, .true, .true, .abortFailure, .dup, .true, .false]) := by
    decide +kernel
  obtain ⟨s, hs, hsize⟩ := Option.map_eq_some_iff.mp hrun
  have hmap := (session_refines_map_iff Nat.one_pos).mpr (by decide)
  obtain ⟨M, hM, _, _, hcard, _⟩ := hmap.refines _ _ (by decide) hs
  exact ⟨s, M, hs, hM, by rw [← hcard]; exact (Prod.mk.inj hsize).1⟩

/-- The constructor's sum wraps to a block of five nodes, and the bucket of the key 1
begins with the ninth. -/
theorem five_nodes_allocated : Table.allocated 477218589 = 5 ∧
    ((exec callStep ((Cuckoo.new 477218589).beside fun _ => ⟨1, 0⟩, [])
      [{ op := .contains 1 }]).map Prod.snd = some [(.contains 1, .true)]) ∧
    ((exec callStep (Cuckoo.new 477218589, []) [{ op := .contains 1 }]).map Prod.snd =
      some [(.contains 1, .false)]) ∧ ¬ RefinesMap 477218589 := by
  have hout : ¬ Table.Inside 477218589 (hash 477218589 1 .one * entryWidth) := by decide +kernel
  exact ⟨by decide, by decide +kernel, by decide +kernel,
    contains_outside (by decide) (by decide) hout⟩

end ConcurrentComputing.Store
