import ConcurrentComputing.TwoTable

/-! # What each section of the two-table set does

One lemma per locked section and one per single-threaded call, in terms of the
cells of the tables: a section leaves the entries as they are, writes an empty
home cell, empties a cell, or moves an entry to an empty home cell. -/

namespace ConcurrentComputing.TwoTable.Cuckoo

open CuckooPath Placement

variable {c c' : Cuckoo} {val : Val} {idx1 idx2 : Nat}

/-! ## The first check -/

/-- The value is in neither of the two buckets. -/
def Missing (c : Cuckoo) (val : Val) (idx1 idx2 : Nat) : Prop :=
  ∀ i < width, c.view .one idx1 i ≠ val ∧ c.view .two idx2 i ≠ val

/-- One of the two buckets a value may go to. -/
def Bucket (idx1 idx2 : Nat) (side : Side) (idx : Nat) : Prop :=
  (side = .one ∧ idx = idx1) ∨ (side = .two ∧ idx = idx2)

theorem Bucket.lt {buckets : Nat} {side : Side} {idx : Nat} (h : Bucket idx1 idx2 side idx)
    (h1 : idx1 < buckets) (h2 : idx2 < buckets) : idx < buckets := by
  rcases h with ⟨_, rfl⟩ | ⟨_, rfl⟩ <;> assumption

theorem Bucket.home {buckets : Nat} {side : Side} {idx slot : Nat}
    (h : Bucket (hash buckets val .one) (hash buckets val .two) side idx) (hs : slot < width) :
    home buckets val (side, idx, slot) := by
  rcases h with ⟨rfl, rfl⟩ | ⟨rfl, rfl⟩ <;> exact ⟨rfl, hs⟩

theorem found_iff : (c.table1.find val idx1 || c.table2.find val idx2) = true ↔
    ∃ side idx slot, Bucket idx1 idx2 side idx ∧ slot < width ∧ c.view side idx slot = val := by
  rw [Bool.or_eq_true, Table.find_iff, Table.find_iff]
  refine ⟨?_, ?_⟩
  · rintro (⟨i, hi, h⟩ | ⟨i, hi, h⟩)
    · exact ⟨.one, idx1, i, Or.inl ⟨rfl, rfl⟩, hi, h⟩
    · exact ⟨.two, idx2, i, Or.inr ⟨rfl, rfl⟩, hi, h⟩
  · rintro ⟨side, idx, i, ⟨rfl, rfl⟩ | ⟨rfl, rfl⟩, hi, h⟩
    · exact Or.inl ⟨i, hi, h⟩
    · exact Or.inr ⟨i, hi, h⟩

theorem missing_of_not_found
    (h : (c.table1.find val idx1 || c.table2.find val idx2) = false) :
    c.Missing val idx1 idx2 := by
  intro i hi
  have hn : ¬ (c.table1.find val idx1 || c.table2.find val idx2) = true := by simp [h]
  rw [found_iff] at hn
  exact ⟨fun he => hn ⟨.one, idx1, i, Or.inl ⟨rfl, rfl⟩, hi, he⟩,
    fun he => hn ⟨.two, idx2, i, Or.inr ⟨rfl, rfl⟩, hi, he⟩⟩

/-- The first check reports a duplicate it has seen, or a free slot of one of the
two buckets, or that both are full. -/
theorem firstCheck_spec (c : Cuckoo) (val : Val) (idx1 idx2 : Nat) :
    (c.firstCheck val idx1 idx2 = some .duplicate ∧
      ∃ side idx slot, Bucket idx1 idx2 side idx ∧ slot < width ∧ c.view side idx slot = val) ∨
    (∃ side idx slot, c.firstCheck val idx1 idx2 = some (.success side idx slot) ∧
      c.Missing val idx1 idx2 ∧ Bucket idx1 idx2 side idx ∧ slot < width ∧
      c.view side idx slot = 0) ∨
    (c.firstCheck val idx1 idx2 = none ∧ c.Missing val idx1 idx2 ∧
      ∀ i < width, c.view .one idx1 i ≠ 0 ∧ c.view .two idx2 i ≠ 0) := by
  unfold firstCheck
  cases hf : c.table1.find val idx1 || c.table2.find val idx2 with
  | true => exact Or.inl ⟨rfl, found_iff.mp hf⟩
  | false =>
    have hm := missing_of_not_found hf
    right
    cases h1 : c.table1.isAvailable idx1 with
    | some slot =>
      obtain ⟨hs, h0⟩ := Table.isAvailable_some h1
      exact Or.inl ⟨.one, idx1, slot, rfl, hm, Or.inl ⟨rfl, rfl⟩, hs, h0⟩
    | none =>
      cases h2 : c.table2.isAvailable idx2 with
      | some slot =>
        obtain ⟨hs, h0⟩ := Table.isAvailable_some h2
        exact Or.inl ⟨.two, idx2, slot, rfl, hm, Or.inr ⟨rfl, rfl⟩, hs, h0⟩
      | none =>
        exact Or.inr ⟨rfl, hm, fun i hi =>
          ⟨Table.isAvailable_none h1 i hi, Table.isAvailable_none h2 i hi⟩⟩

/-- In a well-placed table a value missing from its two buckets is stored
nowhere. -/
theorem WellPlaced.not_stored (hc : c.WellPlaced)
    (hm : c.Missing val (hash c.buckets val .one) (hash c.buckets val .two)) :
    val ∉ stored c.content := by
  rintro ⟨⟨side, idx, slot⟩, h⟩
  obtain ⟨hi, hs⟩ := hc.placed _ _ h
  obtain ⟨_, _, hv, _⟩ := content_eq_some.mp h
  dsimp only at hi hs
  subst hi
  cases side with
  | one => exact (hm slot hs).1 hv
  | two => exact (hm slot hs).2 hv

theorem content_new (buckets : Nat) : (Cuckoo.new buckets).content = fun _ => none := by
  funext ⟨side, idx, slot⟩
  cases side <;> exact if_neg (fun h => h.2.2 rfl)

theorem WellPlaced.new {buckets : Nat} (h : 0 < buckets) : (Cuckoo.new buckets).WellPlaced := by
  refine ⟨h, fun cell a ha => ?_⟩
  rw [content_new] at ha
  cases ha

/-! ## Displacements -/

/-- A displacement that passes its validations moves one entry to an empty cell
of its other bucket. -/
theorem displace_spec {dst src : Hop} (hd : dst.index < c.buckets ∧ dst.slot < width)
    (hs : src.index < c.buckets ∧ src.slot < width) (ht : dst.table = src.table.other)
    (h : c.displace dst src = some c') :
    c'.buckets = c.buckets ∧ ∃ a, c.content (src.table, src.index, src.slot) = some a ∧
      c.content (dst.table, dst.index, dst.slot) = none ∧
      home c.buckets a (dst.table, dst.index, dst.slot) ∧
      c'.content = move c.content (dst.table, dst.index, dst.slot)
        (src.table, src.index, src.slot) := by
  obtain ⟨dt, di, ds⟩ := dst
  obtain ⟨st, si, ss⟩ := src
  dsimp only at hd hs ht ⊢
  subst ht
  simp only [displace, Option.ite_none_left_eq_some, Bool.or_eq_true, not_or,
    Bool.not_eq_true, Bool.not_eq_eq_eq_not, Bool.not_true, bne_eq_false_iff_eq,
    Table.isOccupied_iff, Table.isOccupied_eq_false, not_not, Option.some.injEq] at h
  obtain ⟨⟨⟨hdst, hsrc⟩, hhash⟩, rfl⟩ := h
  have hsome : c.content (st, si, ss) = some (c.view st si ss) :=
    content_eq_some.mpr ⟨hs.1, hs.2, rfl, hsrc⟩
  refine ⟨by simp, c.view st si ss, hsome, (content_eq_none hd.1 hd.2).mpr hdst,
    ⟨hhash.symm, hd.2⟩, ?_⟩
  rw [content_write _ (by simpa using hs.1) hs.2, content_write _ hd.1 hd.2]
  simp only [hsrc, if_false, if_true, move, hsome]

theorem displace_vacates {dst src : Hop} (hd : dst.index < c.buckets ∧ dst.slot < width)
    (hs : src.index < c.buckets ∧ src.slot < width) (ht : dst.table = src.table.other)
    (h : c.displace dst src = some c') : c'.view src.table src.index src.slot = 0 := by
  obtain ⟨hb, _, _, _, _, hm⟩ := displace_spec hd hs ht h
  have hmem : c'.content (src.table, src.index, src.slot) = none := by
    rw [hm]
    simp [move]
  exact (content_eq_none (by rw [hb]; exact hs.1) hs.2).mp hmem

/-- The displacement loop only ever moves entries between their homes; when it
succeeds, the cell of `path[0]` is empty. -/
theorem displaceAll_spec : ∀ (path : List Hop) (c : Cuckoo),
    GoodPath c.scheme c.buckets idx1 idx2 path →
    (∀ hop, path = [hop] → c.view hop.table hop.index hop.slot = 0) →
    ∀ {r : Result} {c' : Cuckoo}, c.displaceAll path = (r, c') →
    c'.buckets = c.buckets ∧ Moves (home c.buckets) c.content c'.content ∧
      (r = .retry ∨ ∃ side idx slot, r = .success side idx slot ∧
        Bucket idx1 idx2 side idx ∧ slot < width ∧ c'.view side idx slot = 0)
  | [], c, _, _, r, c', h => by
    cases h
    exact ⟨rfl, .refl _, Or.inl rfl⟩
  | [hop], c, hg, h0, r, c', h => by
    cases h
    have hb := hg.last rfl
    exact ⟨rfl, .refl _, Or.inr ⟨_, _, _, rfl, hb, (hg.bounds hop (by simp)).2, h0 hop rfl⟩⟩
  | dst :: src :: path, c, hg, _, r, c', h => by
    simp only [displaceAll] at h
    cases hd : c.displace dst src with
    | none =>
      rw [hd] at h
      cases h
      exact ⟨rfl, .refl _, Or.inl rfl⟩
    | some d =>
      rw [hd] at h
      have hdst := hg.bounds dst (by simp)
      have hsrc := hg.bounds src (by simp)
      have halt := (List.isChain_cons_cons.mp hg.alternate).1
      obtain ⟨hb, a, hs, hn, hh, hm⟩ := displace_spec hdst hsrc halt hd
      -- the cell just vacated is the one the next round fills, or the result
      have hzero := displace_vacates hdst hsrc halt hd
      have hg' : GoodPath d.scheme d.buckets idx1 idx2 (src :: path) := by
        rw [hb, show d.scheme = c.scheme by simp [scheme, hb]]
        exact hg.tail
      obtain ⟨hb', hmoves, hr⟩ := displaceAll_spec (src :: path) d hg'
        (fun hop he => by cases he; exact hzero) h
      refine ⟨hb'.trans hb, ?_, hr⟩
      rw [hb] at hmoves
      exact Moves.head hs hn hh (hm ▸ hmoves)

/-! ## The private insert -/

/-- A single-threaded private insert: whatever it answers, the entries have only
been moved between their homes, and a success names an empty slot of one of the
value's two buckets. -/
theorem insertAt_spec {rand : Nat → Nat} {r : Result} (hpos : 0 < c.buckets)
    (h1 : idx1 < c.buckets) (h2 : idx2 < c.buckets)
    (h : c.insertAt val idx1 idx2 rand = (r, c')) :
    c'.buckets = c.buckets ∧ Moves (home c.buckets) c.content c'.content ∧
      ((r = .duplicate ∧ c' = c ∧
          ∃ side idx slot, Bucket idx1 idx2 side idx ∧ slot < width ∧ c.view side idx slot = val) ∨
        (r = .resize ∧ c' = c ∧ c.Missing val idx1 idx2 ∧ ∀ i < width, c.view .one idx1 i ≠ 0) ∨
        (r = .retry ∧ c.Missing val idx1 idx2) ∨
        ∃ side idx slot, r = .success side idx slot ∧ c.Missing val idx1 idx2 ∧
          Bucket idx1 idx2 side idx ∧ slot < width ∧ c'.view side idx slot = 0) := by
  unfold insertAt at h
  rcases firstCheck_spec c val idx1 idx2 with ⟨hf, hd⟩ | ⟨side, idx, slot, hf, hm, hb, hs, h0⟩ |
    ⟨hf, hm, hfull⟩
  · rw [hf] at h
    cases h
    exact ⟨rfl, .refl _, Or.inl ⟨rfl, rfl, hd⟩⟩
  · rw [hf] at h
    cases h
    exact ⟨rfl, .refl _, Or.inr (Or.inr (Or.inr ⟨side, idx, slot, rfl, hm, hb, hs, h0⟩))⟩
  · rw [hf] at h
    dsimp only at h
    split at h
    · cases h
      exact ⟨rfl, .refl _, Or.inr (Or.inl ⟨rfl, rfl, hm, fun i hi => (hfull i hi).1⟩)⟩
    · rename_i hop hp
      have hg := path_good hpos h1 h2 hp
      have hb := hg.last rfl
      cases h
      refine ⟨rfl, .refl _, Or.inr (Or.inr ?_)⟩
      unfold claim
      split
      · rename_i h0
        exact Or.inr ⟨_, _, _, rfl, hm, hb, (hg.bounds hop (by simp)).2,
          by simpa [Table.isOccupied] using h0⟩
      · exact Or.inl ⟨rfl, hm⟩
    · rename_i path hne hp
      have hg := path_good hpos h1 h2 hp
      obtain ⟨hb, hmoves, hr⟩ := displaceAll_spec path c hg
        (fun hop he => absurd he (hne hop)) h
      refine ⟨hb, hmoves, Or.inr (Or.inr ?_)⟩
      rcases hr with rfl | ⟨side, idx, slot, rfl, hbk, hs, h0⟩
      · exact Or.inl ⟨rfl, hm⟩
      · exact Or.inr ⟨side, idx, slot, rfl, hm, hbk, hs, h0⟩

/-! ## Remove, contains and size -/

/-- `remove` empties one cell that holds the value, or changes nothing when its
two buckets do not hold it. -/
theorem remove_spec (hv : val ≠ 0) (hpos : 0 < c.buckets) :
    (∃ cell, c.content cell = some val ∧ (c.remove val).1 = true ∧
      (c.remove val).2.content = Function.update c.content cell none ∧
      (c.remove val).2.buckets = c.buckets) ∨
    (c.remove val = (false, c) ∧
      c.Missing val (hash c.buckets val .one) (hash c.buckets val .two)) := by
  have hempty : ∀ (side : Side) (slot : Nat), slot < width →
      c.view side (hash c.buckets val side) slot = val →
      c.content (side, hash c.buckets val side, slot) = some val ∧
      (c.write side (hash c.buckets val side) slot 0).content =
        Function.update c.content (side, hash c.buckets val side, slot) none := by
    intro side slot hs he
    have hlt := hash_lt hpos val side
    exact ⟨content_eq_some.mpr ⟨hlt, hs, he, hv⟩, by rw [content_write _ hlt hs]; simp⟩
  unfold remove
  dsimp only
  cases h1 : c.table1.findSlot val (hash c.buckets val .one) with
  | some slot =>
    obtain ⟨hs, he⟩ := Table.findSlot_some h1
    obtain ⟨hc, hw⟩ := hempty .one slot hs he
    exact Or.inl ⟨_, hc, rfl, hw, by simp⟩
  | none =>
    cases h2 : c.table2.findSlot val (hash c.buckets val .two) with
    | some slot =>
      obtain ⟨hs, he⟩ := Table.findSlot_some h2
      obtain ⟨hc, hw⟩ := hempty .two slot hs he
      exact Or.inl ⟨_, hc, rfl, hw, by simp⟩
    | none =>
      exact Or.inr ⟨rfl, fun i hi => ⟨Table.findSlot_none h1 i hi, Table.findSlot_none h2 i hi⟩⟩

theorem contains_iff (hc : c.WellPlaced) (hv : val ≠ 0) :
    c.contains val = true ↔ val ∈ stored c.content := by
  unfold contains
  rw [found_iff]
  refine ⟨?_, ?_⟩
  · rintro ⟨side, idx, slot, hb, hs, he⟩
    have hlt := hb.lt (hash_lt hc.pos val .one) (hash_lt hc.pos val .two)
    exact ⟨_, content_eq_some.mpr ⟨hlt, hs, he, hv⟩⟩
  · rintro ⟨⟨side, idx, slot⟩, h⟩
    obtain ⟨hi, hs⟩ := hc.placed _ _ h
    obtain ⟨_, _, he, _⟩ := content_eq_some.mp h
    dsimp only at hi hs
    refine ⟨side, idx, slot, ?_, hs, he⟩
    cases side with
    | one => exact Or.inl ⟨rfl, hi⟩
    | two => exact Or.inr ⟨rfl, hi⟩

/-- `size` counts the occupied cells. -/
theorem size_eq_tally (c : Cuckoo) :
    c.size = tally (cells c.buckets) (fun _ => true) c.content := by
  have hinner : ∀ i acc, (List.range width).foldl (fun size j =>
      size + (Table.isOccupied (c.table1.elements i j)).toNat +
        (Table.isOccupied (c.table2.elements i j)).toNat) acc =
      acc + ∑ j ∈ Finset.range width, ((Table.isOccupied (c.view .one i j)).toNat +
        (Table.isOccupied (c.view .two i j)).toNat) := by
    intro i acc
    simp only [add_assoc]
    exact foldl_add_eq_sum _ _ _
  unfold size
  simp only [hinner]
  rw [foldl_add_eq_sum, zero_add]
  rw [tally_eq_sum]
  unfold cells
  rw [Finset.sum_product, Finset.sum_pair (by decide)]
  simp only [Finset.sum_product, ← Finset.sum_add_distrib]
  apply Finset.sum_congr rfl
  intro i hi
  apply Finset.sum_congr rfl
  intro j hj
  have hcell : ∀ side, ((c.content (side, i, j)).any (fun _ => true)).toNat =
      (Table.isOccupied (c.view side i j)).toNat := by
    intro side
    cases ho : Table.isOccupied (c.view side i j) with
    | true =>
      have := content_eq_some.mpr ⟨Finset.mem_range.mp hi, Finset.mem_range.mp hj,
        rfl, Table.isOccupied_iff.mp ho⟩
      simp [this]
    | false =>
      have := (content_eq_none (Finset.mem_range.mp hi) (Finset.mem_range.mp hj)).mpr
        (Table.isOccupied_eq_false.mp ho)
      simp [this]
  rw [hcell, hcell]

end ConcurrentComputing.TwoTable.Cuckoo
