import ConcurrentComputing.TwoTableInsert

/-! # Growing the two-table set

What a resize keeps, when its copy loop has room, and where an insert that has
resized the table puts its value: at the indices it computed under the old bucket
count. -/

namespace ConcurrentComputing.TwoTable

open CuckooPath Placement Runs

/-! ## The set kept by a resize -/

/-- The stored values have the same indices under the count of the code, an
`unsigned int`, as under twice the old count. -/
def Cuckoo.NoOverflow (c : Cuckoo) : Prop :=
  ∀ side, ∀ idx < c.buckets, ∀ slot < width, c.view side idx slot ≠ 0 →
    hash (doubled c.buckets) (c.view side idx slot) side =
      hash (2 * c.buckets) (c.view side idx slot) side

/-- Below 2^31 buckets the doubled count does not wrap around. -/
theorem Cuckoo.NoOverflow.of_lt {c : Cuckoo} (h : c.buckets < 2 ^ 31) : c.NoOverflow := by
  have hd : doubled c.buckets = 2 * c.buckets := by
    unfold doubled
    omega
  intro side idx _ slot _ _
  rw [hd]

/-- **Resize keeps the set** exactly when every value lies in the lower half of the
buckets, no new bucket is the target of more than `WIDTH` of them, and the doubled
count does not overflow. -/
theorem resize_keeps_set_iff {c : Cuckoo} (hu : Unique id c.content) :
    (stored c.resize.content = stored c.content ∧ Unique id c.resize.content ∧
      Placed (home (2 * c.buckets)) c.resize.content) ↔
      c.Reached ∧ c.Roomy ∧ c.NoOverflow := by
  constructor
  · intro hall
    obtain ⟨hst, _, hplaced⟩ := hall
    obtain ⟨hreached, hroomy⟩ := (Cuckoo.resize_stored_iff hu).mp hst
    refine ⟨hreached, hroomy, fun side idx hi slot hs hne => ?_⟩
    have hold : c.content (side, idx, slot) = some (c.view side idx slot) :=
      Cuckoo.content_eq_some.mpr ⟨hi, hs, rfl, hne⟩
    have hmem : c.view side idx slot ∈ stored c.resize.content := hst ▸ ⟨_, hold⟩
    obtain ⟨⟨side', idx', slot'⟩, hnew⟩ := hmem
    obtain ⟨⟨hidx, _⟩, p, _, hp⟩ := Cuckoo.resize_content hu hnew
    obtain rfl : side' = side := (Prod.mk.inj (hu _ _ _ _ hp hold rfl)).1
    exact hidx.symm.trans (hplaced _ _ hnew).1
  · intro hall
    obtain ⟨hreached, hroomy, hover⟩ := hall
    refine ⟨(Cuckoo.resize_stored_iff hu).mpr ⟨hreached, hroomy⟩, Cuckoo.resize_unique hu, ?_⟩
    intro cell a h
    obtain ⟨side, idx, slot⟩ := cell
    obtain ⟨⟨hidx, hs⟩, p, _, hp⟩ := Cuckoo.resize_content hu h
    obtain ⟨hi, hps, rfl, hne⟩ := Cuckoo.content_eq_some.mp hp
    exact ⟨hidx.trans (hover side p.1 hi p.2 hps hne), hs⟩

/-- The thirteen values that fill two buckets among four and make one insert resize
lie in the half that is copied. -/
theorem resize_keeps_set_eight :
    ∃ s, exec callStep (Cuckoo.new 4, [])
        (inserts [17, 33, 49, 65, 81, 97, 113, 129, 145, 161, 177, 193]) = some s ∧
      stored s.1.resize.content = stored s.1.content ∧
      Placed (home 8) s.1.resize.content := by
  have hrun : (exec callStep (Cuckoo.new 4, [])
      (inserts [17, 33, 49, 65, 81, 97, 113, 129, 145, 161, 177, 193])).map (fun s =>
        (s.1.buckets, decide (s.1.ResizeKeeps 1))) = some (4, true) := by
    decide +kernel
  obtain ⟨s, hs, hdata⟩ := Option.map_eq_some_iff.mp hrun
  obtain ⟨hb, hkeeps⟩ := Prod.mk.inj hdata
  have hkeeps : s.1.ResizeKeeps 1 := of_decide_eq_true hkeeps
  obtain ⟨hrep, _⟩ := run_represents (by decide) (by decide) hs (by decide +kernel)
  obtain ⟨hst, _, hplaced⟩ := (resize_keeps_set_iff hrep.unique).mpr
    ⟨hkeeps.reached, hkeeps.roomy, .of_lt (by rw [hb]; decide)⟩
  rw [hb] at hplaced
  exact ⟨s, hs, hst, hplaced⟩

/-- Twelve values fill a table of one bucket; the insert of 13 resizes it, and of the
two new buckets' quarter nothing is copied. -/
theorem resize_of_one_loses_all :
    ∃ s, exec callStep (Cuckoo.new 1, []) (inserts [1, 2, 3, 4, 5, 6, 7, 8, 9, 10, 11, 12]) =
        some s ∧ s.1.WellPlaced ∧ Unique id s.1.content ∧
      (s.1.insertAt 13 (hash s.1.buckets 13 .one) (hash s.1.buckets 13 .two) (fun _ => 0)).1 =
        .resize ∧
      stored s.1.resize.content ≠ stored s.1.content := by
  have hrun : (exec callStep (Cuckoo.new 1, [])
      (inserts [1, 2, 3, 4, 5, 6, 7, 8, 9, 10, 11, 12])).map (fun s => (s.1.buckets,
        s.1.view .one 0 0,
        (s.1.insertAt 13 (hash s.1.buckets 13 .one) (hash s.1.buckets 13 .two) fun _ => 0).1)) =
      some (1, 1, .resize) := by
    decide +kernel
  obtain ⟨s, hs, hdata⟩ := Option.map_eq_some_iff.mp hrun
  obtain ⟨hb, hone, hres⟩ : _ ∧ _ ∧ _ := by simpa only [Prod.mk.injEq] using hdata
  obtain ⟨hrep, _⟩ := run_represents (by decide) (by decide) hs (by decide +kernel)
  refine ⟨s, hs, hrep.toWellPlaced, hrep.unique, hres, fun hst => ?_⟩
  have hreached := ((Cuckoo.resize_stored_iff hrep.unique).mp hst).1 .one 0
    (by rw [hb]; decide) 0 (by decide) (by rw [hone]; decide)
  rw [hb] at hreached
  exact absurd hreached (by decide)

/-! ## Room in the new buckets -/

/-- **Resize has room** for every value it copies exactly when no new bucket is the
target of more than `WIDTH` values of the lower half. -/
theorem resize_has_room_iff {c : Cuckoo} (hu : Unique id c.content) :
    (∀ side, Cuckoo.FindsRoom c (Cuckoo.doubled c.buckets) side
      (Cuckoo.visited (Cuckoo.doubled c.buckets / 4))) ↔ c.Roomy :=
  forall_congr' fun side =>
    Cuckoo.findsRoom_iff (Cuckoo.distinct_visited hu (Cuckoo.lower_le _) side)

theorem resize_has_room_four :
    ∃ s, exec callStep (Cuckoo.new 4, [])
        (inserts [17, 33, 49, 65, 81, 97, 113, 129, 145, 161, 177, 193]) = some s ∧
      ∀ side, Cuckoo.FindsRoom s.1 (Cuckoo.doubled s.1.buckets) side
        (Cuckoo.visited (Cuckoo.doubled s.1.buckets / 4)) := by
  have hrun : (exec callStep (Cuckoo.new 4, [])
      (inserts [17, 33, 49, 65, 81, 97, 113, 129, 145, 161, 177, 193])).map (fun s =>
        decide (s.1.ResizeKeeps 1)) = some true := by
    decide +kernel
  obtain ⟨s, hs, hkeeps⟩ := Option.map_eq_some_iff.mp hrun
  obtain ⟨hrep, _⟩ := run_represents (by decide) (by decide) hs (by decide +kernel)
  exact ⟨s, hs, (resize_has_room_iff hrep.unique).mpr (of_decide_eq_true hkeeps).roomy⟩

/-- Six values fill the first bucket of table 1 among four, six more the first bucket
of table 2, and 68 goes to the second bucket of table 2; an insert of 512 resizes. -/
def merging : List Call :=
  inserts [16, 32, 48, 64, 80, 96, 128, 192, 256, 320, 384, 448, 68]

/-- Under eight buckets 68 has the index of the six values of the first bucket of
table 2, which come before it. -/
theorem resize_of_four_lacks_room :
    ∃ s, exec callStep (Cuckoo.new 4, []) merging = some s ∧ s.1.buckets = 4 ∧
      (s.1.insertAt 512 (hash s.1.buckets 512 .one) (hash s.1.buckets 512 .two)
        (fun _ => 0)).1 = .resize ∧
      ¬ ∀ side, Cuckoo.FindsRoom s.1 (Cuckoo.doubled s.1.buckets) side
        (Cuckoo.visited (Cuckoo.doubled s.1.buckets / 4)) := by
  have hrun : (exec callStep (Cuckoo.new 4, []) merging).map (fun s => (s.1.buckets,
      (s.1.insertAt 512 (hash s.1.buckets 512 .one) (hash s.1.buckets 512 .two) fun _ => 0).1,
      Cuckoo.arrivals s.1 2 8 .two 0)) = some (4, .resize, 7) := by
    decide +kernel
  obtain ⟨s, hs, hdata⟩ := Option.map_eq_some_iff.mp hrun
  obtain ⟨hb, hres, hseven⟩ : _ ∧ _ ∧ _ := by simpa only [Prod.mk.injEq] using hdata
  obtain ⟨hrep, _⟩ := run_represents (by decide) (by decide) hs (by decide +kernel)
  refine ⟨s, hs, hb, hres, fun hroom => ?_⟩
  have hle := (Cuckoo.findsRoom_iff
    (Cuckoo.distinct_visited hrep.unique (Cuckoo.lower_le _) .two)).mp (hroom .two) 0
  rw [hb, show Cuckoo.doubled 4 = 8 from rfl, show 8 / 4 = 2 from rfl, hseven] at hle
  exact absurd hle (by decide)

/-- Table 1 never runs out of room: doubling the count splits each of its buckets. -/
theorem arrivals_one_le {c : Cuckoo} (hc : c.WellPlaced) (hb : c.buckets < 2 ^ 31) (idx : Nat) :
    Cuckoo.arrivals c (Cuckoo.doubled c.buckets / 4) (Cuckoo.doubled c.buckets) .one idx ≤
      width := by
  have hd : Cuckoo.doubled c.buckets = c.buckets * 2 := Nat.mod_eq_of_lt (by omega)
  have hsub : ((Finset.range (Cuckoo.doubled c.buckets / 4) ×ˢ Finset.range width).filter fun p =>
      c.view .one p.1 p.2 ≠ 0 ∧
        hash (Cuckoo.doubled c.buckets) (c.view .one p.1 p.2) .one = idx) ⊆
      {idx % c.buckets} ×ˢ Finset.range width := by
    intro p hp
    obtain ⟨hp, hne, hh⟩ := Finset.mem_filter.mp hp
    rw [Finset.mem_product, Finset.mem_range, Finset.mem_range] at hp
    have hlt : p.1 < c.buckets := by
      have := Cuckoo.lower_le c.buckets
      omega
    have hold : p.1 = (c.view .one p.1 p.2).toNat % c.buckets :=
      (hc.placed _ _ (Cuckoo.content_eq_some.mpr ⟨hlt, hp.2, rfl, hne⟩)).1
    rw [Finset.mem_product, Finset.mem_singleton, Finset.mem_range]
    refine ⟨?_, hp.2⟩
    have hnew : (c.view .one p.1 p.2).toNat % (c.buckets * 2) = idx := by
      rw [← hd]
      exact hh
    rw [hold, ← hnew, Nat.mod_mul_right_mod]
  refine (Finset.card_le_card hsub).trans ?_
  simp

/-! ## Where an insert puts its value -/

namespace Cuckoo

variable {c d : Cuckoo} {val : Val} {idx1 idx2 : Nat}

/-- The table after the given number of resizes. -/
def resized (c : Cuckoo) (n : Nat) : Cuckoo := Nat.iterate Cuckoo.resize n c

theorem resized_buckets (c : Cuckoo) (n : Nat) :
    (c.resized n).buckets = Nat.iterate doubled n c.buckets := by
  unfold resized
  induction n generalizing c with
  | zero => rfl
  | succ n ih => exact ih c.resize

theorem resized_snoc (c : Cuckoo) (n : Nat) : c.resized (n + 1) = (c.resized n).resize :=
  Function.iterate_succ_apply' Cuckoo.resize n c

/-- Round `n` of an insert is the one that succeeds: the private insert, on the table
resized in each round before, with the indices of the first. -/
def Succeeds (c : Cuckoo) (val : Val) (idx1 idx2 : Nat) (rands : Nat → Nat → Nat) (n : Nat)
    (side : Side) (idx slot : Nat) (d : Cuckoo) : Prop :=
  (∀ m < n, ((c.resized m).insertAt val idx1 idx2 (rands m)).1 = .resize) ∧
    (c.resized n).insertAt val idx1 idx2 (rands n) = (.success side idx slot, d)

theorem insertAt_resize {rand : Nat → Nat}
    (h : (c.insertAt val idx1 idx2 rand).1 = .resize) :
    c.insertAt val idx1 idx2 rand = (.resize, c) := by
  revert h
  unfold insertAt
  rcases firstCheck_spec c val idx1 idx2 with ⟨hf, _⟩ | ⟨_, _, _, hf, _⟩ | ⟨hf, _⟩
  · rw [hf]
    intro hr
    cases hr
  · rw [hf]
    intro hr
    cases hr
  · rw [hf]
    cases hp : findPath c.scheme (.still c.view) rand idx1 idx2 with
    | none => exact fun _ => rfl
    | some path =>
      have hloop : ∀ {path : List Hop} {c : Cuckoo}, (c.displaceAll path).1 ≠ .resize := by
        intro path
        induction path with
        | nil => rintro c ⟨⟩
        | cons dst path ih =>
          intro c
          cases path with
          | nil => rintro ⟨⟩
          | cons src path =>
            simp only [displaceAll]
            cases c.displace dst src with
            | none => rintro ⟨⟩
            | some d => exact ih
      intro h
      cases path with
      | nil => exact absurd h hloop
      | cons hop rest =>
        cases rest with
        | nil =>
          have hclaim : c.claim hop ≠ .resize := by
            unfold claim
            split <;> rintro ⟨⟩
          exact absurd h hclaim
        | cons src rest => exact absurd h hloop

/-- An insert that returns true has a round that succeeds. -/
theorem insertLoop_true {rands : Nat → Nat → Nat} : ∀ {fuel n : Nat} {c c' : Cuckoo},
    insertLoop val idx1 idx2 rands fuel n c = some (true, c') →
    ∃ k side idx slot d,
      c.Succeeds val idx1 idx2 (fun m => rands (n + m)) k side idx slot d ∧
      c' = d.write side idx slot val := by
  intro fuel
  induction fuel with
  | zero => intro n c c' h; cases h
  | succ fuel ih =>
    intro n c c' h
    simp only [insertLoop] at h
    cases hres : c.insertAt val idx1 idx2 (rands n) with
    | mk res d =>
      rw [hres] at h
      cases res with
      | duplicate => cases h
      | retry =>
        have hne := c.insertAt_ne_retry val idx1 idx2 (rands n)
        rw [hres] at hne
        exact absurd rfl hne
      | success side idx slot =>
        cases h
        refine ⟨0, side, idx, slot, d, ⟨fun m hm => absurd hm (Nat.not_lt_zero m), hres⟩, rfl⟩
      | resize =>
        have hd : d = c := by
          have := insertAt_resize (congrArg Prod.fst hres)
          rw [hres] at this
          exact congrArg Prod.snd this
        subst hd
        obtain ⟨k, side, idx, slot, e, ⟨hbefore, hat⟩, hc'⟩ := ih h
        refine ⟨k + 1, side, idx, slot, e, ⟨fun m hm => ?_, ?_⟩, hc'⟩
        · cases m with
          | zero => exact congrArg Prod.fst hres
          | succ m =>
            have := hbefore m (by omega)
            dsimp only at this ⊢
            rw [Nat.add_assoc, Nat.add_comm 1] at this
            exact this
        · dsimp only at hat ⊢
          rw [Nat.add_assoc, Nat.add_comm 1] at hat
          exact hat

/-- Only one round succeeds. -/
theorem Succeeds.unique {rands : Nat → Nat → Nat} {n n' : Nat} {side side' : Side}
    {idx idx' slot slot' : Nat} {d d' : Cuckoo}
    (h : c.Succeeds val idx1 idx2 rands n side idx slot d)
    (h' : c.Succeeds val idx1 idx2 rands n' side' idx' slot' d') :
    n = n' ∧ side = side' := by
  have hle : ∀ {n n' : Nat} {side side' : Side} {idx idx' slot slot' : Nat} {d d' : Cuckoo},
      c.Succeeds val idx1 idx2 rands n side idx slot d →
      c.Succeeds val idx1 idx2 rands n' side' idx' slot' d' → n ≤ n' := by
    intro n n' side side' idx idx' slot slot' d d' h h'
    by_contra hlt
    have := h.1 n' (by omega)
    rw [h'.2] at this
    cases this
  obtain rfl : n = n' := Nat.le_antisymm (hle h h') (hle h' h)
  have := h.2.symm.trans h'.2
  simp only [Prod.mk.injEq, Result.success.injEq] at this
  exact ⟨rfl, this.1.1⟩

/-! ### What the succeeding round leaves -/

/-- Every value in a slot of `d` was in a slot of `c`. -/
def NoNew (c d : Cuckoo) : Prop :=
  ∀ side i j, d.view side i j = 0 ∨ ∃ side' i' j', d.view side i j = c.view side' i' j'

theorem displace_noNew {dst src : Hop} (h : c.displace dst src = some d) :
    d.buckets = c.buckets ∧ c.NoNew d := by
  simp only [displace, Option.ite_none_left_eq_some, Option.some.injEq] at h
  obtain ⟨_, rfl⟩ := h
  refine ⟨by simp, fun side i j => ?_⟩
  rw [view_write]
  split
  · exact Or.inl rfl
  rw [view_write]
  split
  · exact Or.inr ⟨_, _, _, rfl⟩
  · exact Or.inr ⟨_, _, _, rfl⟩

theorem displaceAll_success {side : Side} {idx slot : Nat} : ∀ {path : List Hop} {c : Cuckoo},
    c.displaceAll path = (.success side idx slot, d) →
    path.getLast? = some ⟨side, idx, slot⟩ ∧ d.buckets = c.buckets ∧ c.NoNew d
  | [], _, h => by cases h
  | [hop], c, h => by
    cases h
    exact ⟨rfl, rfl, fun _ _ _ => Or.inr ⟨_, _, _, rfl⟩⟩
  | dst :: src :: path, c, h => by
    simp only [displaceAll] at h
    cases hd : c.displace dst src with
    | none => rw [hd] at h; cases h
    | some e =>
      rw [hd] at h
      obtain ⟨hb, hnew⟩ := displace_noNew hd
      obtain ⟨hlast, hb', hnew'⟩ := displaceAll_success h
      refine ⟨hlast, hb'.trans hb, fun side i j => ?_⟩
      rcases hnew' side i j with h0 | ⟨side', i', j', he⟩
      · exact Or.inl h0
      · rw [he]
        exact hnew side' i' j'

/-- A hash is a bucket number or, under a count that has wrapped around to 0, a value. -/
theorem hash_lt_word (buckets : Nat) (val : Val) (side : Side) : hash buckets val side < 2 ^ 32 := by
  have hv := val.isLt
  cases side
  · exact (Nat.mod_le _ _).trans_lt hv
  · exact ((Nat.mod_le _ _).trans (Nat.div_le_self _ _)).trans_lt hv

/-- A success of the private insert, whether or not its indices are below the count. -/
theorem insertAt_success {rand : Nat → Nat} {side : Side} {idx slot : Nat}
    (h : c.insertAt val idx1 idx2 rand = (.success side idx slot, d)) :
    Bucket idx1 idx2 side idx ∧ slot < width ∧ d.buckets = c.buckets ∧ c.NoNew d := by
  have hsame : c.NoNew c := fun _ _ _ => Or.inr ⟨_, _, _, rfl⟩
  have hgood : ∀ {path : List Hop}, findPath c.scheme (.still c.view) rand idx1 idx2 = some path →
      GoodPath c.scheme (2 ^ 32 + idx1 + idx2 + 1) idx1 idx2 path := fun hp =>
    findPath_good width_pos (fun v s => (hash_lt_word c.buckets v s).trans_le (by omega))
      (by omega) (by omega) hp
  have hend : ∀ {path : List Hop}, findPath c.scheme (.still c.view) rand idx1 idx2 = some path →
      path.getLast? = some ⟨side, idx, slot⟩ → Bucket idx1 idx2 side idx ∧ slot < width := by
    intro path hp hlast
    exact ⟨(hgood hp).last hlast, ((hgood hp).bounds _ (List.mem_of_getLast? hlast)).2⟩
  unfold insertAt at h
  rcases firstCheck_spec c val idx1 idx2 with ⟨hf, _⟩ | ⟨_, _, _, hf, _, hb, hs, _⟩ | ⟨hf, _⟩
  · rw [hf] at h
    cases h
  · rw [hf] at h
    cases h
    exact ⟨hb, hs, rfl, hsame⟩
  · rw [hf] at h
    dsimp only at h
    split at h
    · cases h
    · rename_i hop hp
      obtain ⟨hr, rfl⟩ := Prod.mk.inj h
      have hclaim : hop = ⟨side, idx, slot⟩ := by
        unfold claim at hr
        split at hr
        · cases hr
          rfl
        · cases hr
      obtain ⟨hb, hs⟩ := hend hp (by rw [hclaim]; rfl)
      exact ⟨hb, hs, rfl, hsame⟩
    · rename_i path _ hp
      obtain ⟨hlast, hbuckets, hnew⟩ := displaceAll_success h
      obtain ⟨hb, hs⟩ := hend hp hlast
      exact ⟨hb, hs, hbuckets, hnew⟩

theorem copied_noNew (c : Cuckoo) (buckets : Nat) (side : Side) : ∀ (seen : List (Nat × Nat)) (i j : Nat),
    (copied c buckets side seen).elements i j = 0 ∨
      ∃ p ∈ seen, (copied c buckets side seen).elements i j = c.view side p.1 p.2 := by
  intro seen
  induction seen using List.reverseRecOn with
  | nil => exact fun _ _ => Or.inl rfl
  | append_singleton seen p ih =>
    intro i j
    have hold : (copied c buckets side seen).elements i j = 0 ∨ ∃ q ∈ seen ++ [p],
        (copied c buckets side seen).elements i j = c.view side q.1 q.2 :=
      (ih i j).imp_right fun ⟨q, hq, he⟩ => ⟨q, List.mem_append_left _ hq, he⟩
    rw [copied_snoc]
    by_cases h0 : c.view side p.1 p.2 = 0
    · rw [copySlot_empty h0]
      exact hold
    cases hs : (copied c buckets side seen).isAvailable
        (hash buckets (c.view side p.1 p.2) side) with
    | none =>
      rw [copySlot_none hs]
      exact hold
    | some slot =>
      rw [copySlot_some h0 hs, Table.elements_set]
      split
      · exact Or.inr ⟨p, by simp, rfl⟩
      · exact hold

/-- A value that is not stored is nowhere in the resized tables, not even outside
their buckets. -/
theorem resize_absent (hv : val ≠ 0) (h : val ∉ stored c.content) (side : Side) (i j : Nat) :
    c.resize.view side i j ≠ val := by
  intro he
  rw [resize_view] at he
  rcases copied_noNew c (doubled c.buckets) side (visited (doubled c.buckets / 4)) i j
    with h0 | ⟨p, hp, hpv⟩
  · exact hv (he.symm.trans h0)
  · have hp := mem_visited.mp hp
    have := lower_le c.buckets
    exact h ⟨(side, p.1, p.2), content_eq_some.mpr ⟨by omega, hp.2, hpv.symm.trans he, hv⟩⟩

theorem resized_absent (hv : val ≠ 0) (h : val ∉ stored c.content) :
    ∀ n, val ∉ stored (c.resized n).content
  | 0 => h
  | n + 1 => by
    rw [resized_snoc]
    intro hall
    obtain ⟨⟨side, idx, slot⟩, hcell⟩ := hall
    exact resize_absent hv (resized_absent hv h n) side idx slot (content_eq_some.mp hcell).2.2.1

/-- The buckets a lookup reads hold the value only where the last write put it. -/
theorem placed_iff {side : Side} {idx slot : Nat} (hs : slot < width)
    (hfree : ∀ side', ∀ j < width, d.view side' (hash d.buckets val side') j ≠ val) :
    (∃ side', ∃ j < width, (d.write side idx slot val).view side'
      (hash (d.write side idx slot val).buckets val side') j = val) ↔
      hash d.buckets val side = idx := by
  simp only [write_buckets, view_write]
  constructor
  · intro hall
    obtain ⟨side', j, hj, he⟩ := hall
    split at he
    · rename_i h
      rw [← h.1]
      exact h.2.1
    · exact absurd he (hfree side' j hj)
  · intro he
    exact ⟨side, slot, hs, if_pos ⟨rfl, he, rfl⟩⟩

/-- A private insert that does not answer DUPLICATE has found the value missing. -/
theorem absent_of_answer (hc : c.WellPlaced) (rand : Nat → Nat)
    (h : (c.insertAt val (hash c.buckets val .one) (hash c.buckets val .two) rand).1 ≠
      .duplicate) : val ∉ stored c.content := by
  cases hres : c.insertAt val (hash c.buckets val .one) (hash c.buckets val .two) rand with
  | mk r d =>
    rw [hres] at h
    obtain ⟨_, _, hcase⟩ := insertAt_spec hc.pos (hash_lt hc.pos val .one)
      (hash_lt hc.pos val .two) hres
    rcases hcase with ⟨rfl, _⟩ | ⟨_, _, hm, _⟩ | ⟨_, hm⟩ | ⟨_, _, _, _, hm, _⟩
    · exact absurd rfl h
    all_goals exact hc.not_stored hm

/-- In the round that succeeds, the table it puts the value in gives the value the same
index under the bucket count of that round as under the count at the call. -/
def KeepsIndex (c : Cuckoo) (val : Val) (rands : Nat → Nat → Nat) : Prop :=
  ∀ n side idx slot d,
    c.Succeeds val (hash c.buckets val .one) (hash c.buckets val .two) rands n side idx slot d →
    hash (Nat.iterate doubled n c.buckets) val side = hash c.buckets val side

end Cuckoo

/-- **Where an insert that returns true has put the value**: in a bucket a lookup reads,
exactly when the index it computed before its resizes is still the value's own. -/
theorem insert_places_iff {c c' : Cuckoo} (hc : c.WellPlaced) {val : Val} (hv : val ≠ 0)
    {rands : Nat → Nat → Nat} {fuel : Nat} (h : c.insert val rands fuel = some (true, c')) :
    ((∃ side, ∃ slot < width, c'.view side (hash c'.buckets val side) slot = val) ∧
      c'.contains val = true) ↔ c.KeepsIndex val rands := by
  obtain ⟨n, side, idx, slot, d, hround, rfl⟩ := Cuckoo.insertLoop_true h
  simp only [Nat.zero_add] at hround
  obtain ⟨hb, hs, hbuckets, hnew⟩ := Cuckoo.insertAt_success hround.2
  rw [Cuckoo.resized_buckets] at hbuckets
  have hidx : idx = hash c.buckets val side := by
    rcases hb with ⟨rfl, rfl⟩ | ⟨rfl, rfl⟩ <;> rfl
  -- the value is not in the buckets a lookup reads before the last write
  have habsent : val ∉ stored c.content := by
    refine Cuckoo.absent_of_answer hc (rands 0) ?_
    cases n with
    | zero =>
      have hanswer : (c.insertAt val (hash c.buckets val .one) (hash c.buckets val .two)
        (rands 0)).1 = .success side idx slot := congrArg Prod.fst hround.2
      rw [hanswer]
      intro hr
      cases hr
    | succ n =>
      have hanswer : (c.insertAt val (hash c.buckets val .one) (hash c.buckets val .two)
        (rands 0)).1 = .resize := hround.1 0 (Nat.succ_pos n)
      rw [hanswer]
      intro hr
      cases hr
  have hfree : ∀ side', ∀ j < width, d.view side' (hash d.buckets val side') j ≠ val := by
    intro side' j hj he
    cases n with
    | zero =>
      obtain ⟨hb', hmoves, _⟩ := Cuckoo.insertAt_spec hc.pos (hash_lt hc.pos val .one)
        (hash_lt hc.pos val .two) hround.2
      have hmem : val ∈ stored d.content := ⟨_, Cuckoo.content_eq_some.mpr
        ⟨hash_lt (hb' ▸ hc.pos) val side', hj, he, hv⟩⟩
      rw [hmoves.stored_eq] at hmem
      exact habsent hmem
    | succ n =>
      rcases hnew side' (hash d.buckets val side') j with h0 | ⟨s', i', j', hsame⟩
      · exact hv (he.symm.trans h0)
      · rw [Cuckoo.resized_snoc] at hsame
        exact Cuckoo.resize_absent hv (Cuckoo.resized_absent hv habsent n) s' i' j'
          (hsame.symm.trans he)
  have hcontains : (d.write side idx slot val).contains val = true ↔
      ∃ side', ∃ j < width, (d.write side idx slot val).view side'
        (hash (d.write side idx slot val).buckets val side') j = val := by
    unfold Cuckoo.contains
    rw [Cuckoo.found_iff]
    constructor
    · intro hall
      obtain ⟨side', i, j, ⟨rfl, rfl⟩ | ⟨rfl, rfl⟩, hj, he⟩ := hall
      · exact ⟨.one, j, hj, he⟩
      · exact ⟨.two, j, hj, he⟩
    · intro hall
      obtain ⟨side', j, hj, he⟩ := hall
      refine ⟨side', _, j, ?_, hj, he⟩
      cases side'
      · exact Or.inl ⟨rfl, rfl⟩
      · exact Or.inr ⟨rfl, rfl⟩
  rw [hcontains, and_self, Cuckoo.placed_iff hs hfree, hbuckets, hidx]
  constructor
  · intro hsame n' side' idx' slot' d' hround'
    obtain ⟨rfl, rfl⟩ := hround.unique hround'
    exact hsame
  · intro hkeep
    exact hkeep n side idx slot d hround

/-- The thirteenth of the values that share both buckets among four, and under eight
buckets too, is found after the resize its insert makes. -/
theorem insert_places_resized :
    ∃ s c', exec callStep (Cuckoo.new 4, [])
        (inserts [17, 33, 49, 65, 81, 97, 113, 129, 145, 161, 177, 193]) = some s ∧
      s.1.insert 1 (fun _ _ => 0) 2 = some (true, c') ∧ c'.buckets = 8 ∧ c'.contains 1 = true ∧
      s.1.KeepsIndex 1 (fun _ _ => 0) := by
  have hrun : (exec callStep (Cuckoo.new 4, [])
      (inserts [17, 33, 49, 65, 81, 97, 113, 129, 145, 161, 177, 193])).map (fun s =>
        (s.1.insert 1 (fun _ _ => 0) 2).map fun r => (r.1, r.2.buckets, r.2.contains 1,
          r.2.view .two (hash r.2.buckets 1 .two) 2)) = some (some (true, 8, true, 1)) := by
    decide +kernel
  obtain ⟨s, hs, hdata⟩ := Option.map_eq_some_iff.mp hrun
  obtain ⟨⟨r, c'⟩, hins, hdata⟩ := Option.map_eq_some_iff.mp hdata
  obtain ⟨hr, hb, hcontains, hslot⟩ : _ ∧ _ ∧ _ ∧ _ := by simpa only [Prod.mk.injEq] using hdata
  subst hr
  obtain ⟨hrep, _⟩ := run_represents (by decide) (by decide) hs (by decide +kernel)
  exact ⟨s, c', hs, hins, hb, hcontains, (insert_places_iff hrep.toWellPlaced (by decide) hins).mp
    ⟨⟨.two, 2, by decide, hslot⟩, hcontains⟩⟩

/-- The thirteenth insert into a table of one bucket resizes it and puts 13 in the
first bucket; under two buckets 13 belongs elsewhere. -/
theorem insert_of_13_not_found :
    ∃ s c', exec callStep (Cuckoo.new 1, []) (inserts [1, 2, 3, 4, 5, 6, 7, 8, 9, 10, 11, 12]) =
        some s ∧ s.1.WellPlaced ∧ Unique id s.1.content ∧
      s.1.insert 13 (fun _ _ => 0) 2 = some (true, c') ∧ c'.contains 13 = false := by
  have hrun : (exec callStep (Cuckoo.new 1, [])
      (inserts [1, 2, 3, 4, 5, 6, 7, 8, 9, 10, 11, 12])).map (fun s =>
        (s.1.insert 13 (fun _ _ => 0) 2).map fun r => (r.1, r.2.contains 13)) =
      some (some (true, false)) := by
    decide +kernel
  obtain ⟨s, hs, hdata⟩ := Option.map_eq_some_iff.mp hrun
  obtain ⟨⟨r, c'⟩, hins, hdata⟩ := Option.map_eq_some_iff.mp hdata
  obtain ⟨hr, hcontains⟩ := Prod.mk.inj hdata
  subst hr
  obtain ⟨hrep, _⟩ := run_represents (by decide) (by decide) hs (by decide +kernel)
  exact ⟨s, c', hs, hrep.toWellPlaced, hrep.unique, hins, hcontains⟩

end ConcurrentComputing.TwoTable
