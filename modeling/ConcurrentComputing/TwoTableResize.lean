import ConcurrentComputing.TwoTableSections

/-! # What a resize of the two-table set copies

The copy loop runs to a quarter of the doubled bucket count, the lower half of the
old buckets, and writes each value it meets to the first free slot of its new
bucket. Where that bucket is full, `isAvailable` answers -1 and the write goes
outside it. -/

namespace ConcurrentComputing.TwoTable.Cuckoo

open CuckooPath Placement

/-- The copy loop as one pass over the (index, slot) pairs it visits. -/
def visited (n : Nat) : List (Nat × Nat) :=
  (List.range n).flatMap fun i => (List.range width).map fun j => (i, j)

theorem mem_visited {n : Nat} {p : Nat × Nat} : p ∈ visited n ↔ p.1 < n ∧ p.2 < width := by
  obtain ⟨i, j⟩ := p
  simp [visited]

theorem visited_nodup (n : Nat) : (visited n).Nodup := by
  unfold visited
  rw [List.nodup_flatMap]
  refine ⟨fun i _ => List.nodup_range.map fun a b h => (Prod.mk.inj h).2, ?_⟩
  refine List.nodup_range.imp fun {i i'} hne => ?_
  intro p hp hp'
  obtain ⟨j, _, rfl⟩ := List.mem_map.mp hp
  obtain ⟨j', _, h⟩ := List.mem_map.mp hp'
  exact hne (Prod.mk.inj h).1.symm

theorem copyLoop_eq (c : Cuckoo) (buckets : Nat) (side : Side) :
    c.copyLoop buckets side = (visited (buckets / 4)).foldl
      (fun t p => copySlot buckets side t (c.view side p.1 p.2)) .new := by
  simp only [copyLoop, visited, List.foldl_flatMap, List.foldl_map]

/-- The new table after the given pairs. -/
def copied (c : Cuckoo) (buckets : Nat) (side : Side) (seen : List (Nat × Nat)) : Table :=
  seen.foldl (fun t p => copySlot buckets side t (c.view side p.1 p.2)) .new

theorem copied_snoc (c : Cuckoo) (buckets : Nat) (side : Side) (seen : List (Nat × Nat))
    (p : Nat × Nat) : copied c buckets side (seen ++ [p]) =
      copySlot buckets side (copied c buckets side seen) (c.view side p.1 p.2) := by
  simp [copied]

theorem nodup_snoc {seen : List (Nat × Nat)} {p : Nat × Nat} (h : (seen ++ [p]).Nodup) :
    seen.Nodup ∧ p ∉ seen := by
  obtain ⟨hn, _, hne⟩ := List.nodup_append.mp h
  exact ⟨hn, fun hp => hne p hp p (by simp) rfl⟩

/-- What the new table holds comes from the pairs `seen`, and each value once. -/
structure Drawn (c : Cuckoo) (buckets : Nat) (side : Side) (seen : List (Nat × Nat))
    (t : Table) : Prop where
  origin : ∀ idx slot, slot < width → t.elements idx slot ≠ 0 →
    idx = hash buckets (t.elements idx slot) side ∧
      ∃ p ∈ seen, c.view side p.1 p.2 = t.elements idx slot
  once : ∀ i s i' s', s < width → s' < width → t.elements i s ≠ 0 →
    t.elements i s = t.elements i' s' → i = i' ∧ s = s'

/-- The old table holds no value twice among the given pairs. -/
def Distinct (c : Cuckoo) (side : Side) (seen : List (Nat × Nat)) : Prop :=
  ∀ p ∈ seen, ∀ q ∈ seen, c.view side p.1 p.2 ≠ 0 →
    c.view side p.1 p.2 = c.view side q.1 q.2 → p = q

/-- Each pair of the list, when its turn comes, finds room in its new bucket. -/
def FindsRoom (c : Cuckoo) (buckets : Nat) (side : Side) (seen : List (Nat × Nat)) : Prop :=
  ∀ pre p, pre ++ [p] <+: seen → c.view side p.1 p.2 ≠ 0 → ∃ slot < width,
    (copied c buckets side pre).isAvailable (hash buckets (c.view side p.1 p.2) side) = some slot

/-- How many values in the first `n` buckets have the given index under the new
count. -/
def arrivals (c : Cuckoo) (n buckets : Nat) (side : Side) (idx : Nat) : Nat :=
  ((Finset.range n ×ˢ Finset.range width).filter fun p =>
    c.view side p.1 p.2 ≠ 0 ∧ hash buckets (c.view side p.1 p.2) side = idx).card

section Copy

variable {c : Cuckoo} {buckets : Nat} {side : Side} {seen : List (Nat × Nat)} {t : Table}
  {p : Nat × Nat}

theorem copySlot_empty {val : Val} (h : val = 0) : copySlot buckets side t val = t := by
  simp [copySlot, Table.isOccupied, h]

theorem copySlot_none {val : Val} (hs : t.isAvailable (hash buckets val side) = none) :
    copySlot buckets side t val = t := by
  unfold copySlot
  split
  · simp only [hs]
  · rfl

theorem copySlot_some {val : Val} {slot : Nat} (h : val ≠ 0)
    (hs : t.isAvailable (hash buckets val side) = some slot) :
    copySlot buckets side t val = t.set (hash buckets val side) slot val := by
  unfold copySlot
  rw [if_pos (Table.isOccupied_iff.mpr h)]
  simp only [hs]

theorem Drawn.mono {more : List (Nat × Nat)} (h : Drawn c buckets side seen t) :
    Drawn c buckets side (seen ++ more) t where
  origin := fun idx slot hs hne => by
    obtain ⟨hi, q, hq, hv⟩ := h.origin idx slot hs hne
    exact ⟨hi, q, List.mem_append_left _ hq, hv⟩
  once := h.once

/-- A value met for the first time is not in the new table. -/
theorem Drawn.fresh (h : Drawn c buckets side seen t) (hp : p ∉ seen)
    (huniq : ∀ q ∈ seen, c.view side q.1 q.2 ≠ 0 →
      c.view side q.1 q.2 = c.view side p.1 p.2 → q = p)
    {i s : Nat} (hs : s < width) (hne : t.elements i s ≠ 0) :
    t.elements i s ≠ c.view side p.1 p.2 := by
  intro he
  obtain ⟨_, q, hq, hv⟩ := h.origin i s hs hne
  exact hp (huniq q hq (hv ▸ hne) (hv.trans he) ▸ hq)

theorem Drawn.step (h : Drawn c buckets side seen t) (hp : p ∉ seen)
    (huniq : ∀ q ∈ seen, c.view side q.1 q.2 ≠ 0 →
      c.view side q.1 q.2 = c.view side p.1 p.2 → q = p) :
    Drawn c buckets side (seen ++ [p]) (copySlot buckets side t (c.view side p.1 p.2)) := by
  by_cases h0 : c.view side p.1 p.2 = 0
  · rw [copySlot_empty h0]
    exact h.mono
  cases hs : t.isAvailable (hash buckets (c.view side p.1 p.2) side) with
  | none =>
    rw [copySlot_none hs]
    exact h.mono
  | some slot =>
    rw [copySlot_some h0 hs]
    refine ⟨?_, ?_⟩
    · intro i s hsw hv
      rw [Table.elements_set] at hv ⊢
      split at hv
      · rename_i he
        rw [if_pos he]
        exact ⟨he.1, p, by simp, rfl⟩
      · rename_i he
        rw [if_neg he]
        exact h.mono.origin i s hsw hv
    · intro i s i' s' hsw hsw' hv he
      rw [Table.elements_set] at hv
      rw [Table.elements_set, Table.elements_set] at he
      split at he <;> split at he
      · rename_i h1 h2
        exact ⟨h1.1.trans h2.1.symm, h1.2.trans h2.2.symm⟩
      · exact absurd he.symm (h.fresh hp huniq hsw' (he ▸ h0))
      · rename_i h1 h2
        rw [if_neg h1] at hv
        exact absurd he (h.fresh hp huniq hsw hv)
      · rename_i h1 h2
        rw [if_neg h1] at hv
        exact h.once i s i' s' hsw hsw' hv he

theorem drawn_copied : ∀ {seen : List (Nat × Nat)}, seen.Nodup → Distinct c side seen →
    Drawn c buckets side seen (copied c buckets side seen) := by
  intro seen
  induction seen using List.reverseRecOn with
  | nil => exact fun _ _ => ⟨fun _ _ _ h => absurd rfl h, fun _ _ _ _ _ _ h => absurd rfl h⟩
  | append_singleton seen p ih =>
    intro hn hd
    rw [copied_snoc]
    obtain ⟨hn, hp⟩ := nodup_snoc hn
    refine (ih hn fun x hx y hy => hd x (List.mem_append_left _ hx) y
      (List.mem_append_left _ hy)).step hp fun q hq hne he => ?_
    exact hd q (List.mem_append_left _ hq) p (by simp) hne he

/-- A value in the new table stays where it is. -/
theorem copySlot_keeps {val : Val} {idx slot : Nat} (h : t.elements idx slot ≠ 0) :
    (copySlot buckets side t val).elements idx slot = t.elements idx slot := by
  by_cases h0 : val = 0
  · rw [copySlot_empty h0]
  cases hs : t.isAvailable (hash buckets val side) with
  | none => rw [copySlot_none hs]
  | some s =>
    rw [copySlot_some h0 hs, Table.elements_set, if_neg]
    intro hall
    obtain ⟨rfl, rfl⟩ := hall
    exact h (Table.isAvailable_some hs).2

/-- With room for all of them, every value of the pairs is in the new table. -/
theorem kept_copied : ∀ {seen : List (Nat × Nat)}, FindsRoom c buckets side seen →
    ∀ p ∈ seen, c.view side p.1 p.2 ≠ 0 → ∃ slot < width,
      (copied c buckets side seen).elements (hash buckets (c.view side p.1 p.2) side) slot =
        c.view side p.1 p.2 := by
  intro seen
  induction seen using List.reverseRecOn with
  | nil => intro _ p hp; cases hp
  | append_singleton seen q ih =>
    intro hroom p hp hne
    rw [copied_snoc]
    rcases List.mem_append.mp hp with hp | hp
    · have hpre : FindsRoom c buckets side seen := fun pre x hx =>
        hroom pre x (hx.trans (List.prefix_append _ _))
      obtain ⟨slot, hs, he⟩ := ih hpre p hp hne
      exact ⟨slot, hs, (copySlot_keeps (by rw [he]; exact hne)).trans he⟩
    · rw [List.mem_singleton.mp hp] at hne ⊢
      obtain ⟨slot, hs, hav⟩ := hroom seen q (List.prefix_rfl) hne
      exact ⟨slot, hs, by rw [copySlot_some hne hav, Table.elements_set, if_pos ⟨rfl, rfl⟩]⟩

/-- A new bucket gets at most `WIDTH` of the values that found room. -/
theorem arrivals_le {n idx : Nat} (hd : Distinct c side (visited n))
    (hkept : ∀ p ∈ visited n, c.view side p.1 p.2 ≠ 0 → ∃ slot < width,
      t.elements (hash buckets (c.view side p.1 p.2) side) slot = c.view side p.1 p.2) :
    arrivals c n buckets side idx ≤ width := by
  have hslot : ∀ p : Nat × Nat, ∃ slot, p ∈ visited n → c.view side p.1 p.2 ≠ 0 →
      slot < width ∧
        t.elements (hash buckets (c.view side p.1 p.2) side) slot = c.view side p.1 p.2 := by
    intro p
    by_cases hp : p ∈ visited n ∧ c.view side p.1 p.2 ≠ 0
    · obtain ⟨slot, hs, he⟩ := hkept p hp.1 hp.2
      exact ⟨slot, fun _ _ => ⟨hs, he⟩⟩
    · exact ⟨0, fun h h' => absurd ⟨h, h'⟩ hp⟩
  choose f hf using hslot
  have hmem : ∀ {p : Nat × Nat}, p ∈ (Finset.range n ×ˢ Finset.range width).filter (fun p =>
      c.view side p.1 p.2 ≠ 0 ∧ hash buckets (c.view side p.1 p.2) side = idx) →
      p ∈ visited n ∧ c.view side p.1 p.2 ≠ 0 ∧
        hash buckets (c.view side p.1 p.2) side = idx := by
    intro p hp
    obtain ⟨hp, hne, hh⟩ := Finset.mem_filter.mp hp
    rw [Finset.mem_product, Finset.mem_range, Finset.mem_range] at hp
    exact ⟨mem_visited.mpr hp, hne, hh⟩
  unfold arrivals
  rw [← Finset.card_range width]
  refine Finset.card_le_card_of_injOn f (fun p hp => ?_) fun p hp q hq he => ?_
  · obtain ⟨hp, hne, _⟩ := hmem hp
    exact Finset.mem_coe.mpr (Finset.mem_range.mpr (hf p hp hne).1)
  · obtain ⟨hp, hne, hh⟩ := hmem hp
    obtain ⟨hq, hne', hh'⟩ := hmem hq
    have hv := (hf p hp hne).2
    have hv' := (hf q hq hne').2
    rw [hh, he] at hv
    rw [hh'] at hv'
    exact hd p hp q hq hne (hv.symm.trans hv')

/-- A full new bucket would be the target of `WIDTH` earlier values and this one. -/
theorem Drawn.available {n : Nat} (h : Drawn c buckets side seen t) (hp : p ∉ seen)
    (hpn : p ∈ visited n) (hseen : ∀ q ∈ seen, q ∈ visited n) (hne : c.view side p.1 p.2 ≠ 0)
    (hroom : arrivals c n buckets side (hash buckets (c.view side p.1 p.2) side) ≤ width) :
    t.isAvailable (hash buckets (c.view side p.1 p.2) side) ≠ none := by
  intro hnone
  have hfull := Table.isAvailable_none hnone
  have horigin : ∀ s : Nat, ∃ q : Nat × Nat, s < width → q ∈ seen ∧
      c.view side q.1 q.2 = t.elements (hash buckets (c.view side p.1 p.2) side) s ∧
      hash buckets (c.view side q.1 q.2) side = hash buckets (c.view side p.1 p.2) side := by
    intro s
    by_cases hs : s < width
    · obtain ⟨hidx, q, hq, hv⟩ := h.origin _ s hs (hfull s hs)
      exact ⟨q, fun _ => ⟨hq, hv, by rw [hv]; exact hidx.symm⟩⟩
    · exact ⟨p, fun hs' => absurd hs' hs⟩
  choose f hf using horigin
  have hpair : ∀ {q : Nat × Nat}, q ∈ visited n → q ∈ Finset.range n ×ˢ Finset.range width := by
    intro q hq
    rw [Finset.mem_product, Finset.mem_range, Finset.mem_range]
    exact mem_visited.mp hq
  have hmaps : ∀ s ∈ Finset.range width, f s ∈
      ((Finset.range n ×ˢ Finset.range width).filter fun q =>
        c.view side q.1 q.2 ≠ 0 ∧ hash buckets (c.view side q.1 q.2) side =
          hash buckets (c.view side p.1 p.2) side).erase p := by
    intro s hs
    have hs := Finset.mem_range.mp hs
    obtain ⟨hq, hv, hh⟩ := hf s hs
    refine Finset.mem_erase.mpr ⟨fun he => hp (he ▸ hq),
      Finset.mem_filter.mpr ⟨hpair (hseen _ hq), ?_, hh⟩⟩
    rw [hv]
    exact hfull s hs
  have hinj : Set.InjOn f (Finset.range width : Set Nat) := by
    intro s hs s' hs' he
    have hs := Finset.mem_range.mp (Finset.mem_coe.mp hs)
    have hs' := Finset.mem_range.mp (Finset.mem_coe.mp hs')
    have hv := (hf s hs).2.1
    rw [he, (hf s' hs').2.1] at hv
    exact (h.once _ s _ s' hs hs' (hfull s hs) hv.symm).2
  have hcard := Finset.card_le_card_of_injOn f hmaps hinj
  rw [Finset.card_range, Finset.card_erase_of_mem (Finset.mem_filter.mpr
    ⟨hpair hpn, hne, rfl⟩)] at hcard
  unfold arrivals at hroom
  have := width_pos
  omega

/-- **When the copy loop has room**: no new bucket is the target of more than `WIDTH`
of the values it copies. -/
theorem findsRoom_iff {n : Nat} (hd : Distinct c side (visited n)) :
    FindsRoom c buckets side (visited n) ↔ ∀ idx, arrivals c n buckets side idx ≤ width := by
  refine ⟨fun h idx => arrivals_le hd (kept_copied h), fun h pre p hpre hne => ?_⟩
  have hsub : ∀ q ∈ pre, q ∈ visited n := fun q hq => hpre.subset (List.mem_append_left _ hq)
  obtain ⟨hn, hp⟩ := nodup_snoc (hpre.sublist.nodup (visited_nodup n))
  have hdrawn : Drawn c buckets side pre (copied c buckets side pre) :=
    drawn_copied hn fun x hx y hy => hd x (hsub x hx) y (hsub y hy)
  have hav := hdrawn.available hp (hpre.subset (by simp)) hsub hne (h _)
  obtain ⟨slot, hs⟩ := Option.ne_none_iff_exists'.mp hav
  exact ⟨slot, (Table.isAvailable_some hs).1, hs⟩

end Copy

/-! ## The resized tables -/

section Resize

variable {c : Cuckoo}

theorem lower_le (buckets : Nat) : doubled buckets / 4 ≤ buckets := by
  have : doubled buckets ≤ buckets * 2 := Nat.mod_le _ _
  omega

theorem distinct_visited (hu : Unique id c.content) {n : Nat} (hn : n ≤ c.buckets) (side : Side) :
    Distinct c side (visited n) := by
  intro p hp q hq hne he
  have hp := mem_visited.mp hp
  have hq := mem_visited.mp hq
  have h := hu (side, p.1, p.2) (side, q.1, q.2) _ _
    (content_eq_some.mpr ⟨by omega, hp.2, rfl, hne⟩)
    (content_eq_some.mpr ⟨by omega, hq.2, rfl, he ▸ hne⟩) he
  simpa [Prod.ext_iff] using h

theorem resize_view (c : Cuckoo) (side : Side) (idx slot : Nat) :
    c.resize.view side idx slot =
      (copied c (doubled c.buckets) side (visited (doubled c.buckets / 4))).elements idx slot := by
  cases side
  · exact congrArg (fun t => t.elements idx slot) (copyLoop_eq c _ .one)
  · exact congrArg (fun t => t.elements idx slot) (copyLoop_eq c _ .two)

theorem resize_drawn (hu : Unique id c.content) (side : Side) :
    Drawn c (doubled c.buckets) side (visited (doubled c.buckets / 4))
      (copied c (doubled c.buckets) side (visited (doubled c.buckets / 4))) :=
  drawn_copied (visited_nodup _) (distinct_visited hu (lower_le _) side)

/-- Whatever the resized tables hold was in the lower half of the same table, and is
at its new index. -/
theorem resize_origin (hu : Unique id c.content) {side : Side} {idx slot : Nat} (hs : slot < width)
    (hne : c.resize.view side idx slot ≠ 0) :
    idx = hash (doubled c.buckets) (c.resize.view side idx slot) side ∧
      ∃ p : Nat × Nat, p.1 < doubled c.buckets / 4 ∧
        c.content (side, p.1, p.2) = some (c.resize.view side idx slot) := by
  rw [resize_view] at hne ⊢
  obtain ⟨hi, p, hp, hv⟩ := (resize_drawn hu side).origin idx slot hs hne
  have hp := mem_visited.mp hp
  have := lower_le c.buckets
  exact ⟨hi, p, hp.1, content_eq_some.mpr ⟨by omega, hp.2, hv, hne⟩⟩

theorem resize_content (hu : Unique id c.content) {side : Side} {idx slot : Nat} {a : Val}
    (h : c.resize.content (side, idx, slot) = some a) :
    (idx = hash (doubled c.buckets) a side ∧ slot < width) ∧
      ∃ p : Nat × Nat, p.1 < doubled c.buckets / 4 ∧ c.content (side, p.1, p.2) = some a := by
  obtain ⟨_, hs, rfl, hne⟩ := content_eq_some.mp h
  obtain ⟨hi, hp⟩ := resize_origin hu hs hne
  exact ⟨⟨hi, hs⟩, hp⟩

theorem resize_placed (hu : Unique id c.content) :
    Placed (home (doubled c.buckets)) c.resize.content := by
  intro cell a h
  obtain ⟨side, idx, slot⟩ := cell
  exact (resize_content hu h).1

theorem resize_unique (hu : Unique id c.content) : Unique id c.resize.content := by
  rintro ⟨side, idx, slot⟩ ⟨side', idx', slot'⟩ a b ha hb (he : a = b)
  subst he
  obtain ⟨⟨_, hs⟩, p, _, hp⟩ := resize_content hu ha
  obtain ⟨⟨_, hs'⟩, q, _, hq⟩ := resize_content hu hb
  have hside : side = side' := (Prod.mk.inj (hu _ _ _ _ hp hq rfl)).1
  subst hside
  obtain ⟨_, _, hv, hne⟩ := content_eq_some.mp ha
  obtain ⟨_, _, hv', _⟩ := content_eq_some.mp hb
  rw [resize_view] at hv hv'
  obtain ⟨rfl, rfl⟩ := (resize_drawn hu side).once idx slot idx' slot' hs hs' (hv ▸ hne)
    (hv.trans hv'.symm)
  rfl

/-- Every stored value sits in a bucket the copy loop reaches. -/
def Reached (c : Cuckoo) : Prop :=
  ∀ side, ∀ idx < c.buckets, ∀ slot < width,
    c.view side idx slot ≠ 0 → idx < doubled c.buckets / 4

/-- No new bucket is the target of more than `WIDTH` of the values copied. -/
def Roomy (c : Cuckoo) : Prop :=
  ∀ side idx, arrivals c (doubled c.buckets / 4) (doubled c.buckets) side idx ≤ width

/-- **What a resize keeps**: all that is stored, exactly when the copy loop reaches it
and has room for it. -/
theorem resize_stored_iff (hu : Unique id c.content) :
    stored c.resize.content = stored c.content ↔ c.Reached ∧ c.Roomy := by
  have hdistinct := distinct_visited hu (lower_le c.buckets)
  constructor
  · intro h
    -- a value stored before is stored after, so it comes from the lower half
    have hfrom : ∀ {side : Side} {idx slot : Nat}, idx < c.buckets → slot < width →
        c.view side idx slot ≠ 0 → idx < doubled c.buckets / 4 ∧ ∃ s < width,
          c.resize.view side (hash (doubled c.buckets) (c.view side idx slot) side) s =
            c.view side idx slot := by
      intro side idx slot hi hs hne
      have hcell : c.content (side, idx, slot) = some (c.view side idx slot) :=
        content_eq_some.mpr ⟨hi, hs, rfl, hne⟩
      have hmem : c.view side idx slot ∈ stored c.resize.content := h ▸ ⟨_, hcell⟩
      obtain ⟨⟨side', idx', slot'⟩, hnew⟩ := hmem
      obtain ⟨⟨hidx, hs'⟩, p, hp, hold⟩ := resize_content hu hnew
      have hsame := hu _ _ _ _ hold hcell rfl
      simp only [Prod.mk.injEq] at hsame
      obtain ⟨rfl, rfl, _⟩ := hsame
      obtain ⟨_, _, hv, _⟩ := content_eq_some.mp hnew
      exact ⟨hp, slot', hs', by rw [← hidx, hv]⟩
    refine ⟨fun side idx hi slot hs hne => (hfrom hi hs hne).1, fun side idx => ?_⟩
    refine arrivals_le (t := copied c (doubled c.buckets) side
      (visited (doubled c.buckets / 4))) (hdistinct side) fun p hp hne => ?_
    have hp := mem_visited.mp hp
    have hlt : p.1 < c.buckets := by have := lower_le c.buckets; omega
    obtain ⟨_, s, hs, hv⟩ := hfrom hlt hp.2 hne
    rw [resize_view] at hv
    exact ⟨s, hs, hv⟩
  · intro hall
    obtain ⟨hreached, hroomy⟩ := hall
    ext a
    refine ⟨?_, ?_⟩
    · intro hall
      obtain ⟨⟨side, idx, slot⟩, h⟩ := hall
      obtain ⟨_, p, _, hp⟩ := resize_content hu h
      exact ⟨_, hp⟩
    · intro hall
      obtain ⟨⟨side, idx, slot⟩, h⟩ := hall
      obtain ⟨hi, hs, rfl, hne⟩ := content_eq_some.mp h
      have hlow := hreached side idx hi slot hs hne
      have hpos : 0 < doubled c.buckets := by omega
      have hroom := (findsRoom_iff (hdistinct side)).mpr (hroomy side)
      obtain ⟨s, hsw, he⟩ := kept_copied hroom (idx, slot) (mem_visited.mpr ⟨hlow, hs⟩) hne
      exact ⟨(side, hash (doubled c.buckets) (c.view side idx slot) side, s),
        content_eq_some.mpr ⟨hash_lt hpos _ side, hsw, by rw [resize_view]; exact he, hne⟩⟩

end Resize

end ConcurrentComputing.TwoTable.Cuckoo
