import ConcurrentComputing.CuckooSearch
import ConcurrentComputing.TwoTableSet

/-! # A lone private insert of the two-table set

The path found in a table nobody else writes comes to no bucket twice, so each
displacement of the loop leaves the rest of the path as the search saw it, and all
of them go through. -/

namespace ConcurrentComputing.TwoTable

open CuckooPath Placement Runs

namespace Cuckoo

variable {c : Cuckoo} {val : Val} {idx1 idx2 : Nat}

/-- A displacement along the path goes through and leaves the path of the next one. -/
theorem displace_route {dst src : Hop} {path : List Hop}
    (h : Route c.scheme c.view (dst :: src :: path)) :
    ∃ d, c.displace dst src = some d ∧ d.buckets = c.buckets ∧
      Route c.scheme d.view (src :: path) := by
  have hnext := (List.isChain_cons_cons.mp h.chain).1
  have hside : dst.table = src.table.other := congrArg Prod.fst hnext
  have hindex : dst.index = hash c.buckets (c.view src.table src.index src.slot) src.table.other :=
    congrArg Prod.snd hnext
  have hfree : c.view dst.table dst.index dst.slot = 0 := h.free dst _ rfl
  have hocc : c.view src.table src.index src.slot ≠ 0 := h.occupied dst _ rfl src (by simp)
  have hdst : Table.isOccupied (c.view src.table.other dst.index dst.slot) = false := by
    rw [← hside]
    exact Table.isOccupied_eq_false.mpr hfree
  have hsrc := Table.isOccupied_iff.mpr hocc
  refine ⟨(c.write src.table.other dst.index dst.slot (c.view src.table src.index src.slot)).write
    src.table src.index src.slot 0, ?_, by simp, ?_⟩
  · simp [displace, hdst, hsrc, ← hindex]
  · refine h.advance ?_ fun hop hne hne' => ?_
    · rw [view_write, if_pos ⟨rfl, rfl, rfl⟩]
      rfl
    · have h₁ : ¬ (hop.table = src.table ∧ hop.index = src.index ∧ hop.slot = src.slot) :=
        fun he => hne' (Prod.ext he.1 he.2.1)
      have h₂ : ¬ (hop.table = src.table.other ∧ hop.index = dst.index ∧ hop.slot = dst.slot) :=
        fun he => hne (Prod.ext (he.1.trans hside.symm) he.2.1)
      rw [view_write, if_neg h₁, view_write, if_neg h₂]

/-- **Every check of the displacement loop passes.** -/
theorem displaceAll_route : ∀ {path : List Hop} {c : Cuckoo} {hop : Hop},
    Route c.scheme c.view (hop :: path) → (c.displaceAll (hop :: path)).1 ≠ .retry
  | [], _, _, _ => by simp [displaceAll]
  | src :: path, c, dst, h => by
    obtain ⟨d, hd, hb, hroute⟩ := displace_route h
    simp only [displaceAll, hd]
    refine displaceAll_route (c := d) ?_
    rw [show d.scheme = c.scheme by simp [scheme, hb]]
    exact hroute

theorem scheme_depth (c : Cuckoo) : 0 < c.scheme.maxSearchDepth := Nat.succ_pos 6

theorem insertAt_ne_retry (c : Cuckoo) (val : Val) (idx1 idx2 : Nat) (rand : Nat → Nat) :
    (c.insertAt val idx1 idx2 rand).1 ≠ .retry := by
  unfold insertAt
  rcases firstCheck_spec c val idx1 idx2 with ⟨hf, _⟩ | ⟨_, _, _, hf, _⟩ | ⟨hf, _⟩
  · rw [hf]
    simp
  · rw [hf]
    simp
  · rw [hf]
    cases hp : findPath c.scheme (.still c.view) rand idx1 idx2 with
    | none => simp
    | some path =>
      obtain ⟨_, b, slot, _, _, hpath, hroute⟩ := findPath_some c.scheme_depth hp
      rw [hops_snoc, List.reverse_append, List.reverse_singleton, List.singleton_append] at hpath
      subst hpath
      cases hrest : (hops c.scheme c.view (start idx1 idx2 b.root) b.slots).reverse with
      | nil =>
        rw [hrest] at hroute
        have hfree := hroute.free _ _ rfl
        have : Table.isOccupied (c.view (follow c.scheme c.view (start idx1 idx2 b.root) b.slots).1
            (follow c.scheme c.view (start idx1 idx2 b.root) b.slots).2 slot) = false :=
          Table.isOccupied_eq_false.mpr hfree
        simp [claim, this]
      | cons src rest =>
        rw [hrest] at hroute
        exact displaceAll_route hroute

end Cuckoo

/-- **A lone private insert.** It answers DUPLICATE exactly when the value is stored and
never RETRY; a duplicate or a failed search leaves the tables alone; a success names an
empty slot of one of the value's two buckets, and the same values are stored as before,
each once and at its own hash index. -/
theorem insertAt_alone {c : Cuckoo} (hc : c.WellPlaced) (hu : Unique id c.content) {val : Val}
    (hv : val ≠ 0) (rand : Nat → Nat) {r : Result} {c' : Cuckoo}
    (h : c.insertAt val (hash c.buckets val .one) (hash c.buckets val .two) rand = (r, c')) :
    (r = .duplicate ↔ val ∈ stored c.content) ∧ r ≠ .retry ∧
      (r = .duplicate ∨ r = .resize → c' = c) ∧
      ∀ side idx slot, r = .success side idx slot →
        ((side = .one ∧ idx = hash c.buckets val .one) ∨
          (side = .two ∧ idx = hash c.buckets val .two)) ∧
        slot < width ∧ c'.view side idx slot = 0 ∧
        stored c'.content = stored c.content ∧ Unique id c'.content ∧
        c'.buckets = c.buckets ∧ c'.WellPlaced := by
  have hne : r ≠ .retry := by
    have := c.insertAt_ne_retry val (hash c.buckets val .one) (hash c.buckets val .two) rand
    rwa [h] at this
  obtain ⟨hb, hmoves, hcase⟩ :=
    Cuckoo.insertAt_spec hc.pos (hash_lt hc.pos val .one) (hash_lt hc.pos val .two) h
  have habsent : c.Missing val (hash c.buckets val .one) (hash c.buckets val .two) →
      val ∉ stored c.content := hc.not_stored
  rcases hcase with ⟨rfl, rfl, side, idx, slot, hbk, hs, he⟩ | ⟨rfl, rfl, hm, _⟩ | ⟨rfl, _⟩ |
    ⟨side, idx, slot, rfl, hm, hbk, hs, h0⟩
  · have hlt := hbk.lt (hash_lt hc.pos val .one) (hash_lt hc.pos val .two)
    have hmem : val ∈ stored c'.content :=
      ⟨(side, idx, slot), Cuckoo.content_eq_some.mpr ⟨hlt, hs, he, hv⟩⟩
    exact ⟨⟨fun _ => hmem, fun _ => rfl⟩, hne, fun _ => rfl, by rintro _ _ _ ⟨⟩⟩
  · refine ⟨⟨fun hr => ?_, fun hmem => absurd hmem (habsent hm)⟩, hne, fun _ => rfl, ?_⟩
    · cases hr
    · rintro _ _ _ ⟨⟩
  · exact absurd rfl hne
  · refine ⟨⟨fun hr => ?_, fun hmem => absurd hmem (habsent hm)⟩, hne, ?_, ?_⟩
    · cases hr
    · intro hr
      rcases hr with hr | hr <;> cases hr
    · rintro _ _ _ ⟨⟩
      refine ⟨hbk, hs, h0, hmoves.stored_eq, hmoves.unique hu, hb, ⟨hb ▸ hc.pos, ?_⟩⟩
      rw [hb]
      exact hmoves.placed hc.placed

/-- Twelve values fill the two buckets of 1 among two; one of them moves to make room. -/
theorem insertAt_alone_moves :
    ∃ s c', exec callStep (Cuckoo.new 2, []) (inserts [3, 7, 5, 9, 13, 17, 21, 25, 29, 33, 37, 41]) =
        some s ∧
      s.1.insertAt 1 (hash s.1.buckets 1 .one) (hash s.1.buckets 1 .two) (fun _ => 0) =
        (.success .one 1 0, c') ∧
      c'.view .one 1 0 = 0 ∧ stored c'.content = stored s.1.content := by
  have hrun : (exec callStep (Cuckoo.new 2, [])
      (inserts [3, 7, 5, 9, 13, 17, 21, 25, 29, 33, 37, 41])).map (fun s =>
        (s.1.insertAt 1 (hash s.1.buckets 1 .one) (hash s.1.buckets 1 .two) (fun _ => 0)).1) =
      some (.success .one 1 0) := by
    decide +kernel
  obtain ⟨s, hs, hres⟩ := Option.map_eq_some_iff.mp hrun
  obtain ⟨hrep, _⟩ := run_represents (by decide) (by decide) hs (by decide +kernel)
  cases hins : s.1.insertAt 1 (hash s.1.buckets 1 .one) (hash s.1.buckets 1 .two) (fun _ => 0) with
  | mk r c' =>
    rw [hins] at hres
    obtain rfl : r = .success .one 1 0 := hres
    obtain ⟨_, _, _, hsuccess⟩ :=
      insertAt_alone hrep.toWellPlaced hrep.unique (by decide) (fun _ => 0) hins
    obtain ⟨_, _, hfree, hsame, _⟩ := hsuccess .one 1 0 rfl
    exact ⟨s, c', hs, hins, hfree, hsame⟩

end ConcurrentComputing.TwoTable
