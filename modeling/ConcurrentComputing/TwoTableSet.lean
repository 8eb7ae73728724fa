import ConcurrentComputing.TwoTableResize
import ConcurrentComputing.Runs

/-! # The two-table set against a mathematical set

Single-threaded runs of `insert`, `remove` and `contains`. The calls refine a
finite set as long as every `resize` on the way keeps what it copies: it copies
only the lower half of the buckets, writes an element that finds its new bucket
full outside the bucket, and `insert` goes on with the two indices it computed
under the old bucket count. -/

namespace ConcurrentComputing.TwoTable

open CuckooPath Placement Runs

namespace Cuckoo

/-! ## When a resize keeps the table -/

/-- The condition on the state before a `resize` inside `insert(val)`: every
value sits in a bucket the copy loop reaches, no new bucket is the target of more
than `WIDTH` values, and the indices of `val` do not change. -/
structure ResizeKeeps (c : Cuckoo) (val : Val) : Prop where
  reached : ∀ side, ∀ idx < c.buckets, ∀ slot < width,
    c.view side idx slot ≠ 0 → idx < doubled c.buckets / 4
  room : ∀ side, ∀ idx < doubled c.buckets,
    ((Finset.range c.buckets ×ˢ Finset.range width).filter fun p =>
      c.view side p.1 p.2 ≠ 0 ∧
        hash (doubled c.buckets) (c.view side p.1 p.2) side = idx).card ≤ width
  same : ∀ side, hash (doubled c.buckets) val side = hash c.buckets val side

instance (c : Cuckoo) (val : Val) : Decidable (c.ResizeKeeps val) :=
  decidable_of_iff ((∀ side, ∀ idx < c.buckets, ∀ slot < width,
      c.view side idx slot ≠ 0 → idx < doubled c.buckets / 4) ∧
    (∀ side, ∀ idx < doubled c.buckets,
      ((Finset.range c.buckets ×ˢ Finset.range width).filter fun p =>
        c.view side p.1 p.2 ≠ 0 ∧
          hash (doubled c.buckets) (c.view side p.1 p.2) side = idx).card ≤ width) ∧
    ∀ side, hash (doubled c.buckets) val side = hash c.buckets val side)
    ⟨fun h => ⟨h.1, h.2.1, h.2.2⟩, fun h => ⟨h.reached, h.room, h.same⟩⟩

theorem ResizeKeeps.roomy {c : Cuckoo} {val : Val} (hk : c.ResizeKeeps val) : c.Roomy := by
  intro side idx
  have hsub : Finset.range (doubled c.buckets / 4) ×ˢ Finset.range width ⊆
      Finset.range c.buckets ×ˢ Finset.range width :=
    Finset.product_subset_product_left (Finset.range_subset_range.mpr (lower_le _))
  by_cases hidx : idx < doubled c.buckets
  · exact (Finset.card_le_card (Finset.filter_subset_filter _ hsub)).trans (hk.room side idx hidx)
  · -- no hash is that large
    unfold arrivals
    rw [Finset.filter_eq_empty_iff.mpr, Finset.card_empty]
    · exact Nat.zero_le _
    · rintro p hp ⟨_, hh⟩
      rw [Finset.mem_product, Finset.mem_range] at hp
      have hpos : 0 < doubled c.buckets := by omega
      have := hash_lt hpos (c.view side p.1 p.2) side
      omega

/-- **A resize that meets its condition keeps the set.** -/
theorem resize_spec {c : Cuckoo} {val : Val} (hu : Unique id c.content)
    (hk : c.ResizeKeeps val) (hsome : ∃ cell a, c.content cell = some a) :
    c.resize.WellPlaced ∧ Unique id c.resize.content ∧
      stored c.resize.content = stored c.content := by
  have hpos : 0 < doubled c.buckets := by
    obtain ⟨⟨side, idx, slot⟩, a, h⟩ := hsome
    obtain ⟨hi, hs, hv, hne⟩ := content_eq_some.mp h
    have := hk.reached side idx hi slot hs (hv ▸ hne)
    omega
  exact ⟨⟨hpos, resize_placed hu⟩, resize_unique hu,
    (resize_stored_iff hu).mpr ⟨hk.reached, hk.roomy⟩⟩

/-! ## A call against a set -/

/-- The table stores exactly the set, each value once and at its own index. -/
structure Represents (c : Cuckoo) (S : Finset Val) : Prop extends c.WellPlaced where
  unique : Unique id c.content
  mem_iff : ∀ a, a ∈ S ↔ a ∈ stored c.content

theorem Represents.size {c : Cuckoo} {S : Finset Val} (h : c.Represents S) : c.size = S.card := by
  rw [size_eq_tally]
  refine tally_eq_card h.unique (fun _ _ => content_mem_cells) S ?_
  intro a
  simp [h.mem_iff]

theorem Represents.new {buckets : Nat} (h : 0 < buckets) : (Cuckoo.new buckets).Represents ∅ := by
  refine ⟨.new h, ?_, ?_⟩
  · intro cell _ a _ ha
    rw [content_new] at ha
    cases ha
  · intro a
    rw [content_new]
    simp [stored]

/-- Entries moved between their homes represent the same set. -/
theorem Represents.moves {c c' : Cuckoo} {S : Finset Val} (h : c.Represents S)
    (hb : c'.buckets = c.buckets) (hm : Moves (home c.buckets) c.content c'.content) :
    c'.Represents S where
  pos := hb ▸ h.pos
  placed := hb ▸ hm.placed h.placed
  unique := hm.unique h.unique
  mem_iff := fun a => by rw [hm.stored_eq, h.mem_iff]

/-- The final write of `insert`. -/
theorem Represents.write {c : Cuckoo} {S : Finset Val} {val : Val} {side : Side} {idx slot : Nat}
    (h : c.Represents S) (hv : val ≠ 0) (hn : val ∉ S)
    (hbk : Bucket (hash c.buckets val .one) (hash c.buckets val .two) side idx)
    (hs : slot < width) (h0 : c.view side idx slot = 0) :
    (c.write side idx slot val).Represents (Insert.insert val S) := by
  have hi := hbk.lt (hash_lt h.pos val .one) (hash_lt h.pos val .two)
  have hcw : (c.write side idx slot val).content =
      Function.update c.content (side, idx, slot) (some val) := by
    rw [content_write val hi hs, if_neg hv]
  refine ⟨⟨by simpa using h.pos, ?_⟩, ?_, ?_⟩
  · rw [write_buckets, hcw]
    exact h.placed.put (hbk.home hs)
  · rw [hcw]
    refine h.unique.put fun q b hb (he : b = val) => ?_
    exact absurd ((h.mem_iff val).mpr ⟨q, he ▸ hb⟩) hn
  · intro a
    rw [hcw, stored_put ((content_eq_none hi hs).mpr h0), Finset.mem_insert, Set.mem_insert_iff,
      h.mem_iff]

theorem Represents.remove {c : Cuckoo} {S : Finset Val} {val : Val} (h : c.Represents S)
    (hv : val ≠ 0) :
    ((c.remove val).1 = true ↔ val ∈ S) ∧ (c.remove val).2.Represents (S.erase val) := by
  rcases remove_spec hv h.pos with ⟨cell, hc, ht, hcont, hb⟩ | ⟨he, hm⟩
  · refine ⟨by simp [ht, (h.mem_iff val).mpr ⟨cell, hc⟩], ⟨hb ▸ h.pos, ?_⟩, ?_, ?_⟩
    · rw [hb, hcont]; exact h.placed.erase
    · rw [hcont]; exact h.unique.erase
    · intro a
      rw [hcont, stored_erase h.unique hc, Finset.mem_erase, h.mem_iff]
      simp [and_comm]
  · have hn : val ∉ S := fun hmem => h.not_stored hm ((h.mem_iff val).mp hmem)
    rw [he, Finset.erase_eq_of_notMem hn]
    exact ⟨by simp [hn], h⟩

/-- Every resize that a run of the insert loop performs meets its condition. -/
def InsertKeeps (val : Val) (idx1 idx2 : Nat) (rands : Nat → Nat → Nat) :
    Nat → Nat → Cuckoo → Prop
  | 0, _, _ => True
  | fuel + 1, n, c =>
    match c.insertAt val idx1 idx2 (rands n) with
    | (.resize, c') => c'.ResizeKeeps val ∧
        InsertKeeps val idx1 idx2 rands fuel (n + 1) c'.resize
    | (.retry, c') => InsertKeeps val idx1 idx2 rands fuel (n + 1) c'
    | _ => True

instance InsertKeeps.decidable (val : Val) (idx1 idx2 : Nat) (rands : Nat → Nat → Nat) :
    ∀ (fuel n : Nat) (c : Cuckoo), Decidable (InsertKeeps val idx1 idx2 rands fuel n c)
  | 0, _, _ => isTrue trivial
  | fuel + 1, n, c => by
    unfold InsertKeeps
    exact match c.insertAt val idx1 idx2 (rands n) with
      | (.resize, c') =>
        have := decidable val idx1 idx2 rands fuel (n + 1) c'.resize
        inferInstanceAs (Decidable (_ ∧ _))
      | (.retry, c') => decidable val idx1 idx2 rands fuel (n + 1) c'
      | (.duplicate, _) => isTrue trivial
      | (.success _ _ _, _) => isTrue trivial

/-- The rounds of `insert`: each either answers or leaves the set as it was. -/
theorem Represents.insertLoop {val : Val} {idx1 idx2 : Nat} {rands : Nat → Nat → Nat}
    {S : Finset Val} (hv : val ≠ 0) : ∀ {fuel n : Nat} {c c' : Cuckoo} {r : Bool},
      c.Represents S → idx1 = hash c.buckets val .one → idx2 = hash c.buckets val .two →
      InsertKeeps val idx1 idx2 rands fuel n c →
      insertLoop val idx1 idx2 rands fuel n c = some (r, c') →
      (r = true ↔ val ∉ S) ∧ c'.Represents (Insert.insert val S) := by
  intro fuel
  induction fuel with
  | zero => intro n c c' r _ _ _ _ h; cases h
  | succ fuel ih =>
    intro n c c' r hr h1 h2 hk h
    subst h1 h2
    simp only [InsertKeeps] at hk
    simp only [Cuckoo.insertLoop] at h
    cases hres : c.insertAt val (hash c.buckets val .one) (hash c.buckets val .two) (rands n) with
    | mk res d =>
      rw [hres] at h hk
      obtain ⟨hb, hmoves, hcase⟩ := insertAt_spec hr.pos (hash_lt hr.pos val .one)
        (hash_lt hr.pos val .two) hres
      have hrd := hr.moves hb hmoves
      rcases hcase with ⟨rfl, rfl, side, idx, slot, hbk, hs, he⟩ | ⟨rfl, rfl, hm, hfull⟩ |
        ⟨rfl, hm⟩ | ⟨side, idx, slot, rfl, hm, hbk, hs, h0⟩
      · cases h
        have hi := hbk.lt (hash_lt hr.pos val .one) (hash_lt hr.pos val .two)
        have hmem := (hr.mem_iff val).mpr ⟨_, content_eq_some.mpr ⟨hi, hs, he, hv⟩⟩
        rw [Finset.insert_eq_of_mem hmem]
        exact ⟨by simp [hmem], hr⟩
      · -- the resized table represents the same set, and the old indices are still the hashes
        obtain ⟨hkeep, hrest⟩ := hk
        have hsome : ∃ cell a, d.content cell = some a :=
          ⟨(.one, hash d.buckets val .one, 0), _, content_eq_some.mpr
            ⟨hash_lt hr.pos val .one, by decide, rfl, hfull 0 (by decide)⟩⟩
        obtain ⟨hwp, hu, hst⟩ := resize_spec hr.unique hkeep hsome
        exact ih ⟨hwp, hu, fun a => by rw [hst, hr.mem_iff]⟩ (hkeep.same .one).symm
          (hkeep.same .two).symm hrest h
      · exact ih hrd (by rw [hb]) (by rw [hb]) hk h
      · cases h
        have hn : val ∉ S := fun hmem => hr.not_stored hm ((hr.mem_iff val).mp hmem)
        exact ⟨by simp [hn], hrd.write hv hn (by rw [hb]; exact hbk) hs h0⟩

end Cuckoo

/-! ## Runs of calls -/

/-- A call and how its choices fall: the start slots of each search, and a bound
on the rounds within which it returns. -/
structure Call where
  op : Op
  rands : Nat → Nat → Nat := fun _ _ => 0
  fuel : Nat := 1

/-- What a set answers to a call, and the set after it. -/
def Op.answer (S : Finset Val) : Op → Bool × Finset Val
  | .insert val => (decide (val ∉ S), Insert.insert val S)
  | .remove val => (decide (val ∈ S), S.erase val)
  | .contains val => (decide (val ∈ S), S)

/-- The answers of a set to a sequence of calls and the set after them. -/
def specRun (calls : List Call) : List Bool × Finset Val :=
  calls.foldl (fun (answers, S) call =>
    (answers ++ [(call.op.answer S).1], (call.op.answer S).2)) ([], ∅)

/-- A table with the answers it has given. -/
abbrev Session := Cuckoo × List Bool

/-- One call; `none` when it does not return within its rounds. -/
def callStep (s : Session) (call : Call) : Option Session :=
  match call.op with
  | .insert val => (s.1.insert val call.rands call.fuel).map fun (r, c) => (c, s.2 ++ [r])
  | .remove val => some ((s.1.remove val).2, s.2 ++ [(s.1.remove val).1])
  | .contains val => some (s.1, s.2 ++ [s.1.contains val])

/-- The condition on one call: its resizes keep what they copy. -/
def CallKeeps (s : Session) (call : Call) : Prop :=
  match call.op with
  | .insert val => Cuckoo.InsertKeeps val (hash s.1.buckets val .one) (hash s.1.buckets val .two)
      call.rands call.fuel 0 s.1
  | _ => True

instance (s : Session) (call : Call) : Decidable (CallKeeps s call) := by
  unfold CallKeeps
  split <;> infer_instance

theorem callStep_refines {s s' : Session} {call : Call} {S : Finset Val}
    (hr : s.1.Represents S) (hv : call.op.val ≠ 0) (hk : CallKeeps s call)
    (h : callStep s call = some s') :
    s'.1.Represents (call.op.answer S).2 ∧ s'.2 = s.2 ++ [(call.op.answer S).1] := by
  obtain ⟨c, answers⟩ := s
  obtain ⟨op, rands, fuel⟩ := call
  dsimp only at hr
  cases op with
  | insert val =>
    change val ≠ 0 at hv
    obtain ⟨⟨r, c'⟩, hi, rfl⟩ := Option.map_eq_some_iff.mp h
    obtain ⟨ha, hrep⟩ := hr.insertLoop hv rfl rfl hk hi
    have hr : r = decide (val ∉ S) := by rw [Bool.eq_iff_iff, ha, decide_eq_true_iff]
    exact ⟨hrep, congrArg (fun b => answers ++ [b]) hr⟩
  | remove val =>
    change val ≠ 0 at hv
    obtain ⟨ha, hrep⟩ := hr.remove hv
    cases h
    have hr : (c.remove val).1 = decide (val ∈ S) := by
      rw [Bool.eq_iff_iff, ha, decide_eq_true_iff]
    exact ⟨hrep, congrArg (fun b => answers ++ [b]) hr⟩
  | contains val =>
    change val ≠ 0 at hv
    cases h
    have ha := (Cuckoo.contains_iff hr.toWellPlaced hv).trans (hr.mem_iff val).symm
    have hc : c.contains val = decide (val ∈ S) := by
      rw [Bool.eq_iff_iff, ha, decide_eq_true_iff]
    exact ⟨hr, congrArg (fun b => answers ++ [b]) hc⟩

theorem specRun_snoc (calls : List Call) (call : Call) :
    specRun (calls ++ [call]) = ((specRun calls).1 ++ [(call.op.answer (specRun calls).2).1],
      (call.op.answer (specRun calls).2).2) := by
  simp [specRun]

theorem run_represents {buckets : Nat} (hb : 0 < buckets) {calls : List Call} {s : Session}
    (hv : ∀ call ∈ calls, call.op.val ≠ 0)
    (h : exec callStep (Cuckoo.new buckets, []) calls = some s)
    (hk : Meets callStep CallKeeps (Cuckoo.new buckets, []) calls) :
    s.1.Represents (specRun calls).2 ∧ s.2 = (specRun calls).1 := by
  refine exec_induction_of_meets (motive := fun calls s => (∀ call ∈ calls, call.op.val ≠ 0) →
    s.1.Represents (specRun calls).2 ∧ s.2 = (specRun calls).1) ?_ ?_ h hk hv
  · exact fun _ => ⟨.new hb, rfl⟩
  · intro calls u call t _ ih hkeep hstep hnz
    obtain ⟨hrep, hans⟩ := ih fun c hc => hnz c (by simp [hc])
    obtain ⟨hrep', hans'⟩ := callStep_refines hrep (hnz call (by simp)) hkeep hstep
    rw [specRun_snoc]
    exact ⟨hrep', by rw [hans', hans]⟩

/-- **Set refinement.** From a new table with any positive bucket count, a run of
calls on non-zero values in which every resize meets its condition answers every
call as a finite set does, and `size` is the cardinality of that set. -/
theorem session_refines_set {buckets : Nat} (hb : 0 < buckets) {calls : List Call} {s : Session}
    (hv : ∀ call ∈ calls, call.op.val ≠ 0)
    (h : exec callStep (Cuckoo.new buckets, []) calls = some s)
    (hk : Meets callStep CallKeeps (Cuckoo.new buckets, []) calls) :
    s.2 = (specRun calls).1 ∧ s.1.size = (specRun calls).2.card := by
  obtain ⟨hrep, hans⟩ := run_represents hb hv h hk
  exact ⟨hans, hrep.size⟩

/-- Inserts of the given values in turn. -/
def inserts (vals : List Nat) : List Call :=
  vals.map fun val => { op := .insert (BitVec.ofNat 32 val), fuel := 2 }

/-- Values that share both buckets among four: the thirteenth insert resizes
the table, and all that is stored lies in the half that is copied. -/
theorem session_refines_set_resized :
    ∃ s, exec callStep (Cuckoo.new 4, [])
        (inserts [17, 33, 49, 65, 81, 97, 113, 129, 145, 161, 177, 193, 1]) = some s ∧
      s.1.buckets = 8 ∧ s.1.size = 13 := by
  have hrun : (exec callStep (Cuckoo.new 4, [])
      (inserts [17, 33, 49, 65, 81, 97, 113, 129, 145, 161, 177, 193, 1])).map
        (fun s => s.1.buckets) = some 8 := by
    decide +kernel
  obtain ⟨s, hs, hb⟩ := Option.map_eq_some_iff.mp hrun
  exact ⟨s, hs, hb, (session_refines_set (by decide) (by decide) hs (by decide +kernel)).2⟩

/-- Thirteen inserts into a table of one bucket all answer `true`. The last one
resizes the table: nothing is copied, and 13 goes to its bucket under the old
bucket count. -/
theorem thirteen_inserts_lose_twelve :
    ¬ ∀ s, exec callStep (Cuckoo.new 1, []) (inserts [1, 2, 3, 4, 5, 6, 7, 8, 9, 10, 11, 12, 13]) =
        some s →
      s.2 = (specRun (inserts [1, 2, 3, 4, 5, 6, 7, 8, 9, 10, 11, 12, 13])).1 ∧
        s.1.size = (specRun (inserts [1, 2, 3, 4, 5, 6, 7, 8, 9, 10, 11, 12, 13])).2.card := by
  intro h
  have hrun : (exec callStep (Cuckoo.new 1, [])
      (inserts [1, 2, 3, 4, 5, 6, 7, 8, 9, 10, 11, 12, 13])).map (fun s => s.1.size) = some 1 := by
    decide +kernel
  obtain ⟨s, hs, hsize⟩ := Option.map_eq_some_iff.mp hrun
  have hcard := (h s hs).2
  rw [hsize] at hcard
  exact absurd hcard (by decide +kernel)

end ConcurrentComputing.TwoTable
