import ConcurrentComputing.StoreSections
import ConcurrentComputing.Runs
import Mathlib.Data.Finmap

/-! # The store against a finite map

Single-threaded runs of `insert`, `remove` and `contains`. A call that returns
answers as a finite map does, except that an insert of an absent key may be
refused, and then nothing has changed. -/

namespace ConcurrentComputing.Store

open CuckooPath Placement Runs

abbrev KeyMap := Finmap fun _ : Word => Word

inductive Op where
  | insert (element : Node)
  | remove (key : Word)
  | contains (key : Word)
  deriving DecidableEq, Repr

def Op.key : Op → Word
  | .insert element => element.key
  | .remove key | .contains key => key

/-- The map after a call with the given answer; `none` when a map does not answer
so. -/
def Op.answered (M : KeyMap) : Op → Result → Option KeyMap
  | .insert element, .dup => if element.key ∈ M then some (M.insert element.key element.val) else none
  | .insert element, .true => if element.key ∈ M then none else some (M.insert element.key element.val)
  | .insert element, .abortFailure => if element.key ∈ M then none else some M
  | .remove key, .true => if key ∈ M then some (M.erase key) else none
  | .remove key, .false => if key ∈ M then none else some M
  | .contains key, .true => if key ∈ M then some M else none
  | .contains key, .false => if key ∈ M then none else some M
  | _, _ => none

/-- One answered call of a map. -/
def mapStep (M : KeyMap) (call : Op × Result) : Option KeyMap := call.1.answered M call.2

/-- A call and how its choices fall: the start slots of each search, and a bound
on the rounds within which it returns. -/
structure Call where
  op : Op
  rands : Nat → Nat → Nat := fun _ _ => 0
  fuel : Nat := 1

/-- The store with the calls answered so far. -/
abbrev Session := Cuckoo × List (Op × Result)

/-- One call; `none` when it does not return within its rounds. -/
def callStep (s : Session) (call : Call) : Option Session :=
  match call.op with
  | .insert element => (s.1.insert element call.rands call.fuel).map fun (r, c) =>
      (c, s.2 ++ [(call.op, r)])
  | .remove key => some ((s.1.remove key).2, s.2 ++ [(call.op, (s.1.remove key).1)])
  | .contains key => some (s.1, s.2 ++ [(call.op, s.1.contains key)])

namespace Cuckoo

/-- The table stores exactly the pairs of the map, each key once and in one of its
two buckets. -/
structure Represents (c : Cuckoo) (M : KeyMap) : Prop extends c.WellFormed where
  lookup_iff : ∀ k v, M.lookup k = some v ↔ ⟨k, v⟩ ∈ stored c.content

variable {c c' : Cuckoo} {M : KeyMap} {key : Word}

theorem Represents.new {buckets : Nat} (h : 0 < buckets) : (Cuckoo.new buckets).Represents ∅ := by
  refine ⟨.new h, fun k v => ?_⟩
  rw [content_new]
  simp [stored]

theorem Represents.mem_iff (h : c.Represents M) :
    key ∈ M ↔ ∃ val, ⟨key, val⟩ ∈ stored c.content := by
  rw [Finmap.mem_iff]
  simp only [h.lookup_iff]

theorem Represents.notMem_iff (h : c.Represents M) :
    key ∉ M ↔ ∀ a ∈ stored c.content, a.key ≠ key := by
  rw [h.mem_iff]
  refine ⟨fun hn a ha hk => hn ⟨a.val, node_eq hk ▸ ha⟩, fun hn hex => ?_⟩
  obtain ⟨val, hv⟩ := hex
  exact hn _ hv rfl

theorem Represents.size (h : c.Represents M) : c.size = M.keys.card := by
  rw [size_eq_tally]
  refine tally_eq_card h.unique (fun _ _ => content_mem_cells) M.keys fun k => ?_
  rw [Finmap.mem_keys, h.mem_iff]
  refine ⟨fun ⟨v, hv⟩ => ⟨_, hv, rfl⟩, fun ⟨a, ha, hk⟩ => ⟨a.val, node_eq hk ▸ ha⟩⟩

/-- The map with the node's pair is what is stored once the node has replaced
whatever had its key. -/
theorem lookup_insert_iff {S : Set Node} {element : Node}
    (h : ∀ k v, M.lookup k = some v ↔ ⟨k, v⟩ ∈ S) {T : Set Node}
    (hT : ∀ a, a ∈ T ↔ a = element ∨ (a ∈ S ∧ a.key ≠ element.key)) (k v : Word) :
    (M.insert element.key element.val).lookup k = some v ↔ ⟨k, v⟩ ∈ T := by
  rw [hT]
  by_cases hk : k = element.key
  · subst hk
    rw [Finmap.lookup_insert, Option.some.injEq]
    refine ⟨fun hv => Or.inl (by rw [← hv]), fun hv => ?_⟩
    rcases hv with hv | ⟨_, hne⟩
    · exact (congrArg Node.val hv).symm
    · exact absurd rfl hne
  · rw [Finmap.lookup_insert_of_ne _ hk, h]
    refine ⟨fun hv => Or.inr ⟨hv, hk⟩, fun hv => ?_⟩
    rcases hv with hv | ⟨hv, _⟩
    · exact absurd (congrArg Node.key hv) hk
    · exact hv

theorem Represents.insert (h : c.Represents M) {element : Node} (hk : element.key ≠ 0)
    {rands : Nat → Nat → Nat} {fuel : Nat} {r : Result}
    (hi : c.insert element rands fuel = some (r, c')) :
    ∃ M', (Op.insert element).answered M r = some M' ∧ c'.Represents M' := by
  obtain ⟨_, hwf, hins⟩ := insert_spec h.toWellFormed hi
  rw [if_neg hk] at hins
  generalize hS : stored c'.content = S' at hins
  cases hins with
  | @replaced val hmem =>
    have hin : element.key ∈ M := h.mem_iff.mpr ⟨val, hmem⟩
    refine ⟨_, if_pos hin, hwf, lookup_insert_iff h.lookup_iff fun a => ?_⟩
    rw [hS, Set.mem_insert_iff, Set.mem_sdiff, Set.mem_singleton_iff]
    refine or_congr_right (and_congr_right fun ha => not_congr ⟨fun he => by rw [he], fun he => ?_⟩)
    -- the key is stored once, so the node with it is the one replaced
    obtain ⟨p, hp⟩ := ha
    obtain ⟨q, hq⟩ := hmem
    have hpq := h.unique p q a _ hp hq he
    rw [hpq, hq] at hp
    exact (Option.some.inj hp).symm
  | added ha =>
    have hn : element.key ∉ M := h.notMem_iff.mpr ha
    refine ⟨_, if_neg hn, hwf, lookup_insert_iff h.lookup_iff fun a => ?_⟩
    rw [hS, Set.mem_insert_iff]
    exact or_congr_right ⟨fun hm => ⟨hm, ha a hm⟩, And.left⟩
  | refused ha =>
    have hn : element.key ∉ M := h.notMem_iff.mpr ha
    exact ⟨M, if_neg hn, hwf, by rw [hS]; exact h.lookup_iff⟩

theorem Represents.remove (h : c.Represents M) (hk : key ≠ 0) :
    ∃ M', (Op.remove key).answered M (c.remove key).1 = some M' ∧
      (c.remove key).2.Represents M' := by
  obtain ⟨_, hwf, hcase⟩ := remove_spec h.toWellFormed hk
  rcases hcase with ⟨val, hmem, hr, hst⟩ | ⟨ha, hr⟩
  · rw [hr]
    refine ⟨_, if_pos (h.mem_iff.mpr ⟨val, hmem⟩), hwf, fun k v => ?_⟩
    rw [hst, Set.mem_sdiff, Set.mem_singleton_iff]
    by_cases hkey : k = key
    · subst hkey
      rw [Finmap.lookup_erase]
      have hval := (h.lookup_iff k val).mpr hmem
      refine ⟨nofun, fun ⟨hv, hne⟩ => absurd ?_ hne⟩
      rw [← h.lookup_iff, hval] at hv
      rw [Option.some.inj hv]
    · rw [Finmap.lookup_erase_ne hkey, h.lookup_iff]
      refine ⟨fun hv => ⟨hv, fun he => hkey (congrArg Node.key he)⟩, And.left⟩
  · rw [hr]
    exact ⟨M, if_neg (h.notMem_iff.mpr ha), h⟩

theorem Represents.contains (h : c.Represents M) (hk : key ≠ 0) :
    (Op.contains key).answered M (c.contains key) = some M := by
  have hiff := (contains_iff h.toWellPlaced hk).trans h.mem_iff.symm
  by_cases hin : key ∈ M
  · rw [hiff.mpr hin]
    exact if_pos hin
  · rw [contains_false_iff.mpr fun ht => hin (hiff.mp ht)]
    exact if_neg hin

end Cuckoo

theorem callStep_refines {s s' : Session} {call : Call} {M : KeyMap} (hr : s.1.Represents M)
    (hk : call.op.key ≠ 0) (h : callStep s call = some s') :
    ∃ r M', s'.2 = s.2 ++ [(call.op, r)] ∧ mapStep M (call.op, r) = some M' ∧
      s'.1.Represents M' := by
  obtain ⟨op, rands, fuel⟩ := call
  cases op with
  | insert element =>
    obtain ⟨⟨r, c'⟩, hi, rfl⟩ := Option.map_eq_some_iff.mp h
    obtain ⟨M', hans, hrep⟩ := hr.insert hk hi
    exact ⟨r, M', rfl, hans, hrep⟩
  | remove key =>
    cases h
    obtain ⟨M', hans, hrep⟩ := hr.remove (show key ≠ 0 from hk)
    exact ⟨_, M', rfl, hans, hrep⟩
  | contains key =>
    cases h
    exact ⟨_, M, rfl, hr.contains (show key ≠ 0 from hk), hr⟩

/-- From a new store with any positive bucket count, every run of calls with non-zero
keys that return gives the answers of a finite map, whose pairs are exactly those stored,
each in a bucket its key hashes to; `size` is the number of its keys. -/
theorem session_refines_map {buckets : Nat} (hb : 0 < buckets) {calls : List Call} {s : Session}
    (hk : ∀ call ∈ calls, call.op.key ≠ 0)
    (h : exec callStep (Cuckoo.new buckets, []) calls = some s) :
    ∃ M, exec mapStep ∅ s.2 = some M ∧ s.2.map Prod.fst = calls.map Call.op ∧
      s.1.Represents M ∧ s.1.size = M.keys.card := by
  have key : (∀ call ∈ calls, call.op.key ≠ 0) → ∃ M, exec mapStep ∅ s.2 = some M ∧
      s.2.map Prod.fst = calls.map Call.op ∧ s.1.Represents M := by
    refine exec_induction (motive := fun calls s => (∀ call ∈ calls, call.op.key ≠ 0) →
      ∃ M, exec mapStep ∅ s.2 = some M ∧ s.2.map Prod.fst = calls.map Call.op ∧
        s.1.Represents M) ?_ ?_ h
    · exact fun _ => ⟨∅, rfl, rfl, .new hb⟩
    · intro calls u call t _ ih hstep hnz
      obtain ⟨M, hM, hops, hrep⟩ := ih fun c hc => hnz c (by simp [hc])
      obtain ⟨r, M', hlog, hans, hrep'⟩ := callStep_refines hrep (hnz call (by simp)) hstep
      refine ⟨M', ?_, ?_, hrep'⟩
      · rw [hlog]
        exact exec_snoc.mpr ⟨M, hM, hans⟩
      · simp [hlog, hops]
  obtain ⟨M, hM, hops, hrep⟩ := key hk
  exact ⟨M, hM, hops, hrep, hrep.size⟩

end ConcurrentComputing.Store
