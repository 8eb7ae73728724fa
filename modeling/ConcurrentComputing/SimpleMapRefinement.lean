import ConcurrentComputing.SimpleMap
import Mathlib.Algebra.Ring.Int.Defs
import Mathlib.Data.Finmap

/-! # The simple map against a finite map

Every key is kept in the bucket of its hash, whatever its sign, and the nodes of a
bucket are in the order of their keys. So the walks, which stop at the first key
that is not smaller, answer as a finite map does, and `apply` comes by every
binding once. -/

namespace ConcurrentComputing.Bank

open Function SortedAssoc

abbrev FiniteMap (V : Type) := Finmap fun _ : Int => V

inductive MapCall (V : Type) where
  | insert (key : Int) (val : V)
  | update (key : Int) (val : V)
  | remove (key : Int)
  | lookup (key : Int)
  | apply
  deriving DecidableEq, Repr

/-- What a call returns; for `apply`, the calls of the function it was given. -/
inductive MapAnswer (V : Type) where
  | bool (done : Bool)
  | found (val : V) (isFound : Bool)
  | applied (calls : List (Int × V))
  deriving DecidableEq, Repr

variable {V : Type}

namespace FiniteMap

/-- The finite map after a call. -/
def after (M : FiniteMap V) : MapCall V → FiniteMap V
  | .insert key val => if key ∈ M then M else M.insert key val
  | .update key val => if key ∈ M then M.insert key val else M
  | .remove key => M.erase key
  | .lookup _ | .apply => M

/-- Each bound key occurs exactly once, with its value, and no other key does. -/
structure Lists (M : FiniteMap V) (calls : List (Int × V)) : Prop where
  once : (calls.map Prod.fst).Nodup
  mem_iff : ∀ key val, (key, val) ∈ calls ↔ M.lookup key = some val

/-- What a finite map may answer. -/
def Answers (M : FiniteMap V) : MapCall V → MapAnswer V → Prop
  | .insert key _, .bool done => done = true ↔ key ∉ M
  | .update key _, .bool done => done = true ↔ key ∈ M
  | .remove key, .bool done => done = true ↔ key ∈ M
  | .lookup key, .found val isFound => M.lookup key = if isFound then some val else none
  | .apply, .applied calls => M.Lists calls
  | _, _ => False

/-- A list of calls and their answers. -/
def Answered : FiniteMap V → List (MapCall V) → List (MapAnswer V) → Prop
  | _, [], [] => True
  | M, call :: calls, answer :: answers =>
    M.Answers call answer ∧ Answered (M.after call) calls answers
  | _, _, _ => False

variable {M : FiniteMap V} {key k : Int} {val : V}

theorem lookup_after_insert : (M.after (.insert key val)).lookup k =
    if k = key then some ((M.lookup key).getD val) else M.lookup k := by
  by_cases hm : key ∈ M
  · obtain ⟨v, hv⟩ := Finmap.mem_iff.mp hm
    rw [after, if_pos hm]
    split
    · subst k
      rw [hv, Option.getD_some]
    · rfl
  · rw [after, if_neg hm, Finmap.lookup_eq_none.mpr hm]
    split
    · subst k
      exact Finmap.lookup_insert M
    · rename_i hk
      exact Finmap.lookup_insert_of_ne M hk

theorem lookup_after_update : (M.after (.update key val)).lookup k =
    if k = key then (M.lookup key).map fun _ => val else M.lookup k := by
  by_cases hm : key ∈ M
  · obtain ⟨v, hv⟩ := Finmap.mem_iff.mp hm
    rw [after, if_pos hm, hv]
    split
    · subst k
      exact Finmap.lookup_insert M
    · rename_i hk
      exact Finmap.lookup_insert_of_ne M hk
  · rw [after, if_neg hm, Finmap.lookup_eq_none.mpr hm]
    split
    · subst k
      exact Finmap.lookup_eq_none.mpr hm
    · rfl

theorem lookup_after_remove : (M.after (.remove key)).lookup k =
    if k = key then none else M.lookup k := by
  split
  · subst k
    exact Finmap.lookup_erase _ M
  · rename_i hk
    exact Finmap.lookup_erase_ne hk

end FiniteMap

namespace SimpleMap

/-- One call and its answer. -/
def call [Zero V] (m : SimpleMap V) : MapCall V → SimpleMap V × MapAnswer V
  | .insert key val => ((m.insert key val).1, .bool (m.insert key val).2)
  | .update key val => ((m.update key val).1, .bool (m.update key val).2)
  | .remove key => ((m.remove key).1, .bool (m.remove key).2)
  | .lookup key => (m, .found (m.lookup key).1 (m.lookup key).2)
  | .apply => (m, .applied m.apply)

def calls [Zero V] (m : SimpleMap V) : List (MapCall V) → List (MapAnswer V)
  | [] => []
  | call :: rest => (m.call call).2 :: (m.call call).1.calls rest

/-- The map holds exactly the bindings of the finite map, in order and each in the
bucket of its key. -/
structure Represents (m : SimpleMap V) (M : FiniteMap V) : Prop where
  sorted : m.Sorted
  placed : ∀ b, ∀ a ∈ m.values b, m.hash a.1 = b
  get_eq : ∀ key, m.get key = M.lookup key

variable {m : SimpleMap V} {M M' : FiniteMap V} {key k : Int} {val : V}

theorem Represents.new (buckets : Nat) : (new buckets : SimpleMap V).Represents ∅ where
  sorted := .new buckets
  placed := fun _ _ ha => absurd ha List.not_mem_nil
  get_eq := fun key => by rw [Finmap.lookup_empty, get, SimpleMap.new, find]

theorem hash_lt (m : SimpleMap V) (hb : 0 < m.buckets) (key : Int) : m.hash key < m.buckets :=
  Nat.mod_lt _ hb

/-- A change of one key's bucket that binds no other key. -/
theorem Represents.change (h : m.Represents M) {l : List (Int × V)} {r : Option V}
    (hsorted : SortedAssoc.Sorted l)
    (hkeys : ∀ a ∈ l, a.1 = key ∨ ∃ v, (a.1, v) ∈ m.values (m.hash key))
    (hfind : ∀ k, find k l = if k = key then r else find k (m.values (m.hash key)))
    (hM : ∀ k, M'.lookup k = if k = key then r else M.lookup k) :
    (⟨m.buckets, Function.update m.values (m.hash key) l⟩ : SimpleMap V).Represents M' where
  sorted := by
    intro b
    by_cases hb : b = m.hash key
    · subst hb
      simpa using hsorted
    · simpa [hb] using h.sorted b
  placed := by
    intro b a ha
    change m.hash a.1 = b
    change a ∈ Function.update m.values (m.hash key) l b at ha
    by_cases hb : b = m.hash key
    · subst hb
      rw [update_self] at ha
      rcases hkeys a ha with hk | ⟨v, hv⟩
      · rw [hk]
      · exact h.placed _ (a.1, v) hv
    · rw [update_of_ne hb] at ha
      exact h.placed b a ha
  get_eq := fun k => by rw [get_of_bucket hfind k, hM k, h.get_eq k]

theorem Represents.insert (h : m.Represents M) (key : Int) (val : V) :
    (m.insert key val).1.Represents (M.after (.insert key val)) := by
  refine h.change ((h.sorted _).add key val) (fun a ha => ?_) (fun _ => find_add (h.sorted _))
    fun _ => ?_
  · rcases mem_add ha with rfl | ha
    · exact Or.inl rfl
    · exact Or.inr ⟨a.2, ha⟩
  · rw [FiniteMap.lookup_after_insert, ← h.get_eq key, get]

theorem Represents.update (h : m.Represents M) (key : Int) (val : V) :
    (m.update key val).1.Represents (M.after (.update key val)) := by
  refine h.change ((h.sorted _).assign key val) (fun _ ha => Or.inr (mem_assign ha))
    (fun _ => find_assign (h.sorted _)) fun _ => ?_
  rw [FiniteMap.lookup_after_update, ← h.get_eq key, get]

theorem Represents.remove (h : m.Represents M) (key : Int) :
    (m.remove key).1.Represents (M.after (.remove key)) :=
  h.change ((h.sorted _).erase key)
    (fun a ha => Or.inr ⟨a.2, (erase_sublist key _).subset ha⟩)
    (fun _ => find_erase (h.sorted _)) fun _ => FiniteMap.lookup_after_remove

theorem Represents.mem_iff (h : m.Represents M) : key ∈ M ↔ (m.get key).isSome := by
  rw [h.get_eq, Finmap.lookup_isSome]

theorem Represents.apply (h : m.Represents M) (hb : 0 < m.buckets) : M.Lists m.apply where
  once := by
    rw [SimpleMap.apply, List.map_flatMap, List.nodup_flatMap]
    refine ⟨fun b _ => ?_, List.nodup_range.imp fun hne => ?_⟩
    · rw [List.nodup_iff_pairwise_ne, List.pairwise_map]
      exact (h.sorted b).imp fun hlt => hlt.ne
    · -- two buckets have no key in common
      intro key hk hk'
      obtain ⟨a, ha, rfl⟩ := List.mem_map.mp hk
      obtain ⟨a', ha', he⟩ := List.mem_map.mp hk'
      exact hne ((h.placed _ a ha).symm.trans (he ▸ h.placed _ a' ha'))
  mem_iff := by
    intro key val
    rw [SimpleMap.apply, List.mem_flatMap, ← h.get_eq, get, find_eq_some (h.sorted _)]
    refine ⟨fun hm => ?_, fun hm => ⟨_, List.mem_range.mpr (m.hash_lt hb key), hm⟩⟩
    obtain ⟨b, _, hb⟩ := hm
    exact h.placed b _ hb ▸ hb

@[simp] theorem call_buckets [Zero V] (m : SimpleMap V) (call : MapCall V) :
    (m.call call).1.buckets = m.buckets := by
  cases call <;> rfl

theorem Represents.call [Zero V] (h : m.Represents M) (hb : 0 < m.buckets) (call : MapCall V) :
    M.Answers call (m.call call).2 ∧ (m.call call).1.Represents (M.after call) := by
  cases call with
  | insert key val =>
    refine ⟨?_, h.insert key val⟩
    change (m.get key).isNone = true ↔ key ∉ M
    rw [h.mem_iff, Option.isNone_iff_eq_none, Option.isSome_iff_ne_none, not_not]
  | update key val => exact ⟨h.mem_iff.symm, h.update key val⟩
  | remove key => exact ⟨h.mem_iff.symm, h.remove key⟩
  | lookup key =>
    refine ⟨?_, h⟩
    change M.lookup key = if (m.lookup key).2 then some (m.lookup key).1 else none
    rw [lookup_eq, ← h.get_eq]
    cases m.get key <;> rfl
  | apply => exact ⟨h.apply hb, h⟩

theorem Represents.calls [Zero V] (h : m.Represents M) (hb : 0 < m.buckets)
    (calls : List (MapCall V)) : M.Answered calls (m.calls calls) := by
  induction calls generalizing m M with
  | nil => trivial
  | cons call calls ih =>
    obtain ⟨hanswer, hnext⟩ := h.call hb call
    exact ⟨hanswer, ih hnext (by rwa [call_buckets])⟩

/-- **Map refinement.** On a new map with any positive bucket count, the calls of
any sequence on any keys are answered as a finite map answers them. -/
theorem calls_refine_finite_map [Zero V] {buckets : Nat} (hb : 0 < buckets)
    (calls : List (MapCall V)) : (∅ : FiniteMap V).Answered calls ((new buckets).calls calls) :=
  (Represents.new buckets).calls hb calls

/-- Two buckets: 0, the key of their sentinels, shares one with -2; the other has -1. -/
theorem calls_refine_finite_map_signed :
    (new 2 : SimpleMap Int).calls
        [.insert 0 5, .insert (-2) 6, .insert (-1) 7, .update 0 8, .remove (-2), .apply, .lookup 3] =
      [.bool true, .bool true, .bool true, .bool true, .bool true, .applied [(0, 8), (-1, 7)],
        .found 0 false] ∧
    (∅ : FiniteMap Int).Answered
      [.insert 0 5, .insert (-2) 6, .insert (-1) 7, .update 0 8, .remove (-2), .apply, .lookup 3]
      [.bool true, .bool true, .bool true, .bool true, .bool true, .applied [(0, 8), (-1, 7)],
        .found 0 false] := by
  have hcalls : (new 2 : SimpleMap Int).calls
      [.insert 0 5, .insert (-2) 6, .insert (-1) 7, .update 0 8, .remove (-2), .apply, .lookup 3] =
      [.bool true, .bool true, .bool true, .bool true, .bool true, .applied [(0, 8), (-1, 7)],
        .found 0 false] := by
    decide +kernel
  exact ⟨hcalls, hcalls ▸ calls_refine_finite_map (by decide) _⟩

end SimpleMap

end ConcurrentComputing.Bank
