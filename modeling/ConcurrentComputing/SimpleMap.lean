import ConcurrentComputing.SortedAssoc
import Mathlib.Algebra.Group.Int.Defs
import Mathlib.Algebra.Order.Group.Unbundled.Int
import Mathlib.Logic.Function.Basic

/-! # The simple map

`simplemap_t<int, V>` of `src/simplemap.h`, the version with buckets. -/

namespace ConcurrentComputing.Bank

open Function SortedAssoc

/-- Of each bucket the nodes after its sentinel, in the order of their links. -/
structure SimpleMap (V : Type) where
  buckets : Nat
  values : Nat → List (Int × V)

namespace SimpleMap

variable {V : Type}

def new (buckets : Nat) : SimpleMap V := ⟨buckets, fun _ => []⟩

/-- `key % this -> buckets`: the key is converted to unsigned. -/
def hash (m : SimpleMap V) (key : Int) : Nat := (key % 2 ^ 32).toNat % m.buckets

def insert (m : SimpleMap V) (key : Int) (val : V) : SimpleMap V × Bool :=
  ({ m with values := Function.update m.values (m.hash key) (add key val (m.values (m.hash key))) },
    (find key (m.values (m.hash key))).isNone)

def update (m : SimpleMap V) (key : Int) (val : V) : SimpleMap V × Bool :=
  ({ m with
      values := Function.update m.values (m.hash key) (assign key val (m.values (m.hash key))) },
    (find key (m.values (m.hash key))).isSome)

def remove (m : SimpleMap V) (key : Int) : SimpleMap V × Bool :=
  ({ m with values := Function.update m.values (m.hash key) (erase key (m.values (m.hash key))) },
    (find key (m.values (m.hash key))).isSome)

def lookup [Zero V] (m : SimpleMap V) (key : Int) : V × Bool :=
  match find key (m.values (m.hash key)) with
  | some val => (val, true)
  | none => (0, false)

/-- The calls of the applied function, in their order. -/
def apply (m : SimpleMap V) : List (Int × V) := (List.range m.buckets).flatMap m.values

/-! ## As a finite map -/

/-- The value a key is bound to. -/
def get (m : SimpleMap V) (key : Int) : Option V := find key (m.values (m.hash key))

/-- The nodes of every bucket are in the order of their keys. -/
def Sorted (m : SimpleMap V) : Prop := ∀ b, SortedAssoc.Sorted (m.values b)

variable {m : SimpleMap V} {key k : Int} {val : V}

theorem Sorted.new (buckets : Nat) : (new buckets : SimpleMap V).Sorted := fun _ => .nil

theorem Sorted.insert (h : m.Sorted) (key : Int) (val : V) : (m.insert key val).1.Sorted := by
  intro b
  by_cases hb : b = m.hash key
  · subst hb
    simpa [SimpleMap.insert] using (h _).add key val
  · simpa [SimpleMap.insert, hb] using h b

theorem Sorted.update (h : m.Sorted) (key : Int) (val : V) : (m.update key val).1.Sorted := by
  intro b
  by_cases hb : b = m.hash key
  · subst hb
    simpa [SimpleMap.update] using (h _).assign key val
  · simpa [SimpleMap.update, hb] using h b

/-- A change of one key's bucket that keeps the other keys. -/
theorem get_of_bucket {l : List (Int × V)} {r : Option V}
    (h : ∀ k, find k l = if k = key then r else find k (m.values (m.hash key))) (k : Int) :
    get ⟨m.buckets, Function.update m.values (m.hash key) l⟩ k =
      if k = key then r else m.get k := by
  change find k (Function.update m.values (m.hash key) l (m.hash k)) = _
  by_cases hb : m.hash k = m.hash key
  · rw [hb, update_self, h k, get, hb]
  · have hk : k ≠ key := by
      rintro rfl
      exact hb rfl
    rw [update_of_ne hb, if_neg hk, get]

theorem get_insert (h : m.Sorted) :
    (m.insert key val).1.get k = if k = key then some ((m.get key).getD val) else m.get k :=
  get_of_bucket (fun _ => find_add (h _)) k

theorem get_update (h : m.Sorted) :
    (m.update key val).1.get k = if k = key then (m.get key).map fun _ => val else m.get k :=
  get_of_bucket (fun _ => find_assign (h _)) k

theorem get_remove (h : m.Sorted) :
    (m.remove key).1.get k = if k = key then none else m.get k :=
  get_of_bucket (fun _ => find_erase (h _)) k

theorem lookup_eq [Zero V] (m : SimpleMap V) (key : Int) :
    m.lookup key = ((m.get key).getD 0, (m.get key).isSome) := by
  unfold lookup get
  cases find key (m.values (m.hash key)) <;> rfl

end SimpleMap

end ConcurrentComputing.Bank
