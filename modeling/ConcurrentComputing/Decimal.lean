import Mathlib.Algebra.Order.Ring.Nat
import Mathlib.Data.Nat.Cast.Basic
import Mathlib.Data.Nat.Digits.Lemmas
import Mathlib.Tactic.Ring

/-! # Decimal numbers

The digits of a number as they are written, and the value of digits as they are
read from the left, in any ring: in a ring of residues the value is that of the
number, however many digits there are. -/

namespace ConcurrentComputing.Decimal

variable {R : Type*} [CommSemiring R]

/-- Read on from a value. -/
def value (v : R) (ds : List Nat) : R := ds.foldl (fun v (d : Nat) => v * 10 + (d : R)) v

@[simp] theorem value_nil (v : R) : value v [] = v := rfl

@[simp] theorem value_cons (v : R) (d : Nat) (ds : List Nat) :
    value v (d :: ds) = value (v * 10 + d) ds := rfl

theorem value_append (v : R) (ds es : List Nat) : value v (ds ++ es) = value (value v ds) es :=
  List.foldl_append

theorem value_natCast (n : Nat) (ds : List Nat) : value (n : R) ds = (value n ds : Nat) := by
  induction ds generalizing n with
  | nil => rfl
  | cons d ds ih =>
    rw [value_cons, value_cons, ← ih]
    push_cast
    rfl

theorem value_eq (v : R) (ds : List Nat) : value v ds = v * 10 ^ ds.length + value 0 ds := by
  induction ds generalizing v with
  | nil => simp
  | cons d ds ih =>
    rw [value_cons, value_cons, ih (v * 10 + d), ih (0 * 10 + d), List.length_cons]
    ring

/-- A number in decimal, the first digit not zero but for 0 itself. -/
def decimal (n : Nat) : List Nat := if n = 0 then [0] else (Nat.digits 10 n).reverse

theorem decimal_lt {n d : Nat} (h : d ∈ decimal n) : d < 10 := by
  unfold decimal at h
  split at h
  · rw [List.mem_singleton.mp h]
    decide
  · exact Nat.digits_lt_base (by decide) (List.mem_reverse.mp h)

theorem decimal_ne_nil (n : Nat) : decimal n ≠ [] := by
  unfold decimal
  split
  · simp
  · rename_i hn
    simpa [Nat.digits_eq_nil_iff_eq_zero] using hn

/-- What is written is read back. -/
theorem value_decimal (n : Nat) : value 0 (decimal n) = n := by
  unfold decimal
  split
  · rename_i hn
    simp [hn]
  · have hval : ∀ l : List Nat, value 0 l.reverse = Nat.ofDigits 10 l := by
      intro l
      induction l with
      | nil => rfl
      | cons d l ih =>
        rw [List.reverse_cons, value_append, ih, Nat.ofDigits_cons, value_cons, value_nil,
          Nat.mul_comm, Nat.add_comm, Nat.cast_id]
    rw [hval, Nat.ofDigits_digits]

theorem lt_pow_length (n : Nat) : n < 10 ^ (decimal n).length := by
  unfold decimal
  split
  · rename_i hn
    rw [hn]
    decide
  · rw [List.length_reverse]
    exact Nat.lt_base_pow_length_digits (by decide)

theorem pow_length_le {n : Nat} (hn : 0 < n) : 10 ^ ((decimal n).length - 1) ≤ n := by
  have hlen : 0 < (Nat.digits 10 n).length :=
    List.length_pos_iff.mpr (Nat.digits_ne_nil_iff_ne_zero.mpr hn.ne')
  have hle := Nat.base_pow_length_digits_le 10 n (by decide) hn.ne'
  rw [decimal, if_neg hn.ne', List.length_reverse]
  refine Nat.le_of_mul_le_mul_left ?_ (show 0 < 10 by decide)
  rwa [← pow_succ', Nat.sub_add_cancel hlen]

end ConcurrentComputing.Decimal
