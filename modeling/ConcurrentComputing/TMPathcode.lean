import ConcurrentComputing.CuckooSearch
import ConcurrentComputing.TMCuckoo
import Mathlib.Data.Nat.Digits.Lemmas

/-! # Pathcodes with 50 slots a bucket

A pathcode is a number to the base `WIDTH`, below the table it starts in. The base is
larger here than in the locked class, the `int` that holds it is the same. -/

namespace ConcurrentComputing.TMCuckoo

open CuckooPath TwoTable

/-- `point.pathcode * WIDTH + slot`, with no result where it does not fit. -/
def nextCode (pathcode slot : Nat) : Option Nat :=
  if pathcode * width + slot ≤ intMax then some (pathcode * width + slot) else none

/-- The pathcode that `search` returns after these slots. -/
def pathcode (root : Side) (slots : List Nat) : Option Nat := slots.foldlM nextCode (rootCode root)

/-- The decoding loop, and the test for the table after it. -/
def decoded (length code : Nat) : List Nat × Side :=
  let (slots, rest) := decodePath width length code
  (slots, if rest = 0 then .one else .two)

variable {root : Side} {slots : List Nat} {p : Nat}

theorem width_pos : 0 < width := Nat.succ_pos 49

theorem encode_eq (w p : Nat) (slots : List Nat) :
    encode w p slots = p * w ^ slots.length + Nat.ofDigits w slots.reverse := by
  induction slots using List.reverseRecOn with
  | nil => simp [encode]
  | append_singleton slots slot ih =>
    have hsnoc : encode w p (slots ++ [slot]) = encode w p slots * w + slot := by simp [encode]
    rw [hsnoc, ih, List.reverse_append, List.reverse_singleton, List.singleton_append,
      Nat.ofDigits_cons, List.length_append, List.length_singleton, pow_succ]
    ring

/-- All of them fit if the last one does. -/
theorem foldlM_nextCode (hp : p ≤ intMax) : slots.foldlM nextCode p =
    if encode width p slots ≤ intMax then some (encode width p slots) else none := by
  induction slots generalizing p with
  | nil => exact (if_pos hp).symm
  | cons slot slots ih =>
    rw [List.foldlM_cons, nextCode, show encode width p (slot :: slots) =
      encode width (p * width + slot) slots from rfl]
    split
    · rename_i hfits
      exact ih hfits
    · rename_i hlarge
      refine (if_neg fun hle => hlarge (le_trans ?_ hle)).symm
      rw [encode_eq]
      exact (Nat.le_mul_of_pos_right _ (Nat.pow_pos width_pos)).trans (Nat.le_add_right _ _)

/-- The code is that of the points which `nextPoint` makes, whatever it reads. -/
theorem pathcode_points {κ : Type} [DecidableEq κ] {g : Scheme κ} (hg : g.width = width)
    (views : List (View κ × Nat)) (point : Point) {code : Nat}
    (h : (views.map Prod.snd).foldlM nextCode point.pathcode = some code) :
    (views.foldl (fun point view => nextPoint g view.1 point view.2) point).pathcode = code ∧
      (views.foldl (fun point view => nextPoint g view.1 point view.2) point).depth =
        point.depth + views.length := by
  induction views generalizing point with
  | nil => exact ⟨Option.some.inj h, rfl⟩
  | cons view views ih =>
    rw [List.map_cons, List.foldlM_cons] at h
    obtain ⟨next, hnext, hrest⟩ := Option.bind_eq_some_iff.mp h
    rw [nextCode] at hnext
    split at hnext
    · obtain rfl := Option.some.inj hnext
      have hpoint : (nextPoint g view.1 point view.2).pathcode =
          point.pathcode * width + view.2 := by rw [← hg]; rfl
      obtain ⟨hcode, hdepth⟩ := ih (nextPoint g view.1 point view.2) (by rwa [hpoint])
      refine ⟨hcode, hdepth.trans ?_⟩
      rw [List.length_cons, Nat.add_comm views.length, ← Nat.add_assoc]
      rfl
    · cases hnext

theorem decoded_encode (h : ∀ s ∈ slots, s < width) :
    decoded slots.length (encode width (rootCode root) slots) = (slots, root) := by
  rw [decoded, decodePath_encode h]
  cases root <;> rfl

/-- A path is encoded without an overflow and read back exactly when it has at most five
slots, or starts in the first table and its slots make a number that fits. -/
theorem pathcode_lossless_iff {d : Nat} (hlen : slots.length = d + 1)
    (hslots : ∀ s ∈ slots, s < width) :
    (pathcode root slots).map (decoded slots.length) = some (slots, root) ↔
      d ≤ 4 ∨ root = .one ∧ Nat.ofDigits width slots.reverse ≤ intMax := by
  have hroot : rootCode root ≤ intMax := by cases root <;> decide
  have hdigits := Nat.ofDigits_lt_base_pow_length (b := width) (l := slots.reverse) (by decide)
    fun s hs => hslots s (List.mem_reverse.mp hs)
  have hfits : (pathcode root slots).map (decoded slots.length) = some (slots, root) ↔
      encode width (rootCode root) slots ≤ intMax := by
    rw [pathcode, foldlM_nextCode hroot]
    split
    · rename_i hle
      rw [Option.map_some, decoded_encode hslots]
      exact iff_of_true rfl hle
    · rename_i hlarge
      exact iff_of_false (by simp) hlarge
  rw [hfits, encode_eq, hlen]
  rw [List.length_reverse, hlen] at hdigits
  cases root with
  | one =>
    rw [rootCode, Nat.zero_mul, Nat.zero_add, eq_self_iff_true, true_and]
    refine ⟨Or.inr, fun h => h.elim (fun hd => ?_) id⟩
    have hpow := Nat.pow_le_pow_right width_pos (show d + 1 ≤ 5 by omega)
    exact (hdigits.trans_le hpow).le.trans (by decide)
  | two =>
    rw [rootCode, Nat.one_mul]
    have hno : ¬ (Side.two = .one ∧ Nat.ofDigits width slots.reverse ≤ intMax) :=
      fun h => Side.noConfusion h.1
    rw [or_iff_left hno]
    constructor
    · intro hle
      by_contra hdeep
      have hpow := Nat.pow_le_pow_right width_pos (show 6 ≤ d + 1 by omega)
      exact absurd (hpow.trans ((Nat.le_add_right _ _).trans hle)) (by decide)
    · intro hd
      have hpow := Nat.pow_le_pow_right width_pos (show d + 1 ≤ 5 by omega)
      have htwice : 2 * width ^ 5 ≤ intMax := by decide
      omega

theorem pathcode_lossless_five :
    (pathcode .two [49, 0, 7, 31, 49]).map (decoded 5) = some ([49, 0, 7, 31, 49], .two) :=
  (pathcode_lossless_iff (show [49, 0, 7, 31, 49].length = 4 + 1 from rfl) (by decide)).mpr
    (Or.inl le_rfl)

/-- Six slots from the second table never fit. -/
theorem pathcode_overflows : pathcode .two [0, 0, 0, 0, 0, 0] = none := by decide

end ConcurrentComputing.TMCuckoo
