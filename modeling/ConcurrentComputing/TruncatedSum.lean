import Mathlib.Algebra.Order.BigOperators.Group.List
import Mathlib.Algebra.Order.Ring.Abs
import Mathlib.Data.Rat.Floor
import Mathlib.Tactic.Linarith

/-! # Sums in a truncating integer

Rationals added up in a bounded integer variable: every addition is exact and its
result then rounded toward zero, and nothing may leave the bounds. The list may be
cut into pieces in any way, and the pieces be added up one after the other or from
zero. -/

namespace ConcurrentComputing.TruncatedSum

/-- Toward zero. -/
def trunc (x : ℚ) : Int := if 0 ≤ x then ⌊x⌋ else ⌈x⌉

variable {x : ℚ}

theorem trunc_intCast (n : Int) : trunc n = n := by
  unfold trunc
  rw [Int.floor_intCast, Int.ceil_intCast, ite_self]

theorem abs_trunc_sub_lt (x : ℚ) : |(trunc x : ℚ) - x| < 1 := by
  unfold trunc
  rw [abs_lt]
  split
  · have hle := Int.floor_le x
    have hlt := Int.lt_floor_add_one x
    constructor <;> linarith
  · have hle := Int.le_ceil x
    have hlt := Int.ceil_lt_add_one x
    constructor <;> linarith

theorem min_le_trunc (x : ℚ) : min x 0 ≤ trunc x := by
  unfold trunc
  split
  · rename_i h
    exact (min_le_right x 0).trans (Int.cast_nonneg (Int.floor_nonneg.mpr h))
  · exact (min_le_left x 0).trans (Int.le_ceil x)

theorem trunc_le_max (x : ℚ) : (trunc x : ℚ) ≤ max x 0 := by
  unfold trunc
  split
  · exact (Int.floor_le x).trans (le_max_left x 0)
  · rename_i h
    have hceil : ⌈x⌉ ≤ 0 := Int.ceil_le.mpr (by simpa using (not_le.mp h).le)
    exact le_max_of_le_right (by exact_mod_cast hceil)

/-! ## Bounded integers -/

variable (lo hi : Int)

/-- `none` outside of the bounds. -/
def checked (n : Int) : Option Int := if lo ≤ n ∧ n ≤ hi then some n else none

def sumFrom (r : Int) (vs : List ℚ) : Option Int :=
  vs.foldlM (fun r v => checked lo hi (trunc (r + v))) r

/-- A way to cut a list. -/
inductive Split where
  | leaf
  /-- the first `k`, and the rest on from there -/
  | chain (k : Nat) (s t : Split)
  /-- the first `k`, and the rest from zero -/
  | fork (k : Nat) (s t : Split)

def Split.eval : Split → Int → List ℚ → Option Int
  | .leaf, r, vs => sumFrom lo hi r vs
  | .chain k s t, r, vs => (s.eval r (vs.take k)).bind fun r => t.eval r (vs.drop k)
  | .fork k s t, r, vs =>
    (s.eval r (vs.take k)).bind fun a => (t.eval 0 (vs.drop k)).bind fun b => checked lo hi (a + b)

/-! ## How far it may be off -/

def positive (vs : List ℚ) : ℚ := (vs.map fun v => max v 0).sum

def negative (vs : List ℚ) : ℚ := (vs.map fun v => min v 0).sum

abbrev Integers (vs : List ℚ) : Prop := ∀ v ∈ vs, v.den = 1

/-- A total that started from `r`, between the bounds that `a` and `b` give. -/
structure Near (a b : ℚ) (r : Int) (vs : List ℚ) (s : Int) : Prop where
  ge : a + negative vs ≤ s
  le : (s : ℚ) ≤ b + positive vs
  off : (s : ℚ) = r + vs.sum ∨ |(s : ℚ) - (r + vs.sum)| < vs.length
  exact : Integers vs → (s : ℚ) = r + vs.sum

variable {lo hi} {us vs ws : List ℚ} {a b : ℚ} {r s t : Int}

theorem positive_nonneg (vs : List ℚ) : 0 ≤ positive vs := by
  refine List.sum_nonneg fun v hv => ?_
  obtain ⟨w, _, rfl⟩ := List.mem_map.mp hv
  exact le_max_right w 0

theorem negative_nonpos (vs : List ℚ) : negative vs ≤ 0 := by
  induction vs with
  | nil => exact le_rfl
  | cons v vs ih =>
    rw [negative, List.map_cons, List.sum_cons]
    exact add_nonpos (min_le_right v 0) ih

theorem positive_append (vs ws : List ℚ) : positive (vs ++ ws) = positive vs + positive ws := by
  simp [positive]

theorem negative_append (vs ws : List ℚ) : negative (vs ++ ws) = negative vs + negative ws := by
  simp [negative]

theorem integers_append : Integers (vs ++ ws) ↔ Integers vs ∧ Integers ws := List.forall_mem_append

theorem checked_eq (hlo : lo ≤ s) (hhi : s ≤ hi) : checked lo hi s = some s := if_pos ⟨hlo, hhi⟩

theorem Near.abs_le (h : Near a b r vs s) : |(s : ℚ) - (r + vs.sum)| ≤ vs.length := by
  rcases h.off with he | hlt
  · rw [he, sub_self, abs_zero]
    exact Nat.cast_nonneg _
  · exact hlt.le

/-- Two pieces one after the other. -/
theorem Near.append (h : Near a b r vs s) (h' : Near (a + negative vs) (b + positive vs) s ws t) :
    Near a b r (vs ++ ws) t where
  ge := by
    rw [negative_append]
    linarith [h'.ge]
  le := by
    rw [positive_append]
    linarith [h'.le]
  off := by
    have hsplit : (t : ℚ) - (r + (vs ++ ws).sum) = (t - (s + ws.sum)) + (s - (r + vs.sum)) := by
      rw [List.sum_append]
      ring
    have hsum := abs_add_le ((t : ℚ) - (s + ws.sum)) (s - (r + vs.sum))
    rw [← hsplit] at hsum
    rw [List.length_append, Nat.cast_add]
    rcases h.off with he | hlt
    · rcases h'.off with he' | hlt'
      · exact Or.inl (by rw [he', he, List.sum_append]; ring)
      · exact Or.inr (by linarith [h.abs_le])
    · exact Or.inr (by linarith [h'.abs_le])
  exact := fun hint => by
    obtain ⟨hv, hw⟩ := integers_append.mp hint
    rw [h'.exact hw, h.exact hv, List.sum_append]
    ring

/-- Two pieces, the second from zero. -/
theorem Near.join (h : Near a b r vs s) (h' : Near 0 0 0 ws t) : Near a b r (vs ++ ws) (s + t) := by
  refine h.append ⟨?_, ?_, ?_, fun hw => ?_⟩
  · push_cast
    linarith [h.ge, h'.ge]
  · push_cast
    linarith [h.le, h'.le]
  · have hoff := h'.off
    push_cast at hoff ⊢
    rw [zero_add] at hoff
    rwa [add_sub_add_left_eq_sub, add_right_inj]
  · have hexact := h'.exact hw
    push_cast at hexact ⊢
    linarith

/-- One addition. -/
theorem near_step (ha : a ≤ 0) (hb : 0 ≤ b) (hr : a ≤ r) (hr' : (r : ℚ) ≤ b) (v : ℚ) :
    Near a b r [v] (trunc (r + v)) where
  ge := by
    have hmin := min_le_trunc ((r : ℚ) + v)
    have hle : a + min v 0 ≤ min (r + v) 0 :=
      le_min (by linarith [min_le_left v 0]) (by linarith [min_le_right v 0])
    simpa [negative] using hle.trans hmin
  le := by
    have hmax := trunc_le_max ((r : ℚ) + v)
    have hle : max (r + v) 0 ≤ b + max v 0 :=
      max_le (by linarith [le_max_left v 0]) (by linarith [le_max_right v 0])
    simpa [positive] using hmax.trans hle
  off := Or.inr (by simpa using abs_trunc_sub_lt ((r : ℚ) + v))
  exact := fun hint => by
    have hv := (Rat.den_eq_one_iff v).mp (hint v (List.mem_singleton_self v))
    rw [← hv, ← Int.cast_add, trunc_intCast]
    simp

theorem near_nil (hr : a ≤ r) (hr' : (r : ℚ) ≤ b) : Near a b r [] r :=
  ⟨by simpa [negative] using hr, by simpa [positive] using hr', Or.inl (by simp), fun _ => by simp⟩

/-- A run of additions stays within the bounds that the numbers themselves keep. -/
theorem sumFrom_spec (vs : List ℚ) (ha : a ≤ 0) (hb : 0 ≤ b) (hr : a ≤ r) (hr' : (r : ℚ) ≤ b)
    (hlo : lo ≤ a + negative vs) (hhi : b + positive vs ≤ hi) :
    ∃ s, sumFrom lo hi r vs = some s ∧ Near a b r vs s := by
  induction vs generalizing a b r with
  | nil => exact ⟨r, rfl, near_nil hr hr'⟩
  | cons v vs ih =>
    have hstep := near_step ha hb hr hr' v
    rw [← List.singleton_append, negative_append] at hlo
    rw [← List.singleton_append, positive_append] at hhi
    have hneg := negative_nonpos [v]
    have hpos := positive_nonneg [v]
    have hin : checked lo hi (trunc (r + v)) = some (trunc (r + v)) := by
      refine checked_eq ?_ ?_
      · have hge := hstep.ge
        have hrest := negative_nonpos vs
        exact_mod_cast (by linarith : (lo : ℚ) ≤ (trunc (r + v) : ℚ))
      · have hle := hstep.le
        have hrest := positive_nonneg vs
        exact_mod_cast (by linarith : (trunc (r + v) : ℚ) ≤ (hi : ℚ))
    obtain ⟨s, hs, hnear⟩ := ih (add_nonpos ha hneg) (add_nonneg hb hpos) hstep.ge hstep.le
      (by linarith) (by linarith)
    refine ⟨s, ?_, hstep.append hnear⟩
    rw [sumFrom, List.foldlM_cons, hin]
    exact hs

/-- A list that stays within the bounds does so up to a cut, and after it. -/
theorem bounds_cut (k : Nat) (ha : a ≤ 0) (hb : 0 ≤ b) (hlo : lo ≤ a + negative vs)
    (hhi : b + positive vs ≤ hi) :
    (lo ≤ a + negative (vs.take k) ∧ b + positive (vs.take k) ≤ hi) ∧
      (lo ≤ a + negative (vs.take k) + negative (vs.drop k) ∧
        b + positive (vs.take k) + positive (vs.drop k) ≤ hi) ∧
      lo ≤ 0 + negative (vs.drop k) ∧ 0 + positive (vs.drop k) ≤ hi := by
  rw [← List.take_append_drop k vs, negative_append] at hlo
  rw [← List.take_append_drop k vs, positive_append] at hhi
  have hneg := negative_nonpos (vs.take k)
  have hpos := positive_nonneg (vs.take k)
  have hneg' := negative_nonpos (vs.drop k)
  have hpos' := positive_nonneg (vs.drop k)
  refine ⟨⟨?_, ?_⟩, ⟨?_, ?_⟩, ?_, ?_⟩ <;> linarith

/-- However the list is cut. -/
theorem Split.eval_spec (sp : Split) (vs : List ℚ) (ha : a ≤ 0) (hb : 0 ≤ b) (hr : a ≤ r)
    (hr' : (r : ℚ) ≤ b) (hlo : lo ≤ a + negative vs) (hhi : b + positive vs ≤ hi) :
    ∃ s, sp.eval lo hi r vs = some s ∧ Near a b r vs s := by
  induction sp generalizing vs a b r with
  | leaf => exact sumFrom_spec vs ha hb hr hr' hlo hhi
  | chain k sp tp ihs iht =>
    obtain ⟨htake, hdrop, -⟩ := bounds_cut k ha hb hlo hhi
    obtain ⟨s, hs, hnear⟩ := ihs (vs.take k) ha hb hr hr' htake.1 htake.2
    obtain ⟨t, ht, hnear'⟩ := iht (vs.drop k) (add_nonpos ha (negative_nonpos _))
      (add_nonneg hb (positive_nonneg _)) hnear.ge hnear.le hdrop.1 hdrop.2
    refine ⟨t, by rw [eval, hs, Option.bind_some, ht], ?_⟩
    have happend := hnear.append hnear'
    rwa [List.take_append_drop] at happend
  | fork k sp tp ihs iht =>
    obtain ⟨htake, -, hzero⟩ := bounds_cut k ha hb hlo hhi
    obtain ⟨s, hs, hnear⟩ := ihs (vs.take k) ha hb hr hr' htake.1 htake.2
    obtain ⟨t, ht, hnear'⟩ := iht (r := 0) (vs.drop k) le_rfl le_rfl (by simp) (by simp)
      hzero.1 hzero.2
    have hjoin := hnear.join hnear'
    rw [List.take_append_drop] at hjoin
    refine ⟨s + t, ?_, hjoin⟩
    rw [eval, hs, Option.bind_some, ht, Option.bind_some]
    refine checked_eq ?_ ?_
    · exact_mod_cast hlo.trans hjoin.ge
    · exact_mod_cast hjoin.le.trans hhi

/-! ## Means -/

/-- The mean is zero, or all the numbers are integers and the mean is one. -/
abbrev ExactMean (vs : List ℚ) : Prop :=
  vs.sum = 0 ∨ Integers vs ∧ (vs.sum / vs.length).den = 1

/-- The integer division of the total gives the mean. -/
theorem mean_eq (hne : vs ≠ []) (hd : ExactMean vs) (h : Near a b 0 vs s) :
    ((s.tdiv vs.length : Int) : ℚ) = vs.sum / vs.length := by
  have hlen : 0 < vs.length := List.length_pos_iff.mpr hne
  have hcast : (0 : ℚ) < vs.length := by exact_mod_cast hlen
  rcases hd with hzero | ⟨hint, hm⟩
  · -- the total is off by less than the length
    have habs : |(s : ℚ)| < vs.length := by
      rcases h.off with he | hlt
      · rw [he, hzero]
        simpa using hcast
      · simpa [hzero] using hlt
    have hnat : s.natAbs < vs.length := by
      rw [← Int.cast_abs, Int.abs_eq_natAbs] at habs
      exact_mod_cast habs
    have hdiv : s.tdiv vs.length = 0 := by
      rw [← Int.natAbs_eq_zero, Int.natAbs_tdiv, Int.natAbs_natCast]
      exact Nat.div_eq_of_lt hnat
    rw [hdiv, hzero, Int.cast_zero, zero_div]
  · obtain ⟨m, hmean⟩ : ∃ m : Int, (m : ℚ) = vs.sum / vs.length :=
      ⟨_, (Rat.den_eq_one_iff _).mp hm⟩
    have hs := h.exact hint
    rw [Int.cast_zero, zero_add, (div_eq_iff hcast.ne').mp hmean.symm] at hs
    have hmul : s = m * vs.length := by exact_mod_cast hs
    rw [hmul, Int.mul_tdiv_cancel _ (by omega), hmean]

/-! ## One total for every cut -/

theorem checked_eq_some {n : Int} : checked lo hi n = some s ↔ (lo ≤ n ∧ n ≤ hi) ∧ n = s := by
  unfold checked
  split <;> simp [*]

/-- A number is truncated by itself unless it is a fraction that pulls the total toward zero. -/
theorem trunc_add_eq_iff (r : Int) (v : ℚ) :
    trunc (r + v) = r + trunc v ↔ v.den = 1 ∨ 0 ≤ v * (r + v) := by
  by_cases hint : v.den = 1
  · have hv := (Rat.den_eq_one_iff v).mp hint
    rw [← hv, ← Int.cast_add, trunc_intCast, trunc_intCast]
    simp
  · have hne : ∀ n : Int, (n : ℚ) ≠ v := fun n he => hint (by rw [← he, Rat.den_intCast])
    have hceil : ⌈v⌉ = ⌊v⌋ + 1 :=
      (Int.ceil_eq_floor_add_one_iff_notMem v).mpr fun ⟨n, hn⟩ => hne n hn
    simp only [hint, false_or]
    unfold trunc
    rcases lt_or_gt_of_ne (hne 0) with hpos | hneg
    · rw [Int.cast_zero] at hpos
      rw [if_pos hpos.le, mul_nonneg_iff_of_pos_left hpos]
      split
      · rename_i hge
        exact ⟨fun _ => hge, fun _ => Int.floor_intCast_add r v⟩
      · rename_i hlt
        rw [Int.ceil_intCast_add]
        exact ⟨fun he => by omega, fun hge => absurd hge hlt⟩
    · rw [Int.cast_zero] at hneg
      rw [if_neg (not_le.mpr hneg), ← neg_mul_neg, mul_nonneg_iff_of_pos_left (neg_pos.mpr hneg),
        neg_nonneg]
      split
      · rename_i hge
        rw [Int.floor_intCast_add]
        refine ⟨fun he => by omega, fun hle => ?_⟩
        have hzero := le_antisymm hle hge
        exact absurd (by push_cast; linarith) (hne (-r))
      · rename_i hlt
        exact ⟨fun _ => (not_le.mp hlt).le, fun _ => Int.ceil_intCast_add r v⟩

def truncated (vs : List ℚ) : Int := (vs.map trunc).sum

@[simp]
theorem truncated_nil : truncated [] = 0 := rfl

@[simp]
theorem truncated_singleton (v : ℚ) : truncated [v] = trunc v := by simp [truncated]

@[simp]
theorem truncated_append (vs ws : List ℚ) :
    truncated (vs ++ ws) = truncated vs + truncated ws := by
  simp [truncated]

/-- What consecutive numbers must satisfy so that they add up to the same from anywhere. -/
structure Splittable (lo hi : Int) (vs : List ℚ) : Prop where
  fits : ∀ seg, seg <:+: vs → lo ≤ truncated seg ∧ truncated seg ≤ hi
  /-- a fraction never pulls the total before it toward zero -/
  sign : ∀ seg (v : ℚ), seg ++ [v] <:+: vs → v.den = 1 ∨ 0 ≤ v * (truncated seg + v)

theorem sumFrom_singleton (r : Int) (v : ℚ) :
    sumFrom lo hi r [v] = checked lo hi (trunc (r + v)) := by
  simp [sumFrom]

theorem sumFrom_eq (h : Splittable lo hi us) (hin : vs ++ ws <:+: us) :
    sumFrom lo hi (truncated vs) ws = some (truncated (vs ++ ws)) := by
  induction ws generalizing vs with
  | nil => simp [sumFrom]
  | cons w ws ih =>
    rw [List.append_cons] at hin ⊢
    have hvw : vs ++ [w] <:+: us := (List.infix_append' [] _ ws).trans hin
    obtain ⟨hlo, hhi⟩ := h.fits _ hvw
    have hstep := (trunc_add_eq_iff (truncated vs) w).mpr (h.sign vs w hvw)
    rw [← truncated_singleton w, ← truncated_append] at hstep
    rw [sumFrom, List.foldlM_cons, hstep, checked_eq hlo hhi]
    exact ih hin

theorem append_cut (vs ws : List ℚ) (k : Nat) : vs ++ ws = vs ++ ws.take k ++ ws.drop k := by
  rw [List.append_assoc, List.take_append_drop]

/-- The total is the one of the truncated numbers. -/
theorem Splittable.eval_eq (h : Splittable lo hi us) (sp : Split) (hin : vs ++ ws <:+: us) :
    sp.eval lo hi (truncated vs) ws = some (truncated (vs ++ ws)) := by
  induction sp generalizing vs ws with
  | leaf => exact sumFrom_eq h hin
  | chain k sp tp ihs iht =>
    rw [append_cut vs ws k] at hin ⊢
    rw [Split.eval, ihs ((List.prefix_append _ _).isInfix.trans hin), Option.bind_some, iht hin]
  | fork k sp tp ihs iht =>
    obtain ⟨hlo, hhi⟩ := h.fits _ hin
    rw [append_cut vs ws k] at hin hlo hhi ⊢
    have hrest : [] ++ ws.drop k <:+: us := (List.suffix_append _ _).isInfix.trans hin
    rw [truncated_append] at hlo hhi ⊢
    rw [Split.eval, ihs ((List.prefix_append _ _).isInfix.trans hin), Option.bind_some,
      ← truncated_nil, iht hrest, Option.bind_some]
    exact checked_eq hlo hhi

/-- Every cut gives this total. -/
def Total (lo hi : Int) (vs : List ℚ) (s : Int) : Prop :=
  ∀ sp : Split, sp.eval lo hi 0 vs = some s

theorem Total.of_append (h : Total lo hi (vs ++ ws) s) :
    ∃ a b, Total lo hi vs a ∧ Total lo hi ws b ∧ a + b = s ∧ lo ≤ s ∧ s ≤ hi := by
  have hfork : ∀ sp tp : Split, ∃ a b, sp.eval lo hi 0 vs = some a ∧ tp.eval lo hi 0 ws = some b ∧
      (lo ≤ a + b ∧ a + b ≤ hi) ∧ a + b = s := by
    intro sp tp
    have he := h (.fork vs.length sp tp)
    rw [Split.eval, List.take_left, List.drop_left] at he
    obtain ⟨a, ha, he⟩ := Option.bind_eq_some_iff.mp he
    obtain ⟨b, hb, he⟩ := Option.bind_eq_some_iff.mp he
    exact ⟨a, b, ha, hb, checked_eq_some.mp he⟩
  obtain ⟨a, b, ha, hb, hin, hs⟩ := hfork .leaf .leaf
  refine ⟨a, b, fun sp => ?_, fun tp => ?_, hs, hs ▸ hin⟩
  · obtain ⟨a', b', ha', hb', -, hs'⟩ := hfork sp .leaf
    rw [ha', Option.some_inj]
    rw [hb, Option.some_inj] at hb'
    omega
  · obtain ⟨a', b', ha', hb', -, hs'⟩ := hfork .leaf tp
    rw [hb', Option.some_inj]
    rw [ha, Option.some_inj] at ha'
    omega

theorem Total.of_infix (h : Total lo hi us s) (hin : vs <:+: us) : ∃ t, Total lo hi vs t := by
  obtain ⟨xs, ys, rfl⟩ := hin
  obtain ⟨a, -, ha, -⟩ := h.of_append
  obtain ⟨-, b, -, hb, -⟩ := ha.of_append
  exact ⟨b, hb⟩

theorem Total.eq_truncated (h : Total lo hi vs s) : s = truncated vs := by
  induction vs generalizing s with
  | nil => exact (Option.some.inj (h .leaf)).symm
  | cons v vs ih =>
    rw [← List.singleton_append] at h ⊢
    obtain ⟨a, b, ha, hb, rfl, -⟩ := h.of_append
    have hleaf := ha .leaf
    rw [Split.eval, sumFrom_singleton] at hleaf
    obtain ⟨-, rfl⟩ := checked_eq_some.mp hleaf
    rw [ih hb, truncated_append, truncated_singleton, Int.cast_zero, zero_add]

theorem Total.splittable (h : Total lo hi us s) : Splittable lo hi us where
  fits := fun seg hseg => by
    obtain ⟨t, ht⟩ := h.of_infix hseg
    have happend : Total lo hi (seg ++ []) t := by rwa [List.append_nil]
    obtain ⟨-, -, -, -, -, hin⟩ := happend.of_append
    rwa [← ht.eq_truncated]
  sign := fun seg v hseg => by
    obtain ⟨t, ht⟩ := h.of_infix hseg
    obtain ⟨a, -, ha, -⟩ := ht.of_append
    have hchain := ht (.chain seg.length .leaf .leaf)
    rw [Split.eval, List.take_left, List.drop_left, ha .leaf, Option.bind_some, Split.eval,
      sumFrom_singleton] at hchain
    obtain ⟨-, he⟩ := checked_eq_some.mp hchain
    rw [ht.eq_truncated, ha.eq_truncated, truncated_append, truncated_singleton] at he
    exact (trunc_add_eq_iff _ v).mp he

theorem total_iff : Total lo hi vs s ↔ Splittable lo hi vs ∧ s = truncated vs := by
  refine ⟨fun h => ⟨h.splittable, h.eq_truncated⟩, fun h sp => ?_⟩
  rw [h.2, ← truncated_nil]
  exact h.1.eval_eq sp List.infix_rfl

end ConcurrentComputing.TruncatedSum
