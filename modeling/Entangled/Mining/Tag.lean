import Entangled.Trinary.Long
/-!
# Numbers written over each other

`long_to_trits` clears three trits and writes as many as the number needs. Over an earlier number it
leaves what that had further up, so the tag is the new number only where the earlier one was no
longer.
-/

namespace Entangled

namespace Mining

open Ternary Trinary

/-- How far up `long_to_trits` writes. -/
def reach (v : Int64) : ℕ := max 3 (minTrits v)

theorem minTrits_zero : minTrits 0 = 1 := by
  rw [minTrits, vAbs_eq, minTritsFrom]
  exact if_neg (by decide)

theorem reach_le (v : Int64) : reach v ≤ 41 := max_le (by decide) (minTrits_le v)

theorem two_mul_abs_lt_reach (v : Int64) : 2 * |v.toInt| < 3 ^ reach v :=
  (two_mul_abs_toInt_lt v).trans_le
    (pow_le_pow_right₀ (by decide) (le_max_right 3 (minTrits v)))

/-- The bounds of the loop below its result are too low. -/
theorem minTritsFrom_lt {v vp num : ℕ} (hvp : 2 * vp + 1 = 3 ^ num)
    (h : num < minTritsFrom v vp num) : 3 ^ (minTritsFrom v vp num - 1) < 2 * v := by
  fun_induction minTritsFrom v vp num with
  | case1 vp num hlt ih =>
    rcases Nat.lt_or_ge (num + 1) (minTritsFrom v (vp * 3 + 1) (num + 1)) with hnext | hlast
    · exact ih (by rw [pow_succ]; omega) hnext
    · have heq : minTritsFrom v (vp * 3 + 1) (num + 1) = num + 1 := by omega
      rw [heq, Nat.add_sub_cancel]
      omega
  | case2 vp num hnot => exact absurd h (Nat.lt_irrefl num)

/-- A number needs its highest trit. -/
theorem pow_minTrits_lt {v : Int64} (hv : v.toInt ≠ 0) :
    3 ^ (minTrits v - 1) < 2 * v.toInt.natAbs := by
  rw [minTrits, vAbs_eq]
  rcases Nat.lt_or_ge 1 (minTritsFrom v.toInt.natAbs 1 1) with hlt | hle
  · exact minTritsFrom_lt rfl hlt
  · have hone : 3 ^ (minTritsFrom v.toInt.natAbs 1 1 - 1) = 1 := by
      rw [Nat.sub_eq_zero_of_le hle, pow_zero]
    omega

/-- **The loop writes every trit of a number that needs them all.** -/
theorem longToTritsFrom_full (negative : Bool) (n i v : ℕ) (trits : List ℤ)
    (hi : i + n ≤ trits.length) (hv : n ≠ 0 → 3 ^ (n - 1) < 2 * v) :
    longToTritsFrom negative n i v trits = blit trits i (digits n (signed negative v)) := by
  induction n generalizing i v trits with
  | zero => rw [longToTritsFrom, digits, blit_nil]
  | succ n ih =>
    have hpos := hv n.succ_ne_zero
    rw [Nat.add_sub_cancel] at hpos
    have hne : v ≠ 0 := by
      rintro rfl
      exact absurd hpos (Nat.not_lt_zero _)
    have hnext : n ≠ 0 → 3 ^ (n - 1) < 2 * ((v + 1) / 3) := by
      intro hn
      obtain ⟨k, rfl⟩ := Nat.exists_eq_succ_of_ne_zero hn
      rw [Nat.succ_eq_add_one, pow_succ] at hpos
      rw [Nat.succ_eq_add_one, Nat.add_sub_cancel]
      have hodd : 3 ^ k % 2 = 1 := by rw [Nat.pow_mod]; norm_num
      omega
    unfold longToTritsFrom
    simp only [if_neg hne, ← digit_signed]
    rw [ih (i + 1) _ _ (by rw [List.length_set]; omega) hnext, digits, ← carry_signed,
      ← blit_singleton (by omega)]
    exact blit_blit trits [digit (signed negative v)] (digits n (carry (signed negative v))) i
      (by rw [List.length_singleton, length_digits]; omega)

theorem blit_zero {α : Type} (dst src : List α) : blit dst 0 src = src ++ dst.drop src.length := by
  rw [blit, List.take_zero, List.nil_append, Nat.zero_add]

/-- **What is written over what was there.** -/
theorem longToTrits_over (v : Int64) {trits : List ℤ} (hl : 41 ≤ trits.length) :
    (longToTrits v trits).1 = digits (reach v) v.toInt ++ trits.drop (reach v) := by
  have hsize := minTrits_le v
  have hmem : memset trits 0 3 = List.replicate 3 0 ++ trits.drop 3 := by
    rw [memset, blit_zero, List.length_replicate]
  show longToTritsFrom _ (minTrits v) 0 (vAbs v) (memset trits 0 3) = _
  rcases eq_or_ne v.toInt 0 with hzero | hne
  · -- Nothing is written for zero.
    obtain rfl : v = 0 := Int64.toInt_inj.mp hzero
    have hreach : reach 0 = 3 := by rw [reach, minTrits_zero]; rfl
    rw [hreach, hzero, digits_zero, ← hmem, minTrits_zero]
    rfl
  · have hfull : minTrits v ≠ 0 → 3 ^ (minTrits v - 1) < 2 * vAbs v := fun _ => by
      rw [vAbs_eq]
      exact pow_minTrits_lt hne
    have hlen : (memset trits 0 3).length = trits.length :=
      length_blit (by rw [List.length_replicate]; omega)
    have hdrop : (memset trits 0 3).drop (minTrits v) =
        List.replicate (3 - minTrits v) 0 ++ trits.drop (reach v) := by
      rw [hmem, List.drop_append, List.drop_replicate, List.length_replicate, List.drop_drop]
      congr 2
      rw [reach]
      omega
    have hpad : reach v - minTrits v = 3 - minTrits v := by
      rw [reach]
      omega
    rw [longToTritsFrom_full _ _ _ _ _ (by omega) hfull, signed_vAbs, blit_zero, length_digits,
      hdrop, digits_append_zeros (n := reach v) (two_mul_abs_toInt_lt v) (le_max_right 3 _), hpad,
      List.append_assoc]

/-! ## The tag -/

/-- **The tag is the number** where what was there ends in time. -/
theorem longToTrits_eq_digits_iff (v : Int64) {tag : List ℤ} (hl : tag.length = 81) :
    (longToTrits v tag).1 = digits 81 v.toInt ↔
      tag.drop (reach v) = List.replicate (81 - reach v) 0 := by
  have hreach := reach_le v
  rw [longToTrits_over v (by omega),
    digits_append_zeros (n := 81) (two_mul_abs_lt_reach v) (by omega)]
  exact List.append_right_inj _

theorem drop_digits_iff {v : ℤ} {m n : ℕ} (hv : 2 * |v| < 3 ^ n) (hm : m ≤ n) :
    (digits n v).drop m = List.replicate (n - m) 0 ↔ 2 * |v| < 3 ^ m := by
  constructor
  · intro h
    have hsplit : digits n v = digits m v ++ List.replicate (n - m) 0 := by
      rw [← h, ← digits_take (v := v) hm, List.take_append_drop]
    have hval := congrArg value hsplit
    rw [value_digits hv, value_append, value_replicate_zero, mul_zero, add_zero] at hval
    rw [hval]
    have hbound := two_mul_abs_value_lt (trits_digits m v)
    rwa [length_digits] at hbound
  · intro h
    rw [digits_append_zeros h hm, List.drop_left' (length_digits m v)]

/-- The number is one longer than the next one, and its highest trit is beyond what is cleared. -/
def Shrinks (v : Int64) : Prop := ∃ m : ℕ, 3 ≤ m ∧ 2 * v.toInt = -(3 ^ m + 1)

theorem toInt_add_one {v : Int64} (hv : v.toInt ≠ 2 ^ 63 - 1) : (v + 1).toInt = v.toInt + 1 := by
  have hlow := v.le_toInt
  have hhigh := v.toInt_lt
  exact Word.toInt_add ⟨by rw [Int64.toInt_one]; omega, by rw [Int64.toInt_one]; omega⟩

theorem reach_le_of_lt {v : Int64} {m : ℕ} (hm : 3 ≤ m) (hv : 2 * |v.toInt| < 3 ^ m) :
    reach v ≤ m := by
  refine max_le hm ?_
  rw [minTrits, vAbs_eq]
  refine minTritsFrom_le rfl (by omega) ?_
  rw [Int.abs_eq_natAbs] at hv
  exact_mod_cast hv

/-- **A number leaves something over** for the next one only there. -/
theorem shrinks_iff (v : Int64) : Shrinks v ↔ ¬ 2 * |v.toInt| < 3 ^ reach (v + 1) := by
  constructor
  · rintro ⟨m, hm, hv⟩ hlt
    have hpos : (0 : ℤ) < 3 ^ m := by positivity
    have hnext := toInt_add_one (v := v) (by omega)
    have hfit : 2 * |(v + 1).toInt| < 3 ^ m := by
      rw [hnext, two_mul_abs_lt]
      omega
    have hpow : (3 : ℤ) ^ reach (v + 1) ≤ 3 ^ m :=
      pow_le_pow_right₀ (by decide) (reach_le_of_lt hm hfit)
    rw [two_mul_abs_lt] at hlt
    omega
  · intro hnot
    have hnext := two_mul_abs_lt_reach (v + 1)
    have hodd := three_pow_odd (reach (v + 1))
    rw [two_mul_abs_lt] at hnot hnext
    rcases eq_or_ne v.toInt (2 ^ 63 - 1) with hmax | hne
    · -- After the highest number comes the lowest, which is no shorter.
      have hlast : (v + 1).toInt = -2 ^ 63 := by
        rw [Word.add_eq_ofInt, hmax]
        decide
      omega
    · rw [toInt_add_one hne] at hnext
      exact ⟨reach (v + 1), le_max_left 3 _, by omega⟩

/-- The tag of round `k`, where the first one writes `v` over `tag`. -/
def tagAt (v : Int64) (tag : List ℤ) : ℕ → List ℤ
  | 0 => (longToTrits v tag).1
  | k + 1 => tagAt (v + 1) (longToTrits v tag).1 k

theorem length_longToTrits (v : Int64) {trits : List ℤ} (hl : 41 ≤ trits.length) :
    (longToTrits v trits).1.length = trits.length := by
  have hreach := reach_le v
  rw [longToTrits_over v hl, List.length_append, length_digits, List.length_drop]
  omega

theorem add_one_add (v : Int64) (k : ℕ) :
    v + 1 + Int64.ofNat k = v + Int64.ofNat (k + 1) := by
  rw [Int64.ofNat_add, Int64.add_assoc, Int64.add_comm 1]
  rfl

/-- **Round after round the tag is the number** exactly where no number leaves something over: not
the tag that was there first, and none of the numbers but the last. -/
theorem tagAt_eq_digits_iff (c : ℕ) (v : Int64) {tag : List ℤ} (hl : tag.length = 81) :
    (∀ k < c, tagAt v tag k = digits 81 (v + Int64.ofNat k).toInt) ↔
      0 < c → tag.drop (reach v) = List.replicate (81 - reach v) 0 ∧
        ∀ k, k + 1 < c → ¬ Shrinks (v + Int64.ofNat k) := by
  induction c generalizing v tag with
  | zero => simp
  | succ c ih =>
    have hzero : v + Int64.ofNat 0 = v := Int64.add_zero v
    have hbound : 2 * |v.toInt| < 3 ^ 81 :=
      (two_mul_abs_lt_reach v).trans_le
        (pow_le_pow_right₀ (by decide) ((reach_le v).trans (by decide)))
    have hleft : (digits 81 v.toInt).drop (reach (v + 1)) =
        List.replicate (81 - reach (v + 1)) 0 ↔ ¬ Shrinks v := by
      rw [drop_digits_iff hbound ((reach_le _).trans (by decide)), shrinks_iff, not_not]
    constructor
    · intro h _
      have hfirst := h 0 c.succ_pos
      rw [hzero, tagAt] at hfirst
      refine ⟨(longToTrits_eq_digits_iff v hl).mp hfirst, fun k hk => ?_⟩
      have hrest := (@ih (v + 1) (digits 81 v.toInt) (length_digits _ _)).mp
        (fun k hk => by
          have hnext := h (k + 1) (Nat.succ_lt_succ hk)
          rwa [tagAt, hfirst, ← add_one_add] at hnext) (by omega)
      cases k with
      | zero =>
        rw [hzero]
        exact hleft.mp hrest.1
      | succ k =>
        rw [← add_one_add]
        exact hrest.2 k (by omega)
    · intro h k hk
      obtain ⟨hover, hshrinks⟩ := h c.succ_pos
      have hfirst := (longToTrits_eq_digits_iff v hl).mpr hover
      cases k with
      | zero => rw [hzero, tagAt, hfirst]
      | succ k =>
        rw [tagAt, hfirst, ← add_one_add]
        refine (ih (v + 1) (length_digits _ _)).mpr (fun _ => ⟨hleft.mpr ?_, fun j hj => ?_⟩) k
          (by omega)
        · have hnot := hshrinks 0 (by omega)
          rwa [hzero] at hnot
        · rw [add_one_add]
          exact hshrinks (j + 1) (by omega)

end Mining

end Entangled
