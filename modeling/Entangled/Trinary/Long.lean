import Entangled.Common.Word
import Entangled.Trinary.Slice
/-!
# Trits and integers

`trits_to_long` and `long_to_trits`. Reading wraps at 64 bits; writing goes through the
absolute value, which for `INT64_MIN` is taken by hand, and so covers every word. Into a
cleared buffer that is long enough `long_to_trits` writes the balanced digits.
-/

namespace Entangled

namespace Trinary

open Ternary

/-- `trits_to_long` over the first `numTrits` trits, from the highest down. -/
def tritsToLong (trits : List ℤ) (numTrits : ℕ) : Int64 :=
  (trits.take numTrits).foldr (fun t accum => accum * 3 + Int64.ofInt t) 0

/-- The absolute value as `min_trits` and `long_to_trits` take it. -/
def vAbs (value : Int64) : ℕ :=
  if value = Int64.minValue then 2 ^ 63 - 1 + 1 else value.toInt.natAbs

/-- The loop of `min_trits`. -/
def minTritsFrom (v vp num : ℕ) : ℕ :=
  if vp < v then minTritsFrom v (vp * 3 + 1) (num + 1) else num
termination_by v - vp

/-- `min_trits`. -/
def minTrits (value : Int64) : ℕ := minTritsFrom (vAbs value) 1 1

/-- The loop of `long_to_trits`, with the rounds that are left. -/
def longToTritsFrom (negative : Bool) : ℕ → ℕ → ℕ → List ℤ → List ℤ
  | 0, _, _, trits => trits
  | n + 1, i, v, trits =>
    if v = 0 then trits
    else
      let trit : ℤ := ((v + 1) % 3 : ℕ) - 1
      let trit := if negative then -trit else trit
      longToTritsFrom negative n (i + 1) ((v + 1) / 3) (trits.set i trit)

/-- `long_to_trits`: the buffer and the number of trits. -/
def longToTrits (value : Int64) (trits : List ℤ) : List ℤ × ℕ :=
  let negative := decide (value < 0)
  let size := minTrits value
  (longToTritsFrom negative size 0 (vAbs value) (memset trits 0 3), size)

/-! ## Reading -/

theorem tritsToLong_eq (trits : List ℤ) (n : ℕ) :
    tritsToLong trits n = Int64.ofInt (value (trits.take n)) := by
  rw [tritsToLong]
  generalize trits.take n = ts
  induction ts with
  | nil => rfl
  | cons t ts ih =>
    rw [List.foldr_cons, ih, value_cons, Int64.ofInt_add, Int64.ofInt_mul, Int64.add_comm,
      Int64.mul_comm]
    rfl

/-! ## Writing -/

theorem vAbs_eq (v : Int64) : vAbs v = v.toInt.natAbs := by
  unfold vAbs
  split_ifs with h
  · rw [h]
    decide
  · rfl

/-- The bounds of the loop are the largest numbers of `num` trits. -/
theorem le_minTritsFrom {v vp num : ℕ} (hvp : 2 * vp + 1 = 3 ^ num) :
    2 * v < 3 ^ minTritsFrom v vp num := by
  fun_induction minTritsFrom v vp num with
  | case1 vp num h ih => exact ih (by rw [pow_succ]; omega)
  | case2 vp num h => omega

theorem minTritsFrom_le {v vp num N : ℕ} (hvp : 2 * vp + 1 = 3 ^ num) (hn : num ≤ N)
    (hv : 2 * v < 3 ^ N) : minTritsFrom v vp num ≤ N := by
  fun_induction minTritsFrom v vp num with
  | case1 vp num h ih =>
    refine ih (by rw [pow_succ]; omega) ?_
    by_contra hlt
    have : num = N := by omega
    subst this
    omega
  | case2 vp num h => exact hn

theorem num_le_minTritsFrom (v vp num : ℕ) : num ≤ minTritsFrom v vp num := by
  fun_induction minTritsFrom v vp num with
  | case1 vp num h ih => omega
  | case2 vp num h => exact le_rfl

theorem one_le_minTrits (v : Int64) : 1 ≤ minTrits v := num_le_minTritsFrom _ _ _

theorem two_mul_vAbs_lt (v : Int64) : 2 * v.toInt.natAbs < 3 ^ minTrits v := by
  rw [minTrits, vAbs_eq]
  exact le_minTritsFrom rfl

/-- Every word has its trits in 41. -/
theorem minTrits_le (v : Int64) : minTrits v ≤ 41 := by
  have h₁ := v.le_toInt
  have h₂ := v.toInt_lt
  rw [minTrits, vAbs_eq]
  exact minTritsFrom_le rfl (by decide) (by omega)

theorem digit_neg (v : ℤ) : digit (-v) = -digit v := by
  unfold digit
  omega

theorem carry_neg (v : ℤ) : carry (-v) = -carry v := by
  unfold carry
  omega

/-- The number the loop of `long_to_trits` has left to write. -/
def signed (negative : Bool) (v : ℕ) : ℤ := if negative then -(v : ℤ) else v

theorem digit_signed (negative : Bool) (v : ℕ) :
    digit (signed negative v) =
      if negative then -(((v + 1) % 3 : ℕ) - 1 : ℤ) else ((v + 1) % 3 : ℕ) - 1 := by
  have hd : digit (v : ℤ) = ((v + 1) % 3 : ℕ) - 1 := by
    unfold digit
    omega
  cases negative with
  | false => exact hd
  | true => rw [signed, if_pos rfl, digit_neg, hd, if_pos rfl]

theorem carry_signed (negative : Bool) (v : ℕ) :
    carry (signed negative v) = signed negative ((v + 1) / 3) := by
  have hc : carry (v : ℤ) = ((v + 1) / 3 : ℕ) := by
    unfold carry
    omega
  cases negative with
  | false => exact hc
  | true => rw [signed, if_pos rfl, carry_neg, hc, signed, if_pos rfl]

/-- **What the loop writes**, over a stretch of zeros. -/
theorem longToTritsFrom_eq (negative : Bool) (n i v : ℕ) (trits : List ℤ)
    (hi : i + n ≤ trits.length) (hz : (trits.drop i).take n = List.replicate n 0) :
    longToTritsFrom negative n i v trits = blit trits i (digits n (signed negative v)) := by
  induction n generalizing i v trits with
  | zero => simp [longToTritsFrom, digits]
  | succ n ih =>
    unfold longToTritsFrom
    by_cases hv : v = 0
    · -- the source stops at zero; the trits above are zeros already
      have hs : signed negative v = 0 := by
        rw [hv, signed]
        cases negative <;> rfl
      rw [if_pos hv, hs, digits_zero, ← hz, blit_self hi]
    · have hset : ((trits.set i (digit (signed negative v))).drop (i + 1)).take n =
          List.replicate n 0 := by
        rw [List.drop_set_of_lt (by omega)]
        have hd := congrArg (List.drop 1) hz
        rw [List.drop_take, List.drop_drop, List.drop_replicate] at hd
        exact hd
      have hnext := ih (i + 1) ((v + 1) / 3) (trits.set i (digit (signed negative v)))
        (by rw [List.length_set]; omega) hset
      simp only [if_neg hv, ← digit_signed]
      rw [hnext, digits, ← carry_signed, ← blit_singleton (by omega)]
      exact blit_blit trits [digit (signed negative v)] (digits n (carry (signed negative v))) i
        (by rw [List.length_singleton, length_digits]; omega)

theorem signed_vAbs (v : Int64) : signed (decide (v < 0)) (vAbs v) = v.toInt := by
  rw [vAbs_eq, signed]
  have hlt : v < 0 ↔ v.toInt < 0 := Int64.lt_iff_toInt_lt
  split_ifs with h
  · have := hlt.mp (of_decide_eq_true h)
    omega
  · have : ¬ v.toInt < 0 := fun hn => h (decide_eq_true (hlt.mpr hn))
    omega

/-- Digits above those a number needs are zeros. -/
theorem digits_append_zeros {v : ℤ} {m n : ℕ} (hv : 2 * |v| < 3 ^ m) (hm : m ≤ n) :
    digits n v = digits m v ++ List.replicate (n - m) 0 := by
  have h := digits_value (trits_digits m v) (n := n) (by rw [length_digits]; exact hm)
  rwa [value_digits hv, length_digits] at h

theorem digits_take {v : ℤ} {m n : ℕ} (hm : m ≤ n) : (digits n v).take m = digits m v := by
  induction m generalizing n v with
  | zero => rfl
  | succ m ih =>
    obtain ⟨k, rfl⟩ : ∃ k, n = k + 1 := ⟨n - 1, by omega⟩
    rw [digits, List.take_succ_cons, ih (by omega), digits]

theorem two_mul_abs_toInt_lt (v : Int64) : 2 * |v.toInt| < 3 ^ minTrits v := by
  have h := two_mul_vAbs_lt v
  rw [Int.abs_eq_natAbs]
  exact_mod_cast h

/-- **A number of one tryte**, into a buffer whose contents do not matter. -/
theorem longToTrits_tryte {v : Int64} (hv : 2 * |v.toInt| < 3 ^ 3) {trits : List ℤ}
    (hl : 3 ≤ trits.length) : (longToTrits v trits).1 = blit trits 0 (digits 3 v.toInt) := by
  have hsize : minTrits v ≤ 3 := by
    have h := two_mul_abs_lt.mp hv
    rw [minTrits, vAbs_eq]
    exact minTritsFrom_le rfl (by decide) (by omega)
  have hlen : (memset trits 0 3).length = trits.length :=
    length_blit (by rw [List.length_replicate]; omega)
  have hzero : ((memset trits 0 3).drop 0).take (minTrits v) = List.replicate (minTrits v) 0 := by
    have ht : ((memset trits 0 3).drop 0).take (List.replicate 3 (0 : ℤ)).length =
      List.replicate 3 0 := take_drop_blit (by rw [List.length_replicate]; omega)
    have hm := congrArg (List.take (minTrits v)) ht
    rwa [List.take_take, List.length_replicate, Nat.min_eq_left hsize, List.take_replicate,
      Nat.min_eq_left hsize] at hm
  have hloop := longToTritsFrom_eq (decide (v < 0)) (minTrits v) 0 (vAbs v) (memset trits 0 3)
    (by omega) hzero
  have hover : blit (memset trits 0 3) 0 (digits (minTrits v) v.toInt) =
      blit trits 0 (digits (minTrits v) v.toInt ++
        (List.replicate 3 0).drop (digits (minTrits v) v.toInt).length) :=
    blit_over _ (by rw [length_digits, List.length_replicate]; exact hsize)
      (by rw [List.length_replicate]; omega)
  show longToTritsFrom _ _ _ _ (memset _ _ _) = _
  rw [hloop, signed_vAbs, hover, length_digits, List.drop_replicate,
    ← digits_append_zeros (two_mul_abs_toInt_lt v) hsize]

/-- **A word in a cleared buffer**: its balanced digits, to the end of the buffer. -/
theorem longToTrits_zeros (v : Int64) {n : ℕ} (hthree : 3 ≤ n) (hsize : minTrits v ≤ n) :
    (longToTrits v (List.replicate n 0)).1 = digits n v.toInt := by
  have hmem : memset (List.replicate n (0 : ℤ)) 0 3 = List.replicate n 0 := by
    have hs : blit (List.replicate n (0 : ℤ)) 0 (((List.replicate n 0).drop 0).take 3) = _ :=
      blit_self (by rw [List.length_replicate]; omega)
    rwa [List.drop_zero, List.take_replicate, Nat.min_eq_left hthree] at hs
  have hloop := longToTritsFrom_eq (decide (v < 0)) (minTrits v) 0 (vAbs v)
    (List.replicate n 0) (by rw [List.length_replicate]; omega)
    (by rw [List.drop_zero, List.take_replicate, Nat.min_eq_left hsize])
  show longToTritsFrom _ _ _ _ (memset _ _ _) = _
  rw [hmem, hloop, signed_vAbs,
    digits_append_zeros (n := n) (two_mul_abs_toInt_lt v) hsize, blit,
    List.take_zero, List.nil_append, List.drop_replicate, length_digits, Nat.zero_add]

/-- A buffer of 41 trits has room for every word. -/
theorem longToTrits_eq (v : Int64) {n : ℕ} (hn : 41 ≤ n) :
    (longToTrits v (List.replicate n 0)).1 = digits n v.toInt :=
  longToTrits_zeros v (by omega) ((minTrits_le v).trans hn)

end Trinary

end Entangled
