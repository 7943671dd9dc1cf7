import Entangled.Trinary.Long
/-!
# Trits and integers within 64 bits

`trit_long.c` once more, with every sum and product checked for its type: a signed result that an
`int64_t` does not hold is undefined, an unsigned one would wrap. Writing stays in range for every
word. Reading does so for every word but `INT64_MIN`: its lowest trit is 1, so three times the
number of the other trits is one below the range.
-/

namespace Entangled

namespace Trinary

open Ternary
open Word (Fits)

/-- A result of type `int64_t`. -/
def signedResult (x : ℤ) : Option ℤ := if Fits x then some x else none

/-- A result of type `uint64_t`. -/
def unsignedResult (n : ℕ) : Option ℕ := if n < 2 ^ 64 then some n else none

/-- `trits_to_long`. -/
def tritsToLongChecked (trits : List ℤ) (numTrits : ℕ) : Option ℤ :=
  (trits.take numTrits).foldr (fun t accum => do
    let product ← signedResult ((← accum) * 3)
    signedResult (product + t)) (some 0)

/-- The absolute value, by `llabs` or as `INT64_MAX + 1ULL`. -/
def vAbsChecked (value : Int64) : Option ℕ :=
  if value = Int64.minValue then unsignedResult (2 ^ 63 - 1 + 1)
  else (signedResult |value.toInt|).map Int.toNat

/-- The loop of `min_trits`. -/
def minTritsFromChecked (v vp num : ℕ) : Option ℕ :=
  if vp < v then
    if vp * 3 + 1 < 2 ^ 64 then minTritsFromChecked v (vp * 3 + 1) (num + 1) else none
  else some num
termination_by v - vp

/-- `min_trits`. -/
def minTritsChecked (value : Int64) : Option ℕ := do minTritsFromChecked (← vAbsChecked value) 1 1

/-- `(v_abs + 1) % (RADIX)-1` of a `uint64_t`, narrowed to a `trit_t`: below zero it wraps, and the
narrowing undoes it. -/
def narrowDigit (v : ℕ) : ℤ := Int.bmod (((v % 3 + (2 ^ 64 - 1)) % 2 ^ 64 : ℕ) : ℤ) (2 ^ 8)

/-- The loop of `long_to_trits`, with the rounds that are left. -/
def longToTritsFromChecked (negative : Bool) : ℕ → ℕ → ℕ → List ℤ → Option (List ℤ)
  | 0, _, _, trits => some trits
  | n + 1, i, v, trits =>
    if v = 0 then some trits
    else do
      let trit := narrowDigit (← unsignedResult (v + 1))
      let trit := if negative then -trit else trit
      let v ← unsignedResult (v + 1)
      longToTritsFromChecked negative n (i + 1) (v / 3) (trits.set i trit)

/-- `long_to_trits`. -/
def longToTritsChecked (value : Int64) (trits : List ℤ) : Option (List ℤ × ℕ) := do
  let size ← minTritsChecked value
  let v ← vAbsChecked value
  let out ← longToTritsFromChecked (decide (value < 0)) size 0 v (memset trits 0 3)
  return (out, size)

/-! ## Nothing leaves its range in writing -/

theorem unsignedResult_eq {n : ℕ} (h : n < 2 ^ 64) : unsignedResult n = some n := if_pos h

theorem signedResult_eq {x : ℤ} (h : Fits x) : signedResult x = some x := if_pos h

theorem vAbs_le (v : Int64) : vAbs v ≤ 2 ^ 63 := by
  have h₁ := v.le_toInt
  have h₂ := v.toInt_lt
  rw [vAbs_eq]
  omega

theorem vAbsChecked_eq (v : Int64) : vAbsChecked v = some (vAbs v) := by
  have h₁ := v.le_toInt
  have h₂ := v.toInt_lt
  unfold vAbsChecked vAbs
  split_ifs with h
  · exact unsignedResult_eq (by decide)
  · have hne : v.toInt ≠ -2 ^ 63 := fun hv => h (Int64.toInt_inj.mp (hv.trans (by decide)))
    have hfits : Fits |v.toInt| := by
      unfold Fits
      rw [Int.abs_eq_natAbs]
      omega
    rw [signedResult_eq hfits, Option.map_some, Int.abs_eq_natAbs, Int.toNat_natCast]

/-- The bound of the loop of `min_trits` reaches `(3 ^ 41 - 1) / 2` at most. -/
theorem minTritsFromChecked_eq {v vp num : ℕ} (hvp : 2 * vp + 1 = 3 ^ num) (hv : v ≤ 2 ^ 63) :
    minTritsFromChecked v vp num = some (minTritsFrom v vp num) := by
  fun_induction minTritsFrom v vp num with
  | case1 vp num h ih =>
    have hnum : num ≤ 40 := by
      by_contra hlt
      have hpow : 3 ^ 41 ≤ 3 ^ num := Nat.pow_le_pow_right (by decide) (by omega)
      omega
    have hpow : 3 ^ (num + 1) ≤ 3 ^ 41 := Nat.pow_le_pow_right (by decide) (by omega)
    have hnext : 2 * (vp * 3 + 1) + 1 = 3 ^ (num + 1) := by
      rw [pow_succ]
      omega
    rw [minTritsFromChecked, if_pos h, if_pos (by omega)]
    exact ih hnext
  | case2 vp num h => rw [minTritsFromChecked, if_neg h]

theorem minTritsChecked_eq (v : Int64) : minTritsChecked v = some (minTrits v) := by
  rw [minTritsChecked, vAbsChecked_eq]
  exact minTritsFromChecked_eq rfl (vAbs_le v)

theorem narrowDigit_eq (v : ℕ) : narrowDigit v = (v % 3 : ℕ) - 1 := by
  have hlt := Nat.mod_lt v (show 0 < 3 by decide)
  unfold narrowDigit
  generalize v % 3 = r at hlt
  rcases (by omega : r = 0 ∨ r = 1 ∨ r = 2) with rfl | rfl | rfl <;> decide

theorem longToTritsFromChecked_eq (negative : Bool) (n i : ℕ) {v : ℕ} (trits : List ℤ)
    (hv : v ≤ 2 ^ 63) :
    longToTritsFromChecked negative n i v trits = some (longToTritsFrom negative n i v trits) := by
  induction n generalizing i v trits with
  | zero => rfl
  | succ n ih =>
    rw [longToTritsFromChecked, longToTritsFrom]
    split_ifs with hzero hneg
    · rfl
    · rw [unsignedResult_eq (by omega), Option.bind_eq_bind, Option.bind_some, narrowDigit_eq]
      exact ih (i + 1) _ (by omega)
    · rw [unsignedResult_eq (by omega), Option.bind_eq_bind, Option.bind_some, narrowDigit_eq]
      exact ih (i + 1) _ (by omega)

/-- **Writing stays in range**, for every word and every buffer. -/
theorem longToTritsChecked_eq (v : Int64) (trits : List ℤ) :
    longToTritsChecked v trits = some (longToTrits v trits) := by
  rw [longToTritsChecked, minTritsChecked_eq, vAbsChecked_eq]
  simp only [Option.bind_eq_bind, Option.bind_some,
    longToTritsFromChecked_eq _ _ _ _ (vAbs_le v)]
  rfl

/-! ## What is written -/

/-- No fewer trits have room for the number. -/
theorem minTrits_le_of_room {v : Int64} {n : ℕ} (hn : 1 ≤ n) (h : 2 * |v.toInt| < 3 ^ n) :
    minTrits v ≤ n := by
  rw [minTrits, vAbs_eq]
  refine minTritsFrom_le rfl hn ?_
  rw [Int.abs_eq_natAbs] at h
  exact_mod_cast h

/-- As long as there is a digit to write the loop goes on, over whatever the buffer holds. -/
theorem longToTritsFrom_of_lt (negative : Bool) (n i v : ℕ) (trits : List ℤ)
    (hi : i + n ≤ trits.length) (hv : n = 0 ∨ 3 ^ n < 6 * v) :
    longToTritsFrom negative n i v trits = blit trits i (digits n (signed negative v)) := by
  induction n generalizing i v trits with
  | zero => simp [longToTritsFrom, digits]
  | succ n ih =>
    have hlt := hv.resolve_left (Nat.succ_ne_zero n)
    rw [pow_succ] at hlt
    have hnext : n = 0 ∨ 3 ^ n < 6 * ((v + 1) / 3) := by
      rcases n with _ | n
      · exact .inl rfl
      · -- an odd power of three, so the division rounds to the right side
        have hodd : 3 ^ n % 2 = 1 := by
          rw [Nat.pow_mod]
          simp
        rw [pow_succ] at hlt ⊢
        omega
    have hstep := ih (i + 1) ((v + 1) / 3) (trits.set i (digit (signed negative v)))
      (by rw [List.length_set]; omega) hnext
    have hpos : v ≠ 0 := by omega
    unfold longToTritsFrom
    simp only [if_neg hpos, ← digit_signed]
    rw [hstep, digits, ← carry_signed, ← blit_singleton (by omega)]
    exact blit_blit trits [digit (signed negative v)] (digits n (carry (signed negative v))) i
      (by rw [List.length_singleton, length_digits]; omega)

/-- A number but zero needs all of its trits. -/
theorem lt_of_minTrits {v : Int64} (h : v ≠ 0) : 3 ^ minTrits v < 6 * vAbs v := by
  have hpos : v.toInt ≠ 0 := fun hv => h (Int64.toInt_inj.mp hv)
  have hone := one_le_minTrits v
  rw [vAbs_eq]
  obtain ⟨m, hm⟩ : ∃ m, minTrits v = m + 1 := ⟨minTrits v - 1, by omega⟩
  have hodd : 3 ^ m % 2 = 1 := by
    rw [Nat.pow_mod]
    simp
  rw [hm, pow_succ]
  rcases Nat.eq_zero_or_pos m with rfl | hm'
  · omega
  · have hroom : ¬ 2 * v.toInt.natAbs < 3 ^ m := by
      intro hlt
      have hle := minTrits_le_of_room (v := v) hm' (by rw [Int.abs_eq_natAbs]; exact_mod_cast hlt)
      omega
    omega

/-- **What a word makes of a buffer**: three trits are cleared, and the trits of the word written. -/
theorem longToTrits_blit (v : Int64) {trits : List ℤ} (hthree : 3 ≤ trits.length)
    (hsize : minTrits v ≤ trits.length) :
    (longToTrits v trits).1 = blit (memset trits 0 3) 0 (digits (minTrits v) v.toInt) := by
  have hlen : (memset trits 0 3).length = trits.length := length_memset hthree
  show longToTritsFrom _ _ _ _ (memset _ _ _) = _
  rw [← signed_vAbs v]
  by_cases hv : v = 0
  · -- nothing is written, and the buffer was cleared
    have hone : minTrits v = 1 := by
      have hle := minTrits_le_of_room (v := v) (n := 1) le_rfl (by rw [hv]; decide)
      have hge := one_le_minTrits v
      omega
    have hzero : ((memset trits 0 3).drop 0).take (List.replicate 3 (0 : ℤ)).length =
      List.replicate 3 0 := take_drop_blit (by rw [List.length_replicate]; omega)
    have hm := congrArg (List.take 1) hzero
    rw [List.take_take, List.length_replicate] at hm
    rw [hone]
    exact longToTritsFrom_eq _ 1 0 _ _ (by omega) hm
  · exact longToTritsFrom_of_lt _ _ 0 _ _ (by omega) (.inr (lt_of_minTrits hv))

/-- **The trits of a word**, over whatever the buffer holds. -/
theorem longToTrits_take (v : Int64) {trits : List ℤ} (hthree : 3 ≤ trits.length)
    (hsize : minTrits v ≤ trits.length) :
    (longToTrits v trits).1.take (minTrits v) = digits (minTrits v) v.toInt := by
  have hlen : (memset trits 0 3).length = trits.length := length_memset hthree
  have htake : ((blit (memset trits 0 3) 0 (digits (minTrits v) v.toInt)).drop 0).take
      (digits (minTrits v) v.toInt).length = digits (minTrits v) v.toInt :=
    take_drop_blit (by rw [length_digits]; omega)
  rw [longToTrits_blit v hthree hsize]
  rwa [List.drop_zero, length_digits] at htake

/-- Behind the trits that are cleared and those that are written nothing changes. -/
theorem drop_longToTrits (v : Int64) {trits : List ℤ} {m : ℕ} (hthree : 3 ≤ m)
    (hsize : minTrits v ≤ m) (hm : m ≤ trits.length) :
    (longToTrits v trits).1.drop m = trits.drop m := by
  have hlen : (memset trits 0 3).length = trits.length := length_memset (hthree.trans hm)
  rw [longToTrits_blit v (hthree.trans hm) (hsize.trans hm)]
  apply List.ext_getElem?
  intro j
  rw [List.getElem?_drop, List.getElem?_drop,
    getElem?_blit (by rw [length_digits]; omega), if_neg (by rw [length_digits]; omega), memset,
    getElem?_blit (by rw [List.length_replicate]; omega),
    if_neg (by rw [List.length_replicate]; omega)]

/-! ## Reading -/

/-- **Where reading leaves its range**: at the lowest word, and nowhere else. -/
theorem tritsToLongChecked_eq {ts : List ℤ} (hts : Trits ts) (h : Fits (value ts)) :
    tritsToLongChecked ts ts.length =
      if value ts = -2 ^ 63 then none else some (value ts) := by
  rw [tritsToLongChecked, List.take_length]
  induction ts with
  | nil => rfl
  | cons t ts ih =>
    obtain ⟨ht, hts⟩ := trits_cons.mp hts
    rw [value_cons] at h
    unfold Fits at h
    unfold IsTrit at ht
    have hinner : Fits (value ts) := ⟨by omega, by omega⟩
    rw [List.foldr_cons, ih hts hinner, if_neg (by omega), value_cons]
    simp only [Option.bind_eq_bind, Option.bind_some]
    split_ifs with hmin
    · -- the product is one below the range
      rw [signedResult, if_neg (by unfold Fits; omega), Option.bind_none]
    · rw [signedResult_eq ⟨by omega, by omega⟩, Option.bind_some,
        signedResult_eq ⟨by omega, by omega⟩, Int.mul_comm, Int.add_comm]

/-! ## There and back -/

/-- What the conversion of a word comes to: in any buffer with room for three trits and for those of
the number, the digits of the number are written within the range of every type, as many as
`min_trits` says and no fewer will do, and they are read back within the range. -/
structure Converts (v : Int64) : Prop where
  write : ∀ trits : List ℤ, 3 ≤ trits.length → minTrits v ≤ trits.length →
    ∃ out, longToTritsChecked v trits = some (out, minTrits v) ∧
      out.take (minTrits v) = digits (minTrits v) v.toInt ∧
      value (out.take (minTrits v)) = v.toInt
  minimal : minTritsChecked v = some (minTrits v) ∧
    ∀ n, 1 ≤ n → (∃ ts, Trits ts ∧ ts.length = n ∧ value ts = v.toInt) → minTrits v ≤ n
  read : tritsToLongChecked (digits (minTrits v) v.toInt) (minTrits v) = some v.toInt

theorem converts_iff (v : Int64) : Converts v ↔ v ≠ Int64.minValue := by
  have hvalue : value (digits (minTrits v) v.toInt) = v.toInt :=
    value_digits (two_mul_abs_toInt_lt v)
  have hread := tritsToLongChecked_eq (trits_digits (minTrits v) v.toInt)
    (by rw [hvalue]; exact Word.fits_toInt v)
  rw [length_digits, hvalue] at hread
  constructor
  · rintro ⟨-, -, hsome⟩ rfl
    rw [hread, if_pos (by decide)] at hsome
    cases hsome
  · intro hmin
    have hne : v.toInt ≠ -2 ^ 63 := fun hv => hmin (Int64.toInt_inj.mp (hv.trans (by decide)))
    refine ⟨fun trits hthree hsize => ?_, ⟨minTritsChecked_eq v, ?_⟩, by rw [hread, if_neg hne]⟩
    · have htake := longToTrits_take v hthree hsize
      refine ⟨(longToTrits v trits).1, longToTritsChecked_eq v trits, htake, ?_⟩
      rw [htake, hvalue]
    · rintro n hn ⟨ts, hts, rfl, hval⟩
      exact minTrits_le_of_room hn (hval ▸ two_mul_abs_value_lt hts)

/-- **Integers and trits.** A word is converted and read back, and a string of trits whose number
fits a word is read, without leaving any range, exactly where the number is not `INT64_MIN`. -/
theorem conversion_iff (v : Int64) {ts : List ℤ} (hts : Trits ts) (h : Fits (value ts)) :
    (Converts v ↔ v ≠ Int64.minValue) ∧
      (tritsToLongChecked ts ts.length = some (value ts) ↔ value ts ≠ Int64.minValue.toInt) := by
  refine ⟨converts_iff v, ?_⟩
  rw [tritsToLongChecked_eq hts h, show Int64.minValue.toInt = -2 ^ 63 by decide]
  split_ifs with hmin
  · exact ⟨False.elim, fun hne => absurd hmin hne⟩
  · exact ⟨fun _ => hmin, fun _ => rfl⟩

/-- `MIN_TRITS_IN` of the tests, the trits of `INT64_MIN`. -/
def minTritsIn : List ℤ :=
  [1, 0, 0, -1, 1, 0, 1, -1, -1, 0, 1, 0, 1, 0, -1, 0, -1, 0, 1, -1, -1, 1, 1, -1, 0, -1, 1, 0, 0,
    -1, -1, -1, 0, 0, -1, -1, -1, 1, -1, 1, -1]

/-- They are not read within the range. -/
theorem minTritsIn_overflows :
    value minTritsIn = Int64.minValue.toInt ∧
      ¬ ∀ ts, Trits ts → Fits (value ts) → tritsToLongChecked ts ts.length = some (value ts) := by
  refine ⟨by decide, fun hall => ?_⟩
  have hsome := hall minTritsIn (by decide) (by decide)
  have hnone : tritsToLongChecked minTritsIn minTritsIn.length = none := by decide
  rw [hnone] at hsome
  cases hsome

/-- A million, and the trits of 5, go through. -/
theorem million_converts : Converts 1000000 ∧
    tritsToLongChecked [-1, -1, 1] 3 = some 5 := by
  have hiff := conversion_iff 1000000 (by decide : Trits [-1, -1, 1]) (by decide)
  exact ⟨hiff.1.mpr (by decide), hiff.2.mpr (by decide)⟩

end Trinary

end Entangled
