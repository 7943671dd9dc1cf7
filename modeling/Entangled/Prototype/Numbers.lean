import Entangled.Common.Bounded
import Entangled.Merkle.Tree
import Entangled.Trinary.Long
/-!
# Self-delimiting numbers

`encode_long` and `decode_long`. A number is written in trytes, each of them negated where that is
what makes all but the last one at most zero and the last one more than zero; so the reader knows
where the trytes end. Behind them stands a number that tells which trytes were negated. Zero has a
code of its own.

The reader adds up in floating point. Up to eleven trytes this is exact.
-/

namespace Entangled

namespace Prototype

open Merkle Ternary Trinary

/-- `encoded_zero`. -/
def encodedZero : List ℤ := [1, 0, 0, -1]

/-- `nearest_greater_multiple_of_three`. -/
def nearestGreaterMultipleOfThree (value : ℕ) : ℕ :=
  if value % 3 = 0 then value else value + 3 - value % 3

/-- The trits of a number that tells which of `k` trytes are negated. -/
def encodingLength (undef : ℕ → ℤ) (k : ℕ) : ℕ := minTrits (Int64.ofInt (oneShl undef k - 1))

/-- `encoded_length`. -/
def encodedLength (undef : ℕ → ℤ) (value : Int64) : ℕ :=
  if value = 0 then 4
  else
    let length := nearestGreaterMultipleOfThree (minTrits value.abs)
    length + encodingLength undef (length / 3)

/-- A tryte and whether it is negated: `encoding` has a bit for each that is. -/
def negateTryte (p : ℕ × List ℤ) (i : ℕ) : ℕ × List ℤ :=
  (p.1 ||| 2 ^ i, blit p.2 (3 * i) ((block 3 p.2 i).map Neg.neg))

/-- `encode_long`: the return code and the buffer. -/
def encodeLong (undef : ℕ → ℤ) (value : Int64) (trits : List ℤ) (numTrits : ℕ) : ℤ × List ℤ :=
  if numTrits < encodedLength undef value then (-1, trits)
  else if value = 0 then (0, blit trits 0 encodedZero)
  else
    let length := nearestGreaterMultipleOfThree (minTrits value.abs)
    let last := length / 3 - 1
    let p := (List.range last).foldl
      (fun p i => if 0 ≤ tritsToLong (block 3 p.2 i) 3 then negateTryte p i else p)
      (0, (longToTrits value trits).1)
    let p := if tritsToLong (block 3 p.2 last) 3 ≤ 0 then negateTryte p last else p
    (0, blit p.2 length (longToTrits (Int64.ofNat p.1) (p.2.drop length)).1)

/-- A whole number as a `double`: the nearest one, and of two the one with an even significand. -/
def toDouble (v : ℤ) : ℤ :=
  let unit := 2 ^ (v.natAbs.size - 53)
  let low := v.natAbs / unit
  let rest := v.natAbs % unit
  v.sign * ((if unit < 2 * rest ∨ unit = 2 * rest ∧ low % 2 = 1 then low + 1 else low) * unit : ℕ)

/-- `pow27LUT`. -/
def pow27Lut : List ℤ :=
  [1, 27, 729, 19683, 531441, 14348907, 387420489, 10460353203, 282429536481, 7625597484987,
    205891132094649, 5559060566555523, 150094635296999136, 4052555153018976256]

/-- The first loop of `decode_long`: the place of the first tryte above zero, or one behind the
trits. -/
def scanTrytes (trits : List ℤ) (start : ℕ) : Bounded ℕ :=
  if start < trits.length then do
    let tryte ← Bounded.read trits start 3
    if tritsToLong tryte 3 ≤ 0 then scanTrytes trits (start + 3) else pure start
  else pure start
termination_by trits.length - start

/-- The second loop of `decode_long`, from tryte `i` on. -/
def sumTrytes (trits : List ℤ) (encoding : ℕ) : ℕ → ℕ → Int64 → Int64
  | 0, _, value => value
  | n + 1, i, value =>
    let tryteValue := (tritsToLong (block 3 trits i) 3).toInt
    let tryteValue := if encoding.testBit i then -tryteValue else tryteValue
    sumTrytes trits encoding n (i + 1) (Int64.ofInt (toDouble
      (toDouble value.toInt + toDouble (pow27Lut.getD i 0 * tryteValue))))

/-- `decode_long`, on all the trits there are: the number, and the size where it is set. -/
def decodeLong (undef : ℕ → ℤ) (trits : List ℤ) : Bounded (Int64 × Option ℕ) := do
  let head ← Bounded.read trits 0 4
  if head = encodedZero then pure (0, some 4)
  else
    let encodingStart ← scanTrytes trits 0
    if trits.length ≤ encodingStart then pure (-1, none)
    else
      let encodingStart := encodingStart + 3
      let length := encodingLength undef (encodingStart / 3)
      let encoding ← Bounded.read trits encodingStart length
      if 13 < encodingStart / 3 then pure (-1, none)
      else
        pure (sumTrytes trits (toSize (tritsToLong encoding length).toInt) (encodingStart / 3) 0 0,
          some (encodingStart + length))

/-- A call of `decode_long` whose size is used. -/
def takeLong (undef : ℕ → ℤ) (trits : List ℤ) : Bounded (Int64 × ℕ) := do
  match ← decodeLong undef trits with
  | (value, some size) => pure (value, size)
  | (_, none) => throw (.fault .unset)

/-! ## What is decoded -/

/-- The code of a number is complete: its trytes end, there are no more than 13 of them, and what
follows them is there too. -/
def Number (undef : ℕ → ℤ) (trits : List ℤ) (v : Int64) (size : ℕ) : Prop :=
  size ≤ trits.length ∧
    (trits.take 4 = encodedZero ∧ size = 4 ∧ v = 0 ∨
      trits.take 4 ≠ encodedZero ∧ 4 ≤ size ∧ ∃ k < 13, (∀ i < k, value (block 3 trits i) ≤ 0) ∧
        0 < value (block 3 trits k) ∧ size = 3 * (k + 1) + encodingLength undef (k + 1) ∧
        v = sumTrytes trits (toSize (tritsToLong ((trits.drop (3 * (k + 1))).take
          (encodingLength undef (k + 1))) (encodingLength undef (k + 1))).toInt) (k + 1) 0 0)

section

variable {undef : ℕ → ℤ} {trits : List ℤ} {i n size start : ℕ}

theorem tryte_nonpos_iff (htrits : Trits trits) (i : ℕ) :
    tritsToLong (block 3 trits i) 3 ≤ 0 ↔ value (block 3 trits i) ≤ 0 := by
  have hblock : Trits (block 3 trits i) := (htrits.drop _).take _
  have hlen : (block 3 trits i).length ≤ 3 := List.length_take_le _ _
  have hbound := two_mul_abs_lt.mp (two_mul_abs_value_lt hblock)
  have hpow : (3 : ℤ) ^ (block 3 trits i).length ≤ 3 ^ 3 := pow_le_pow_right₀ (by decide) hlen
  rw [tritsToLong_eq, List.take_of_length_le hlen, Int64.le_iff_toInt_le,
    Word.toInt_ofInt ⟨by omega, by omega⟩]
  rfl

/-- **Where the trytes end**, if they do. -/
theorem scanTrytes_iff (htrits : Trits trits) (i s : ℕ) :
    (scanTrytes trits (3 * i) = .ok s ∧ s < trits.length) ↔
      ∃ k, i ≤ k ∧ s = 3 * k ∧ 3 * (k + 1) ≤ trits.length ∧
        (∀ j, i ≤ j → j < k → value (block 3 trits j) ≤ 0) ∧ 0 < value (block 3 trits k) := by
  induction hn : trits.length - 3 * i using Nat.strong_induction_on generalizing i with
  | _ n ih =>
    rw [scanTrytes]
    by_cases hlt : 3 * i < trits.length
    · rw [if_pos hlt]
      by_cases hroom : 3 * i + 3 ≤ trits.length
      · have hread : Bounded.read trits (3 * i) 3 = .ok (block 3 trits i) := if_pos hroom
        rw [hread]
        show (if tritsToLong (block 3 trits i) 3 ≤ 0 then scanTrytes trits (3 * i + 3)
          else .ok (3 * i)) = .ok s ∧ s < trits.length ↔ _
        by_cases hle : value (block 3 trits i) ≤ 0
        · rw [if_pos ((tryte_nonpos_iff htrits i).mpr hle), show 3 * i + 3 = 3 * (i + 1) by ring,
            ih _ (by omega) (i + 1) rfl]
          constructor
          · rintro ⟨k, hk, rfl, hlen, hlow, hhigh⟩
            refine ⟨k, by omega, rfl, hlen, fun j hj hjk => ?_, hhigh⟩
            rcases Nat.eq_or_lt_of_le hj with rfl | hj
            · exact hle
            · exact hlow j hj hjk
          · rintro ⟨k, hk, rfl, hlen, hlow, hhigh⟩
            have hne : i ≠ k := by
              rintro rfl
              omega
            exact ⟨k, by omega, rfl, hlen, fun j hj hjk => hlow j (by omega) hjk, hhigh⟩
        · rw [if_neg (mt (tryte_nonpos_iff htrits i).mp hle)]
          constructor
          · rintro ⟨heq, -⟩
            obtain rfl := Except.ok.inj heq
            exact ⟨i, le_rfl, rfl, by omega, fun j hj hjk => by omega, by omega⟩
          · rintro ⟨k, hk, rfl, hlen, hlow, hhigh⟩
            rcases Nat.eq_or_lt_of_le hk with rfl | hk
            · exact ⟨rfl, hlt⟩
            · exact absurd (hlow i le_rfl hk) hle
      · rw [Bounded.read, if_neg hroom]
        constructor
        · rintro ⟨heq, -⟩
          cases heq
        · rintro ⟨k, hk, rfl, hlen, -⟩
          omega
    · rw [if_neg hlt]
      constructor
      · rintro ⟨heq, hs⟩
        obtain rfl := Except.ok.inj heq
        omega
      · rintro ⟨k, hk, rfl, hlen, -⟩
        omega

/-- Behind the trytes: the number that tells which are negated has to be there, and the table has to
go that far. -/
theorem takeLong_of_scan {k : ℕ} (hlen : 4 ≤ trits.length) (hhead : trits.take 4 ≠ encodedZero)
    (hscan : scanTrytes trits 0 = .ok (3 * k)) (hk : 3 * k < trits.length) :
    takeLong undef trits =
      if trits.length < 3 * (k + 1) + encodingLength undef (k + 1) then .error (.fault .outside)
      else if 13 < k + 1 then .error (.fault .unset)
      else
        .ok (sumTrytes trits (toSize (tritsToLong ((trits.drop (3 * (k + 1))).take
          (encodingLength undef (k + 1))) (encodingLength undef (k + 1))).toInt) (k + 1) 0 0,
          3 * (k + 1) + encodingLength undef (k + 1)) := by
  have hread : Bounded.read trits 0 4 = .ok (trits.take 4) := if_pos (by omega)
  have hthree : 3 * k + 3 = 3 * (k + 1) := by ring
  have hdiv : 3 * (k + 1) / 3 = k + 1 := Nat.mul_div_cancel_left _ (by decide)
  simp only [takeLong, decodeLong, hread, hscan, bind, Except.bind, if_neg hhead,
    if_neg (Nat.not_le.mpr hk), hthree, hdiv]
  by_cases hend : 3 * (k + 1) + encodingLength undef (k + 1) ≤ trits.length
  · rw [Bounded.read, if_pos hend, if_neg (Nat.not_lt.mpr hend)]
    dsimp only
    by_cases h13 : 13 < k + 1
    · rw [if_pos h13, if_pos h13]
      rfl
    · rw [if_neg h13, if_neg h13]
      rfl
  · rw [Bounded.read, if_neg hend, if_pos (Nat.lt_of_not_le hend)]

/-- **A number is taken exactly when its code is complete.** -/
theorem takeLong_ok_iff (htrits : Trits trits) {v : Int64} :
    takeLong undef trits = .ok (v, size) ↔ Number undef trits v size := by
  unfold Number
  by_cases hlen : 4 ≤ trits.length
  swap
  · have hread : Bounded.read trits 0 4 = .error (.fault .outside) := if_neg (by omega)
    simp only [takeLong, decodeLong, hread, bind, Except.bind]
    constructor
    · intro heq
      cases heq
    · rintro ⟨hsize, ⟨-, rfl, -⟩ | ⟨-, h4, -⟩⟩ <;> omega
  have hread : Bounded.read trits 0 4 = .ok (trits.take 4) := if_pos (by omega)
  by_cases hhead : trits.take 4 = encodedZero
  · simp only [takeLong, decodeLong, hread, bind, Except.bind, if_pos hhead]
    constructor
    · intro heq
      obtain ⟨rfl, rfl⟩ := Prod.mk.inj (Except.ok.inj heq)
      exact ⟨hlen, .inl ⟨hhead, rfl, rfl⟩⟩
    · rintro ⟨-, ⟨-, rfl, rfl⟩ | ⟨hne, -⟩⟩
      · rfl
      · exact absurd hhead hne
  -- what the scan finds is the tryte that ends the number
  have hiff := scanTrytes_iff htrits 0
  rw [Nat.mul_zero] at hiff
  constructor
  · intro heq
    have hscan : ∃ s, scanTrytes trits 0 = .ok s ∧ s < trits.length := by
      by_contra hnone
      simp only [takeLong, decodeLong, hread, bind, Except.bind, if_neg hhead] at heq
      cases hs : scanTrytes trits 0 with
      | error f =>
        rw [hs] at heq
        cases heq
      | ok s =>
        rw [hs] at heq
        dsimp only at heq
        rw [if_pos (Nat.le_of_not_lt fun hlt => hnone ⟨s, hs, hlt⟩)] at heq
        cases heq
    obtain ⟨s, hs, hlt⟩ := hscan
    obtain ⟨k, -, rfl, -, hlow, hhigh⟩ := (hiff s).mp ⟨hs, hlt⟩
    rw [takeLong_of_scan hlen hhead hs hlt] at heq
    split_ifs at heq with hend h13
    obtain ⟨rfl, rfl⟩ := Prod.mk.inj (Except.ok.inj heq)
    have hpos : 1 ≤ encodingLength undef (k + 1) := one_le_minTrits _
    exact ⟨by omega, .inr ⟨hhead, by omega, k, by omega, fun i hi => hlow i (Nat.zero_le i) hi, hhigh,
      rfl, rfl⟩⟩
  · rintro ⟨hsize, ⟨hzero, -⟩ | ⟨-, -, k, hk, hlow, hhigh, rfl, rfl⟩⟩
    · exact absurd hzero hhead
    · obtain ⟨hs, hlt⟩ := (hiff (3 * k)).mpr
        ⟨k, Nat.zero_le k, rfl, by omega, fun j _ hj => hlow j hj, hhigh⟩
      rw [takeLong_of_scan hlen hhead hs hlt, if_neg (by omega), if_neg (by omega)]

theorem notFailed_scanTrytes (start : ℕ) : Bounded.NotFailed (scanTrytes trits start) := by
  induction hn : trits.length - start using Nat.strong_induction_on generalizing start with
  | _ n ih =>
    rw [scanTrytes]
    split_ifs with hlt
    · refine Bounded.notFailed_read.bind fun tryte => ?_
      split_ifs
      · exact ih _ (by omega) _ rfl
      · exact fun h => by cases h
    · exact fun h => by cases h

theorem notFailed_takeLong : Bounded.NotFailed (takeLong undef trits) := by
  refine Bounded.NotFailed.bind ?_ fun p => ?_
  · refine Bounded.notFailed_read.bind fun head => ?_
    split_ifs
    · exact fun h => by cases h
    · refine (notFailed_scanTrytes 0).bind fun encodingStart => ?_
      split_ifs
      · exact fun h => by cases h
      · refine Bounded.notFailed_read.bind fun encoding => ?_
        split_ifs <;> exact fun h => by cases h
  · obtain ⟨value, _ | size⟩ := p <;> exact fun h => by cases h

/-- **Taking a number is free of faults** when its code is complete and the rest is free of them. -/
theorem noFault_takeLong_bind (htrits : Trits trits) {β : Type} {g : Int64 × ℕ → Bounded β} :
    (takeLong undef trits >>= g).NoFault ↔
      ∃ v size, Number undef trits v size ∧ (g (v, size)).NoFault := by
  rw [notFailed_takeLong.noFault_bind]
  simp only [Prod.exists, takeLong_ok_iff htrits]

end

end Prototype

end Entangled
