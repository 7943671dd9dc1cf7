import Entangled.Prototype.Numbers
import Mathlib.Algebra.Order.Ring.Abs
import Mathlib.Data.Nat.Size
/-!
# Reading a number from memory

`decode_long` once more, over a memory that goes on behind the trits it is told of: neither the
comparison with the code of zero nor the reading of what follows the trytes looks at the number of
trits. Up to eleven trytes the sum in floating point is exact; of a twelfth one it is known that it
is not far off.
-/

namespace Entangled

namespace Prototype

open Merkle Ternary Trinary

/-- `n` trits of the memory, from place `i` on. -/
def window (mem : ℕ → ℤ) (i n : ℕ) : List ℤ := (List.range n).map fun j => mem (i + j)

/-- The first loop of `decode_long`. -/
def scanIn (mem : ℕ → ℤ) (numTrits start : ℕ) : ℕ :=
  if start < numTrits then
    if tritsToLong (window mem start 3) 3 ≤ 0 then scanIn mem numTrits (start + 3) else start
  else start
termination_by numTrits - start

/-- `decode_long`: the number, and the size where it is set. -/
def decodeLongIn (undef : ℕ → ℤ) (mem : ℕ → ℤ) (numTrits : ℕ) : Int64 × Option ℕ :=
  if window mem 0 4 = encodedZero then (0, some 4)
  else
    let encodingStart := scanIn mem numTrits 0
    if numTrits ≤ encodingStart then (-1, none)
    else
      let encodingStart := encodingStart + 3
      let length := encodingLength undef (encodingStart / 3)
      let encoding := toSize (tritsToLong (window mem encodingStart length) length).toInt
      if 13 < encodingStart / 3 then (-1, none)
      else
        (sumTrytes (window mem 0 encodingStart) encoding (encodingStart / 3) 0 0,
          some (encodingStart + length))

variable {undef : ℕ → ℤ} {mem : ℕ → ℤ} {trits : List ℤ} {i k n : ℕ}

@[simp] theorem length_window (mem : ℕ → ℤ) (i n : ℕ) : (window mem i n).length = n := by
  rw [window, List.length_map, List.length_range]

/-! ## The memory of a list -/

/-- A list as the memory it stands in. -/
def memory (trits : List ℤ) (i : ℕ) : ℤ := trits.getD i 0

theorem window_memory (h : i + n ≤ trits.length) :
    window (memory trits) i n = (trits.drop i).take n := by
  apply List.ext_getElem
  · rw [length_window, List.length_take, List.length_drop]
    omega
  · intro j hj hj'
    rw [length_window] at hj
    simp only [window, memory, List.getElem_map, List.getElem_range, List.getElem_take,
      List.getElem_drop, List.getD_eq_getElem?_getD]
    rw [List.getElem?_eq_getElem (by omega), Option.getD_some]

theorem scanIn_of_ok {start s : ℕ} (h : scanTrytes trits start = .ok s) :
    scanIn (memory trits) trits.length start = s := by
  induction hn : trits.length - start using Nat.strong_induction_on generalizing start with
  | _ n ih =>
    rw [scanTrytes] at h
    rw [scanIn]
    split_ifs at h ⊢ with hlt hle
    · obtain ⟨tryte, hread, hrest⟩ := Bounded.bind_eq_ok_iff.mp h
      obtain ⟨hroom, rfl⟩ := Bounded.read_eq_ok_iff.mp hread
      rw [window_memory hroom] at hle
      rw [if_pos hle] at hrest
      exact ih _ (by omega) hrest rfl
    · obtain ⟨tryte, hread, hrest⟩ := Bounded.bind_eq_ok_iff.mp h
      obtain ⟨hroom, rfl⟩ := Bounded.read_eq_ok_iff.mp hread
      rw [window_memory hroom] at hle
      rw [if_neg hle] at hrest
      exact Except.ok.inj hrest
    · exact Except.ok.inj h

theorem sumTrytes_congr {trits' : List ℤ} (encoding : ℕ) (v : Int64)
    (h : ∀ j, i ≤ j → j < i + n → block 3 trits j = block 3 trits' j) :
    sumTrytes trits encoding n i v = sumTrytes trits' encoding n i v := by
  induction n generalizing i v with
  | zero => rfl
  | succ n ih =>
    rw [sumTrytes, sumTrytes, h i le_rfl (by omega)]
    exact ih _ fun j hj hjn => h j (by omega) (by omega)

theorem block_take {j m : ℕ} (h : 3 * (j + 1) ≤ m) : block 3 (trits.take m) j = block 3 trits j := by
  rw [block, block, List.drop_take, List.take_take, Nat.min_eq_left (by omega)]

/-- **Within the list** nothing else is decoded. -/
theorem decodeLongIn_of_ok {r : Int64 × Option ℕ} (h : decodeLong undef trits = .ok r) :
    decodeLongIn undef (memory trits) trits.length = r := by
  obtain ⟨head, hread, hrest⟩ := Bounded.bind_eq_ok_iff.mp h
  obtain ⟨hroom, rfl⟩ := Bounded.read_eq_ok_iff.mp hread
  have hhead : window (memory trits) 0 4 = (trits.drop 0).take 4 := window_memory hroom
  rw [decodeLongIn, hhead]
  split_ifs at hrest ⊢ with hzero
  · exact Except.ok.inj hrest
  obtain ⟨s, hscan, hrest⟩ := Bounded.bind_eq_ok_iff.mp hrest
  have hscan' := scanIn_of_ok hscan
  dsimp only at hrest ⊢
  rw [hscan']
  split_ifs at hrest ⊢ with hpast h13
  · exact Except.ok.inj hrest
  · obtain ⟨encoding, hread, hrest⟩ := Bounded.bind_eq_ok_iff.mp hrest
    exact Except.ok.inj hrest
  · obtain ⟨encoding, hread, hrest⟩ := Bounded.bind_eq_ok_iff.mp hrest
    obtain ⟨hroom', rfl⟩ := Bounded.read_eq_ok_iff.mp hread
    have hs : 0 + (s + 3) ≤ trits.length := by omega
    rw [window_memory hroom', window_memory hs, List.drop_zero, ← Except.ok.inj hrest]
    rw [sumTrytes_congr _ _ fun j _ hj => block_take (by omega)]

/-! ## Where the trytes end -/

/-- A tryte above zero, as the loop asks. -/
def Above (mem : ℕ → ℤ) (i : ℕ) : Prop := 0 < tritsToLong (window mem (3 * i) 3) 3

instance (mem : ℕ → ℤ) (i : ℕ) : Decidable (Above mem i) := inferInstanceAs (Decidable (_ < _))

/-- The loop stands at the first tryte above zero, or has passed the trits. -/
theorem scanIn_spec (mem : ℕ → ℤ) (numTrits i : ℕ) :
    ∃ k, i ≤ k ∧ scanIn mem numTrits (3 * i) = 3 * k ∧
      (∀ j, i ≤ j → j < k → ¬ Above mem j) ∧ (numTrits ≤ 3 * k ∨ Above mem k) := by
  induction hn : numTrits - 3 * i using Nat.strong_induction_on generalizing i with
  | _ n ih =>
    rw [scanIn]
    split_ifs with hlt hle
    · obtain ⟨k, hk, hscan, hlow, hend⟩ := ih _ (by omega) (i + 1) rfl
      refine ⟨k, by omega, hscan, fun j hj hjk => ?_, hend⟩
      rcases Nat.eq_or_lt_of_le hj with rfl | hj
      · exact Int64.not_lt.mpr hle
      · exact hlow j hj hjk
    · exact ⟨i, le_rfl, rfl, fun j hj hjk => by omega, .inr (Int64.not_le.mp hle)⟩
    · exact ⟨i, le_rfl, rfl, fun j hj hjk => by omega, .inl (by omega)⟩

/-- Two first trytes are the same one. -/
theorem scanIn_eq {numTrits : ℕ} (hk : 3 * k < numTrits) (hlow : ∀ j < k, ¬ Above mem j)
    (hhigh : Above mem k) : scanIn mem numTrits 0 = 3 * k := by
  obtain ⟨k', -, hscan, hlow', hend⟩ := scanIn_spec mem numTrits 0
  rw [Nat.mul_zero] at hscan
  rw [hscan]
  rcases Nat.lt_trichotomy k' k with hlt | rfl | hgt
  · rcases hend with hend | hend
    · omega
    · exact absurd hend (hlow k' hlt)
  · rfl
  · exact absurd hhigh (hlow' k (Nat.zero_le k) hgt)

/-- **What is decoded** where a tryte above zero is found. -/
theorem decodeLongIn_of_above (undef : ℕ → ℤ) {numTrits : ℕ} (hzero : window mem 0 4 ≠ encodedZero)
    (hk : 3 * k < numTrits) (h13 : k < 13) (hlow : ∀ j < k, ¬ Above mem j) (hhigh : Above mem k) :
    decodeLongIn undef mem numTrits =
      (sumTrytes (window mem 0 (3 * (k + 1)))
        (toSize (tritsToLong (window mem (3 * (k + 1)) (encodingLength undef (k + 1)))
          (encodingLength undef (k + 1))).toInt) (k + 1) 0 0,
        some (3 * (k + 1) + encodingLength undef (k + 1))) := by
  have hdiv : (3 * k + 3) / 3 = k + 1 := by omega
  have hmul : 3 * k + 3 = 3 * (k + 1) := by omega
  rw [decodeLongIn, if_neg hzero, scanIn_eq hk hlow hhigh]
  dsimp only
  rw [if_neg (by omega), hdiv, if_neg (by omega), hmul]

/-! ## How much is taken -/

/-- The trits hold what their first trytes announce: the code of zero, or the first tryte above zero
(if it is one of thirteen) and the number that is to follow it. -/
def Complete (undef : ℕ → ℤ) (mem : ℕ → ℤ) (numTrits : ℕ) : Prop :=
  if window mem 0 4 = encodedZero then 4 ≤ numTrits
  else ∀ k < 13, 3 * k < numTrits → (∀ j < k, ¬ Above mem j) → Above mem k →
    3 * (k + 1) + encodingLength undef (k + 1) ≤ numTrits

/-- **No more than the given length** is taken exactly where the trits are complete. -/
theorem consumes_iff (undef : ℕ → ℤ) (mem : ℕ → ℤ) (numTrits : ℕ) :
    (∀ size, (decodeLongIn undef mem numTrits).2 = some size → size ≤ numTrits) ↔
      Complete undef mem numTrits := by
  unfold Complete
  split_ifs with hzero
  · have hdec : decodeLongIn undef mem numTrits = (0, some 4) := by
      rw [decodeLongIn, if_pos hzero]
    rw [hdec]
    constructor
    · intro h
      exact h 4 rfl
    · rintro h size hsize
      obtain rfl := Option.some.inj hsize
      exact h
  constructor
  · intro h k h13 hk hlow hhigh
    refine h _ ?_
    rw [decodeLongIn_of_above undef hzero hk h13 hlow hhigh]
  · intro h size hsize
    obtain ⟨k, -, hscan, hlow, hend⟩ := scanIn_spec mem numTrits 0
    rw [Nat.mul_zero] at hscan
    rw [decodeLongIn, if_neg hzero, hscan] at hsize
    dsimp only at hsize
    have hdiv : (3 * k + 3) / 3 = k + 1 := by omega
    rw [hdiv] at hsize
    split_ifs at hsize with hpast h13
    obtain rfl := Option.some.inj hsize
    exact h k (by omega) (by omega) (fun j hj => hlow j (Nat.zero_le j) hj)
      (hend.resolve_left hpast)

/-! ## The sum -/

theorem toDouble_of_lt {v : ℤ} (h : |v| < 2 ^ 53) : toDouble v = v := by
  have hlt : v.natAbs < 2 ^ 53 := by
    rw [Int.abs_eq_natAbs] at h
    exact_mod_cast h
  have hunit : v.natAbs.size - 53 = 0 := Nat.sub_eq_zero_of_le (Nat.size_le.mpr hlt)
  rw [toDouble, hunit, pow_zero, Nat.div_one, Nat.mod_one, if_neg (by omega), Nat.mul_one,
    Int.sign_mul_natAbs]

/-- A larger number is off by no more than a unit of its last place. -/
theorem toDouble_near {v : ℤ} (h₀ : 0 < v) (h : v < 2 ^ 57) :
    v - 16 ≤ toDouble v ∧ toDouble v ≤ v + 16 := by
  obtain ⟨n, rfl⟩ : ∃ n : ℕ, v = n := ⟨v.toNat, by omega⟩
  have hsize : n.size - 53 ≤ 4 := by
    have := Nat.size_le.mpr (by exact_mod_cast h : n < 2 ^ 57)
    omega
  have hunit : 2 ^ (n.size - 53) ≤ 2 ^ 4 := Nat.pow_le_pow_right (by decide) hsize
  have hpos : 0 < 2 ^ (n.size - 53) := by positivity
  have hsign : (n : ℤ).sign = 1 := Int.sign_eq_one_of_pos h₀
  rw [toDouble, hsign, Int.one_mul, Int.natAbs_natCast]
  generalize 2 ^ (n.size - 53) = u at hunit hpos
  have hdiv := Nat.div_add_mod n u
  have hmod := Nat.mod_lt n hpos
  rw [Nat.mul_comm] at hdiv
  split_ifs
  · rw [Nat.add_mul]
    omega
  · omega

/-- The trits with the trytes from `i` on turned back, of which `encoding` says that they are
negated. -/
def resign (trits : List ℤ) (encoding : ℕ) : ℕ → ℕ → List ℤ
  | 0, _ => []
  | n + 1, i =>
    (if encoding.testBit i then (block 3 trits i).map Neg.neg else block 3 trits i) ++
      resign trits encoding n (i + 1)

theorem length_resign (encoding : ℕ) (h : 3 * (i + n) ≤ trits.length) :
    (resign trits encoding n i).length = 3 * n := by
  induction n generalizing i with
  | zero => rfl
  | succ n ih =>
    have hblock : (block 3 trits i).length = 3 := length_block (by omega)
    rw [resign, List.length_append, ih (by omega)]
    split_ifs
    · rw [List.length_map, hblock]
      omega
    · rw [hblock]
      omega

theorem value_tryte (hblock : Trits (block 3 trits i)) :
    (tritsToLong (block 3 trits i) 3).toInt = value (block 3 trits i) ∧
      |value (block 3 trits i)| ≤ 13 := by
  have hlen : (block 3 trits i).length ≤ 3 := List.length_take_le _ _
  have hbound := two_mul_abs_value_lt hblock
  have hpow : (3 : ℤ) ^ (block 3 trits i).length ≤ 3 ^ 3 := pow_le_pow_right₀ (by decide) hlen
  have hrange := abs_le.mp (show |value (block 3 trits i)| ≤ 13 by omega)
  refine ⟨?_, by omega⟩
  rw [tritsToLong_eq, List.take_of_length_le hlen]
  exact Word.toInt_ofInt ⟨by omega, by omega⟩

theorem pow27Lut_eq : ∀ i < 12, pow27Lut.getD i 0 = 27 ^ i := by decide

/-- One round adds its tryte exactly, as long as the sum is one of eleven trytes. -/
theorem sum_step {a t : ℤ} (hi : i < 11) (ha : 2 * |a| < 27 ^ i) (ht : |t| ≤ 13) :
    2 * |a + 27 ^ i * t| < 27 ^ (i + 1) ∧
      toDouble (toDouble a + toDouble (27 ^ i * t)) = a + 27 ^ i * t := by
  have hpow : (27 : ℤ) ^ (i + 1) ≤ 27 ^ 11 := pow_le_pow_right₀ (by decide) hi
  have hpos : (0 : ℤ) < 27 ^ i := by positivity
  have hprod : |27 ^ i * t| ≤ 27 ^ i * 13 := by
    rw [abs_mul, abs_of_pos hpos]
    exact Int.mul_le_mul_of_nonneg_left ht hpos.le
  have hsum := abs_add_le a (27 ^ i * t)
  rw [pow_succ] at hpow ⊢
  have htop : (27 : ℤ) ^ 11 < 2 ^ 53 := by decide
  have hexact : toDouble (27 ^ i * t) = 27 ^ i * t := toDouble_of_lt (by omega)
  refine ⟨by omega, ?_⟩
  rw [toDouble_of_lt (v := a) (by omega), hexact, toDouble_of_lt (by omega)]

/-- **Up to eleven trytes** the sum is the number of the trits, whatever is added after them. -/
theorem sumTrytes_append (htrits : Trits trits) (encoding m : ℕ)
    (hlen : 3 * (i + n) ≤ trits.length) (hn : i + n ≤ 11) {v : Int64} (hv : 2 * |v.toInt| < 27 ^ i) :
    sumTrytes trits encoding (n + m) i v =
      sumTrytes trits encoding m (i + n)
        (Int64.ofInt (v.toInt + 27 ^ i * value (resign trits encoding n i))) := by
  induction n generalizing i v with
  | zero =>
    rw [resign, value_nil, Int.mul_zero, Int.add_zero, Int64.ofInt_toInt, Nat.zero_add, Nat.add_zero]
  | succ n ih =>
    obtain ⟨htryte, hbound⟩ := value_tryte (i := i) ((htrits.drop _).take _)
    have hblock : (block 3 trits i).length = 3 := length_block (by omega)
    have hround : ∃ t : ℤ, |t| ≤ 13 ∧
        (if encoding.testBit i then -value (block 3 trits i) else value (block 3 trits i)) = t ∧
        value (resign trits encoding (n + 1) i) = t + 27 * value (resign trits encoding n (i + 1)) := by
      rw [resign, value_append]
      split_ifs
      · exact ⟨_, by rwa [abs_neg], rfl, by rw [List.length_map, hblock, value_map_neg]; norm_num⟩
      · exact ⟨_, hbound, rfl, by rw [hblock]; norm_num⟩
    obtain ⟨t, ht, htv, hval⟩ := hround
    obtain ⟨hnext, hexact⟩ := sum_step (by omega) hv ht
    have hpow : (27 : ℤ) ^ (i + 1) ≤ 27 ^ 11 := pow_le_pow_right₀ (by decide) (by omega)
    have htop : (27 : ℤ) ^ 11 < 2 ^ 53 := by decide
    have habs := abs_lt.mp (show |v.toInt + 27 ^ i * t| < 2 ^ 53 by omega)
    have hword : (Int64.ofInt (v.toInt + 27 ^ i * t)).toInt = v.toInt + 27 ^ i * t :=
      Word.toInt_ofInt ⟨by omega, by omega⟩
    have hrest := ih (i := i + 1) (by omega) (by omega)
      (v := Int64.ofInt (v.toInt + 27 ^ i * t)) (by rwa [hword])
    rw [Nat.succ_add_eq_add_succ, Nat.add_succ, sumTrytes, htryte, htv, pow27Lut_eq i (by omega),
      hexact, hrest, hword, hval, pow_succ, Nat.succ_add_eq_add_succ, Nat.add_succ]
    congr 2
    ring

theorem sumTrytes_eq (htrits : Trits trits) (encoding : ℕ) (hlen : 3 * n ≤ trits.length)
    (hn : n ≤ 11) :
    sumTrytes trits encoding n 0 0 = Int64.ofInt (value (resign trits encoding n 0)) := by
  have hsum := sumTrytes_append htrits encoding 0 (i := 0) (n := n) (by omega) (by omega)
    (v := 0) (by decide)
  rw [Nat.add_zero, sumTrytes, pow_zero, Int.one_mul, Int64.toInt_zero, Int.zero_add] at hsum
  exact hsum

end Prototype

end Entangled
