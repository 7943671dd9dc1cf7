import Entangled.Prototype.Reader
import Entangled.Trinary.Checked
/-!
# The code of a number and what stood in the buffer

`encode_long` clears three trits where it writes the number and three where it writes the signs, and
trusts that `min_trits` of them are all it needs. So the trits between the number and the end of its
last tryte, and those between the number of the signs and the end of its place, are what the buffer
held; and for one or two trytes the clearing goes past the end of the code. What is left are the
numbers that fill their trytes and whose signs fill their place.
-/

namespace Entangled

namespace Prototype

open Merkle Ternary Trinary

variable {undef : ℕ → ℤ} {x y buf : List ℤ} {e i j k n : ℕ} {v : Int64}

/-! ## Turning trytes -/

/-- Tryte `i`, negated where `encoding` says so. -/
def turn (trits : List ℤ) (encoding i : ℕ) : List ℤ :=
  if encoding.testBit i then (block 3 trits i).map Neg.neg else block 3 trits i

theorem resign_succ (x : List ℤ) (e n i : ℕ) :
    resign x e (n + 1) i = turn x e i ++ resign x e n (i + 1) := rfl

theorem resign_snoc (x : List ℤ) (e n i : ℕ) :
    resign x e (n + 1) i = resign x e n i ++ turn x e (i + n) := by
  induction n generalizing i with
  | zero => simp [resign, turn]
  | succ n ih =>
    rw [resign_succ, ih, resign_succ, List.append_assoc, Nat.succ_add_eq_add_succ]

theorem length_turn (e : ℕ) (h : 3 * (i + 1) ≤ x.length) : (turn x e i).length = 3 := by
  unfold turn
  split_ifs
  · rw [List.length_map, length_block h]
  · exact length_block h

theorem resign_congr {e' : ℕ} (h : ∀ j, i ≤ j → j < i + n → e.testBit j = e'.testBit j) :
    resign x e n i = resign x e' n i := by
  induction n generalizing i with
  | zero => rfl
  | succ n ih =>
    rw [resign_succ, resign_succ, turn, turn, h i le_rfl (by omega),
      ih fun j hj hjn => h j (by omega) (by omega)]

theorem block_resign (e : ℕ) (hn : 3 * n ≤ x.length) (hi : i < n) :
    block 3 (resign x e n 0) i = turn x e i := by
  induction n with
  | zero => omega
  | succ n ih =>
    have hlen : (resign x e n 0).length = 3 * n := length_resign e (by omega)
    rw [resign_snoc, Nat.zero_add]
    rcases Nat.lt_or_ge i n with hlt | hge
    · rw [← ih (by omega) hlt, block, block, List.drop_append_of_le_length (by omega),
        List.take_append_of_le_length (by rw [List.length_drop]; omega)]
    · obtain rfl : i = n := by omega
      rw [block, List.drop_left' hlen, List.take_of_length_le (length_turn e hn).le]

theorem trits_turn (hx : Trits x) (e i : ℕ) : Trits (turn x e i) := by
  have hblock : Trits (block 3 x i) := (hx.drop _).take _
  unfold turn
  split_ifs
  · exact trits_map_neg hblock
  · exact hblock

theorem trits_resign (hx : Trits x) (e n i : ℕ) : Trits (resign x e n i) := by
  induction n generalizing i with
  | zero => exact trits_nil
  | succ n ih => exact trits_append.mpr ⟨trits_turn hx e i, ih (i + 1)⟩

theorem value_turn (x : List ℤ) (e i : ℕ) :
    value (turn x e i) = if e.testBit i then -value (block 3 x i) else value (block 3 x i) := by
  unfold turn
  split_ifs
  · exact value_map_neg _
  · rfl

/-- **Turned twice** a tryte is what it was. -/
theorem resign_resign (e : ℕ) (h : x.length = 3 * n) : resign (resign x e n 0) e n 0 = x := by
  have hlen : (resign x e n 0).length = 3 * n := length_resign e (by omega)
  have hlen' : (resign (resign x e n 0) e n 0).length = 3 * n := length_resign e (by omega)
  refine eq_of_block_eq hlen' h fun i hi => ?_
  rw [block_resign e hlen.ge hi, turn, block_resign e h.ge hi, turn]
  split_ifs
  · rw [List.map_map]
    exact (List.map_congr_left fun t _ => neg_neg t).trans (List.map_id _)
  · rfl

/-! ## The signs -/

/-- The bits of the first `n` trytes, which are negated where they are not below zero. -/
def encodingBits (x : List ℤ) : ℕ → ℕ
  | 0 => 0
  | n + 1 => if 0 ≤ value (block 3 x n) then encodingBits x n + 2 ^ n else encodingBits x n

/-- The number that tells which of `k` trytes are negated; the last one is where it is not above
zero. -/
def encodingOf (x : List ℤ) (k : ℕ) : ℕ :=
  if value (block 3 x (k - 1)) ≤ 0 then encodingBits x (k - 1) + 2 ^ (k - 1)
  else encodingBits x (k - 1)

theorem encodingBits_lt (x : List ℤ) (n : ℕ) : encodingBits x n < 2 ^ n := by
  induction n with
  | zero => exact Nat.one_pos
  | succ n ih =>
    rw [encodingBits, pow_succ]
    split_ifs <;> omega

theorem testBit_add_two_pow (h : e < 2 ^ n) (i : ℕ) :
    (e + 2 ^ n).testBit i = (e.testBit i || decide (i = n)) := by
  have hor : e + 2 ^ n = 2 ^ n ||| e := by
    have := Nat.two_pow_add_eq_or_of_lt h 1
    rwa [Nat.mul_one, Nat.add_comm] at this
  rw [hor, Nat.testBit_or, Nat.testBit_two_pow, Bool.or_comm]
  simp only [eq_comm]

theorem testBit_encodingBits (x : List ℤ) (n i : ℕ) :
    (encodingBits x n).testBit i = decide (i < n ∧ 0 ≤ value (block 3 x i)) := by
  induction n with
  | zero => simp [encodingBits]
  | succ n ih =>
    rw [encodingBits]
    split_ifs with hval
    · rw [testBit_add_two_pow (encodingBits_lt x n), ih]
      rcases Nat.lt_trichotomy i n with hlt | rfl | hgt
      · simp [hlt, Nat.lt_succ_of_lt hlt, hlt.ne]
      · simp [hval]
      · simp [hgt.ne', Nat.not_lt.mpr hgt.le, show ¬ i < n + 1 by omega]
    · rw [ih]
      rcases Nat.lt_trichotomy i n with hlt | rfl | hgt
      · simp [hlt, Nat.lt_succ_of_lt hlt]
      · simp [hval]
      · simp [Nat.not_lt.mpr hgt.le, show ¬ i < n + 1 by omega]

theorem encodingOf_lt (hk : 1 ≤ k) : encodingOf x k < 2 ^ k := by
  have hlt := encodingBits_lt x (k - 1)
  obtain ⟨m, rfl⟩ : ∃ m, k = m + 1 := ⟨k - 1, by omega⟩
  rw [Nat.add_sub_cancel] at hlt
  rw [encodingOf, Nat.add_sub_cancel, pow_succ]
  split_ifs <;> omega

theorem testBit_encodingOf_of_lt (h : i < k - 1) :
    (encodingOf x k).testBit i = decide (0 ≤ value (block 3 x i)) := by
  have hbit := testBit_encodingBits x (k - 1) i
  rw [encodingOf]
  split_ifs
  · rw [testBit_add_two_pow (encodingBits_lt x (k - 1)), hbit]
    simp [h, h.ne]
  · rw [hbit]
    simp [h]

theorem testBit_encodingOf_last (x : List ℤ) (k : ℕ) :
    (encodingOf x k).testBit (k - 1) = decide (value (block 3 x (k - 1)) ≤ 0) := by
  have hbit := testBit_encodingBits x (k - 1) (k - 1)
  rw [encodingOf]
  split_ifs with hval
  · rw [testBit_add_two_pow (encodingBits_lt x (k - 1))]
    simp [hval]
  · rw [hbit]
    simp [hval]

/-- **How the trytes come out**: at most zero but for the last one, which is above zero unless it is
zero. -/
theorem value_turn_of_lt (h : i < k - 1) : value (turn x (encodingOf x k) i) ≤ 0 := by
  rw [value_turn, testBit_encodingOf_of_lt h]
  split_ifs with hval
  · have := of_decide_eq_true hval
    omega
  · have : ¬ 0 ≤ value (block 3 x i) := fun hle => hval (decide_eq_true hle)
    omega

theorem value_turn_last (h : value (block 3 x (k - 1)) ≠ 0) :
    0 < value (turn x (encodingOf x k) (k - 1)) := by
  rw [value_turn, testBit_encodingOf_last]
  split_ifs with hval
  · have := of_decide_eq_true hval
    omega
  · have : ¬ value (block 3 x (k - 1)) ≤ 0 := fun hle => hval (decide_eq_true hle)
    omega

/-! ## The loop over the trytes -/

theorem nonneg_tryte_iff (hblock : Trits (block 3 x i)) :
    0 ≤ tritsToLong (block 3 x i) 3 ↔ 0 ≤ value (block 3 x i) := by
  rw [Int64.le_iff_toInt_le, (value_tryte hblock).1]
  rfl

theorem tryte_nonpos_iff' (hblock : Trits (block 3 x i)) :
    tritsToLong (block 3 x i) 3 ≤ 0 ↔ value (block 3 x i) ≤ 0 := by
  rw [Int64.le_iff_toInt_le, (value_tryte hblock).1]
  rfl

/-- One tryte behind those that are done. -/
theorem block_append_drop (hy : y.length = 3 * n) : block 3 (y ++ x.drop (3 * n)) n = block 3 x n := by
  rw [block, List.drop_left' hy, block]

theorem negateTryte_eq (hy : y.length = 3 * n) (hx : 3 * (n + 1) ≤ x.length) (he : e < 2 ^ n) :
    negateTryte (e, y ++ x.drop (3 * n)) n =
      (e + 2 ^ n, y ++ (block 3 x n).map Neg.neg ++ x.drop (3 * (n + 1))) := by
  have hor : e ||| 2 ^ n = e + 2 ^ n := by
    have := Nat.two_pow_add_eq_or_of_lt he 1
    rw [Nat.mul_one] at this
    rw [Nat.or_comm, ← this, Nat.add_comm]
  have hblock : (block 3 x n).length = 3 := length_block hx
  rw [negateTryte, block_append_drop hy, hor, blit, List.take_left' hy, List.length_map, hblock,
    ← List.drop_drop, List.drop_left' hy, List.drop_drop]
  rfl

theorem block_append_rest (x : List ℤ) (n : ℕ) :
    x.drop (3 * n) = block 3 x n ++ x.drop (3 * (n + 1)) := by
  rw [block, Nat.mul_succ, ← List.drop_drop, List.take_append_drop]

/-- **The run of the loop**: the bits so far, and the trytes turned that they tell of. -/
theorem foldl_negateTryte (hlen : 3 * n ≤ x.length) (hx : ∀ i < n, Trits (block 3 x i)) :
    (List.range n).foldl
        (fun p i => if 0 ≤ tritsToLong (block 3 p.2 i) 3 then negateTryte p i else p) (0, x) =
      (encodingBits x n, resign x (encodingBits x n) n 0 ++ x.drop (3 * n)) := by
  induction n with
  | zero => rfl
  | succ n ih =>
    have hy : (resign x (encodingBits x n) n 0).length = 3 * n := length_resign _ (by omega)
    have hblock := hx n (Nat.lt_succ_self n)
    have hsame : ∀ e', (∀ j < n, e'.testBit j = (encodingBits x n).testBit j) →
        resign x (encodingBits x n) n 0 = resign x e' n 0 := fun e' h =>
      resign_congr fun j _ hj => (h j (by omega)).symm
    rw [List.range_succ, List.foldl_append, ih (by omega) fun i hi => hx i (by omega),
      List.foldl_cons, List.foldl_nil]
    dsimp only
    rw [block_append_drop hy, encodingBits, resign_snoc, Nat.zero_add]
    by_cases hval : 0 ≤ value (block 3 x n)
    · rw [if_pos ((nonneg_tryte_iff hblock).mpr hval), if_pos hval]
      have hbits : ∀ j < n, (encodingBits x n + 2 ^ n).testBit j = (encodingBits x n).testBit j := by
        intro j hj
        rw [testBit_add_two_pow (encodingBits_lt x n)]
        simp [hj.ne]
      have hturn : turn x (encodingBits x n + 2 ^ n) n = (block 3 x n).map Neg.neg := by
        rw [turn, if_pos]
        rw [testBit_add_two_pow (encodingBits_lt x n)]
        simp
      rw [negateTryte_eq hy hlen (encodingBits_lt x n), hturn, ← hsame _ hbits]
    · rw [if_neg (mt (nonneg_tryte_iff hblock).mp hval), if_neg hval]
      have hturn : turn x (encodingBits x n) n = block 3 x n := by
        rw [turn, if_neg]
        rw [testBit_encodingBits]
        simp
      rw [hturn, List.append_assoc, ← block_append_rest]

/-- The last tryte, with the other sign. -/
theorem negate_last (hk : 1 ≤ k) (hlen : 3 * k ≤ x.length) (hx : Trits (block 3 x (k - 1))) :
    (if tritsToLong (block 3 (resign x (encodingBits x (k - 1)) (k - 1) 0 ++ x.drop (3 * (k - 1)))
        (k - 1)) 3 ≤ 0
      then negateTryte (encodingBits x (k - 1),
        resign x (encodingBits x (k - 1)) (k - 1) 0 ++ x.drop (3 * (k - 1))) (k - 1)
      else (encodingBits x (k - 1),
        resign x (encodingBits x (k - 1)) (k - 1) 0 ++ x.drop (3 * (k - 1)))) =
      (encodingOf x k, resign x (encodingOf x k) k 0 ++ x.drop (3 * k)) := by
  obtain ⟨n, rfl⟩ : ∃ n, k = n + 1 := ⟨k - 1, by omega⟩
  rw [Nat.add_sub_cancel] at hx ⊢
  have hy : (resign x (encodingBits x n) n 0).length = 3 * n := length_resign _ (by omega)
  have hlast := testBit_encodingOf_last x (n + 1)
  rw [Nat.add_sub_cancel] at hlast
  have hsame : resign x (encodingBits x n) n 0 = resign x (encodingOf x (n + 1)) n 0 := by
    refine resign_congr fun j _ hj => ?_
    rw [testBit_encodingOf_of_lt (by omega), testBit_encodingBits]
    simp [show j < n by omega]
  rw [block_append_drop hy, resign_snoc, Nat.zero_add, ← hsame]
  by_cases hval : value (block 3 x n) ≤ 0
  · rw [if_pos ((tryte_nonpos_iff' hx).mpr hval), negateTryte_eq hy hlen (encodingBits_lt x n),
      turn, hlast, if_pos (decide_eq_true hval),
      encodingOf, Nat.add_sub_cancel, if_pos hval]
  · rw [if_neg (mt (tryte_nonpos_iff' hx).mp hval), turn, hlast, if_neg (by simpa using hval),
      encodingOf, Nat.add_sub_cancel, if_neg hval, List.append_assoc, ← block_append_rest]

/-! ## What is written -/

theorem nearestGreaterMultipleOfThree_eq (m : ℕ) :
    nearestGreaterMultipleOfThree m = 3 * ((m + 2) / 3) := by
  unfold nearestGreaterMultipleOfThree
  split_ifs <;> omega

theorem minTrits_abs (h : v ≠ Int64.minValue) : minTrits v.abs = minTrits v := by
  have hne : v.toBitVec ≠ BitVec.intMin 64 := fun hv => h (Int64.toBitVec_inj.mp (hv.trans (by decide)))
  have habs : v.abs.toInt = v.toInt.natAbs := BitVec.toInt_abs_eq_natAbs_of_ne_intMin hne
  rw [minTrits, minTrits, vAbs_eq, vAbs_eq, habs, Int.natAbs_natCast]

/-- The number of trytes a number takes. -/
def trytes (v : Int64) : ℕ := (minTrits v + 2) / 3

theorem one_le_trytes (v : Int64) : 1 ≤ trytes v := by
  have := one_le_minTrits v
  unfold trytes
  omega

theorem encodedLength_eq (undef : ℕ → ℤ) (h₀ : v ≠ 0) (h : v ≠ Int64.minValue) :
    encodedLength undef v = 3 * trytes v + encodingLength undef (trytes v) := by
  rw [encodedLength, if_neg h₀, minTrits_abs h, nearestGreaterMultipleOfThree_eq, ← trytes]
  dsimp only
  rw [Nat.mul_div_cancel_left _ (by decide : 0 < 3)]

theorem le_length_longToTritsFrom (negative : Bool) (n i m : ℕ) (trits : List ℤ) :
    (longToTritsFrom negative n i m trits).length = trits.length := by
  induction n generalizing i m trits with
  | zero => rfl
  | succ n ih =>
    rw [longToTritsFrom]
    split_ifs
    · rfl
    · exact (ih _ _ _).trans List.length_set
    · exact (ih _ _ _).trans List.length_set

theorem length_longToTrits (v : Int64) (trits : List ℤ) :
    (longToTrits v trits).1.length = max 3 trits.length := by
  have hmem : (memset trits 0 3).length = max 3 trits.length := by
    rw [memset, blit]
    simp
    omega
  exact (le_length_longToTritsFrom _ _ _ _ _).trans hmem

/-- **The code**: the trytes of the buffer turned, and the number that tells of it. -/
theorem encodeLong_eq (undef : ℕ → ℤ) {numTrits : ℕ} (h₀ : v ≠ 0) (h : v ≠ Int64.minValue)
    (hnum : encodedLength undef v ≤ numTrits) (hlen : 3 * trytes v ≤ (longToTrits v buf).1.length)
    (hx : ∀ i < trytes v, Trits (block 3 (longToTrits v buf).1 i)) :
    encodeLong undef v buf numTrits =
      (0, resign (longToTrits v buf).1 (encodingOf (longToTrits v buf).1 (trytes v)) (trytes v) 0 ++
        (longToTrits (Int64.ofNat (encodingOf (longToTrits v buf).1 (trytes v)))
          ((longToTrits v buf).1.drop (3 * trytes v))).1) := by
  have hk := one_le_trytes v
  have hloop := foldl_negateTryte (n := trytes v - 1) (by omega) fun i hi => hx i (by omega)
  have hlast := negate_last hk hlen (hx _ (by omega))
  rw [encodeLong, if_neg (Nat.not_lt.mpr hnum), if_neg h₀, minTrits_abs h,
    nearestGreaterMultipleOfThree_eq, ← trytes]
  dsimp only
  rw [Nat.mul_div_cancel_left _ (by decide : 0 < 3)]
  generalize (longToTrits v buf).1 = x at hlen hloop hlast ⊢
  rw [hloop]
  dsimp only
  rw [hlast]
  dsimp only
  have hy : (resign x (encodingOf x (trytes v)) (trytes v) 0).length = 3 * trytes v :=
    length_resign _ (by omega)
  have hover := length_longToTrits (Int64.ofNat (encodingOf x (trytes v))) (x.drop (3 * trytes v))
  rw [List.drop_left' hy]
  generalize (longToTrits (Int64.ofNat (encodingOf x (trytes v))) (x.drop (3 * trytes v))).1 = code
    at hover ⊢
  -- nothing of the buffer is left behind what is written
  have hrest : (resign x (encodingOf x (trytes v)) (trytes v) 0 ++ x.drop (3 * trytes v)).drop
      (3 * trytes v + code.length) = [] := by
    refine List.drop_eq_nil_of_le ?_
    rw [List.length_append, hy, hover]
    omega
  rw [blit, List.take_left' hy, hrest, List.append_nil]

/-! ## What is read -/

theorem take_window (mem : ℕ → ℤ) (i : ℕ) {m n : ℕ} (h : m ≤ n) :
    (window mem i n).take m = window mem i m := by
  rw [window, ← List.map_take, List.take_range, Nat.min_eq_left h, window]

theorem drop_window (mem : ℕ → ℤ) (i m n : ℕ) :
    (window mem i (m + n)).drop m = window mem (i + m) n := by
  rw [window, List.range_add, List.map_append, List.drop_left' (by simp), List.map_map, window]
  refine List.map_congr_left fun j _ => ?_
  rw [Function.comp_apply, Nat.add_assoc]

theorem block_window (mem : ℕ → ℤ) (h : i < k) :
    block 3 (window mem 0 (3 * k)) i = window mem (3 * i) 3 := by
  have hsplit : 3 * k = 3 * i + (3 * k - 3 * i) := by omega
  rw [block, hsplit, drop_window, take_window _ _ (by omega), Nat.zero_add]

/-- **Reading the code back**: the trytes end where they were made to end. -/
theorem decodeLongIn_resign {mem : ℕ → ℤ} {numTrits : ℕ} (hk : 2 ≤ k) (hk13 : k ≤ 13)
    (hlen : 3 * k ≤ x.length) (hx : ∀ i < k, Trits (block 3 x i))
    (hlast : value (block 3 x (k - 1)) ≠ 0)
    (hmem : window mem 0 (3 * k) = resign x (encodingOf x k) k 0) (hnum : 3 * (k - 1) < numTrits) :
    decodeLongIn undef mem numTrits =
      (sumTrytes (resign x (encodingOf x k) k 0)
        (toSize (tritsToLong (window mem (3 * k) (encodingLength undef k))
          (encodingLength undef k)).toInt) k 0 0,
        some (3 * k + encodingLength undef k)) := by
  have htryte : ∀ i < k, window mem (3 * i) 3 = block 3 (resign x (encodingOf x k) k 0) i := by
    intro i hi
    rw [← hmem, block_window mem hi]
  have hturn : ∀ i < k, block 3 (resign x (encodingOf x k) k 0) i = turn x (encodingOf x k) i :=
    fun i hi => block_resign _ hlen hi
  have htrits : ∀ i < k, Trits (block 3 (resign x (encodingOf x k) k 0) i) := by
    intro i hi
    rw [hturn i hi]
    unfold turn
    split_ifs
    · exact trits_map_neg (hx i hi)
    · exact hx i hi
  have hlow : ∀ i < k - 1, ¬ Above mem i := by
    intro i hi
    rw [Above, htryte i (by omega), Int64.not_lt, tryte_nonpos_iff' (htrits i (by omega)),
      hturn i (by omega)]
    exact value_turn_of_lt hi
  have hhigh : Above mem (k - 1) := by
    have hpos := value_turn_last hlast
    rw [← hturn (k - 1) (by omega)] at hpos
    rw [Above, htryte _ (by omega), ← Int64.not_le, tryte_nonpos_iff' (htrits _ (by omega))]
    omega
  have hzero : window mem 0 4 ≠ encodedZero := by
    -- the code of zero begins with a tryte above zero
    intro hz
    have hhead := congrArg (List.take 3) hz
    rw [take_window _ _ (by decide)] at hhead
    have hval := value_turn_of_lt (x := x) (i := 0) (k := k) (by omega)
    rw [← hturn 0 (by omega), ← htryte 0 (by omega), Nat.mul_zero, hhead] at hval
    exact absurd hval (by decide)
  have hdec := decodeLongIn_of_above undef hzero hnum (by omega) hlow hhigh
  rw [Nat.sub_add_cancel (by omega : 1 ≤ k), hmem] at hdec
  exact hdec

/-! ## The place of the signs -/

theorem encodingLength_eq (undef : ℕ → ℤ) (hk : k < 31) :
    encodingLength undef k = minTrits (Int64.ofInt (2 ^ k - 1)) := by
  rw [encodingLength, oneShl, if_pos hk]

theorem toInt_ones (hk : k < 31) : (Int64.ofInt (2 ^ k - 1)).toInt = 2 ^ k - 1 := by
  have hlt : (2 : ℤ) ^ k < 2 ^ 31 := pow_lt_pow_right₀ (by decide) hk
  have hpos : (0 : ℤ) < 2 ^ k := by positivity
  exact Word.toInt_ofInt ⟨by omega, by omega⟩

/-- The place has room for every number of signs. -/
theorem room_of_encodingLength (undef : ℕ → ℤ) (hk : k < 31) (he : e < 2 ^ k) :
    2 * (e : ℤ) < 3 ^ encodingLength undef k := by
  have hroom := two_mul_abs_toInt_lt (Int64.ofInt (2 ^ k - 1))
  have hcast : (e : ℤ) < 2 ^ k := by exact_mod_cast he
  rw [toInt_ones hk, abs_of_nonneg (by omega)] at hroom
  rw [encodingLength_eq undef hk]
  omega

/-- And no more than that. -/
theorem encodingLength_le (undef : ℕ → ℤ) (hk : k < 31) (hn : 1 ≤ n) (h : 2 * (2 ^ k - 1) < 3 ^ n) :
    encodingLength undef k ≤ n := by
  have hpos : 0 < 2 ^ k := by positivity
  have hcast : 2 * ((2 : ℤ) ^ k - 1) < 3 ^ n := by
    have := (by omega : 2 * 2 ^ k < 3 ^ n + 2)
    have hint : (2 : ℤ) * 2 ^ k < 3 ^ n + 2 := by exact_mod_cast this
    omega
  have hposz : (0 : ℤ) < 2 ^ k := by positivity
  rw [encodingLength_eq undef hk]
  refine minTrits_le_of_room hn ?_
  rwa [toInt_ones hk, abs_of_nonneg (by omega)]

theorem lt_encodingLength (undef : ℕ → ℤ) (hk : k < 31) (h : 3 ^ n ≤ 2 * (2 ^ k - 1)) :
    n < encodingLength undef k := by
  by_contra hle
  have hroom := room_of_encodingLength undef hk (e := 2 ^ k - 1)
    (Nat.sub_lt (by positivity) Nat.one_pos)
  have hroom' : 2 * (2 ^ k - 1) < 3 ^ encodingLength undef k := by exact_mod_cast hroom
  have hpow : 3 ^ encodingLength undef k ≤ 3 ^ n := Nat.pow_le_pow_right (by decide) (by omega)
  omega

theorem toInt_signs (hk : k < 31) (he : e < 2 ^ k) : (Int64.ofNat e).toInt = e := by
  have hlt : 2 ^ k ≤ 2 ^ 30 := Nat.pow_le_pow_right (by decide) (by omega)
  exact Int64.toInt_ofNat_of_lt (by omega)

theorem toSize_ofInt {z : ℤ} (h : Word.Fits z) : toSize (Int64.ofInt z).toInt = (z % 2 ^ 64).toNat := by
  rw [Word.toInt_ofInt h, toSize]

/-! ## The first trytes of a buffer -/

theorem resign_take {m : ℕ} (e : ℕ) (h : 3 * (i + n) ≤ m) :
    resign (x.take m) e n i = resign x e n i := by
  induction n generalizing i with
  | zero => rfl
  | succ n ih =>
    rw [resign_succ, resign_succ, ih (by omega), turn, turn, block_take (by omega)]

theorem encodingBits_take {m : ℕ} (h : 3 * n ≤ m) :
    encodingBits (x.take m) n = encodingBits x n := by
  induction n with
  | zero => rfl
  | succ n ih => rw [encodingBits, encodingBits, ih (by omega), block_take h]

theorem encodingOf_take {m : ℕ} (hk : 1 ≤ k) (h : 3 * k ≤ m) :
    encodingOf (x.take m) k = encodingOf x k := by
  rw [encodingOf, encodingOf, encodingBits_take (by omega), block_take (by omega)]

end Prototype

end Entangled
