import Entangled.Signing.Iss
import Entangled.Trinary.Checked
/-!
# Adding a number to trits in place

`add.c` with the result of `add_internal` and its sum `v + 1` checked for overflow. The remainder of
C is that of the quotient rounded towards zero, so below zero the loop makes digits 1, 2 and 3 of
`-v` and negates what is negative already: it adds instead of taking away, and 2 and 3 are no trits.
From zero on the trits come out right, and what is reported is that something is left of the number
or of the carry, also where the two cancel.
-/

namespace Entangled

namespace Trinary

open Ternary
open Word (Fits)

/-- `add_internal`, from the carry `c`: the trits and the result, which is 1 where something is
left. -/
def addInternalChecked (negative : Bool) : List ℤ → ℤ → ℤ → Option (List ℤ × ℤ)
  | [], v, c => some ([], if v = 0 ∧ c = 0 then 0 else 1)
  | t :: ts, v, c =>
    if v = 0 ∧ c = 0 then some (t :: ts, 0)
    else do
      let v ← signedResult (v + 1)
      let trit := v.tmod 3 - 1
      let trit := if negative then -trit else trit
      let r := tritFullAdd t trit c
      let (rest, result) ← addInternalChecked negative ts (v.tdiv 3) r.2
      return (r.1 :: rest, result)

/-- `add_assign`. -/
def addAssignChecked (t : List ℤ) (v : Int64) : Option (List ℤ × ℤ) :=
  addInternalChecked (v < 0) t v.toInt 0

/-- The lowest `n` trits of a number, and 1 where it has more. -/
def wrapped (n : ℕ) (x : ℤ) : List ℤ × ℤ := (digits n x, if 2 * |x| < 3 ^ n then 0 else 1)

/-- What `add_assign` is to do. -/
def Adds (t : List ℤ) (v : Int64) : Prop :=
  addAssignChecked t v = some (wrapped t.length (value t + v.toInt))

/-- Where it does. From zero on: unless the number is too long for the trits, but the sum is not.
Below zero: by a coincidence of digits, where the first trit is -1. -/
def Addable (t : List ℤ) (v : Int64) : Prop :=
  t = [] ∨
    (0 ≤ v.toInt ∧ v.toInt < 2 ^ 63 - 1 ∧
      (2 * v.toInt < 3 ^ t.length ∨ 3 ^ t.length ≤ 2 * |value t + v.toInt|)) ∨
    (v.toInt < 0 ∧ t.head? = some (-1) ∧
      ∃ u ≤ -1, 2 * v.toInt + 3 ^ t.length + 3 = 2 * 3 ^ t.length * u)

variable {t c v x : ℤ} {ts : List ℤ} {n : ℕ} {negative : Bool}

/-! ## One trit -/

theorem digit_add_mul (a b : ℤ) : digit (a + 3 * b) = digit a := by
  unfold digit
  omega

theorem carry_add_mul (a b : ℤ) : carry (a + 3 * b) = carry a + b := by
  unfold carry
  omega

/-- **Three trits are added** as numbers are. -/
theorem tritFullAdd_eq {a b : ℤ} (ha : IsTrit a) (hb : IsTrit b) (hc : IsTrit c) :
    tritFullAdd a b c = (digit (a + b + c), carry (a + b + c)) := by
  rcases ha with rfl | rfl | rfl <;> rcases hb with rfl | rfl | rfl <;>
    rcases hc with rfl | rfl | rfl <;> decide

theorem isTrit_carry {a b : ℤ} (ha : IsTrit a) (hb : IsTrit b) (hc : IsTrit c) :
    IsTrit (carry (a + b + c)) := by
  unfold IsTrit at *
  unfold carry
  omega

theorem wrapped_zero (x : ℤ) : wrapped 0 x = ([], if x = 0 then 0 else 1) := by
  have hiff : 2 * |x| < 3 ^ 0 ↔ x = 0 := by
    rw [two_mul_abs_lt]
    omega
  simp only [wrapped, digits, hiff]

/-- A number has more than `n + 1` trits where it has more than `n` above the lowest. -/
theorem fits_carry_iff (n : ℕ) (x : ℤ) : 2 * |x| < 3 ^ (n + 1) ↔ 2 * |carry x| < 3 ^ n := by
  refine ⟨two_mul_abs_carry_lt, fun h => ?_⟩
  have hx := digit_add_carry x
  have hodd := three_pow_odd n
  have ht := isTrit_digit x
  unfold IsTrit at ht
  rw [two_mul_abs_lt] at h
  rw [two_mul_abs_lt, pow_succ]
  omega

theorem wrapped_succ (n : ℕ) (x : ℤ) :
    wrapped (n + 1) x = (digit x :: (wrapped n (carry x)).1, (wrapped n (carry x)).2) := by
  simp only [wrapped, digits, fits_carry_iff]

/-- **One step** is right where its trit is and the rest is. -/
theorem addInternalChecked_cons_iff (hne : ¬ (v = 0 ∧ c = 0)) (hv : Fits (v + 1)) {d : ℤ}
    (hd : (if negative then -((v + 1).tmod 3 - 1) else (v + 1).tmod 3 - 1) = d) :
    addInternalChecked negative (t :: ts) v c = some (wrapped (n + 1) x) ↔
      (tritFullAdd t d c).1 = digit x ∧
        addInternalChecked negative ts ((v + 1).tdiv 3) (tritFullAdd t d c).2 =
          some (wrapped n (carry x)) := by
  rw [addInternalChecked, if_neg hne, signedResult_eq hv, wrapped_succ]
  simp only [Option.bind_eq_bind, Option.bind_some, hd]
  rcases addInternalChecked negative ts ((v + 1).tdiv 3) (tritFullAdd t d c).2 with
    _ | ⟨rest, result⟩
  · simp
  · simp [Prod.ext_iff, and_assoc]

/-- **Where nothing overflows** the trits are those of `addInternal`. -/
theorem addInternal_of_checked {w : Int64} {p : List ℤ × ℤ}
    (h : addInternalChecked negative ts w.toInt c = some p) :
    p.1 = addInternal negative ts w c := by
  induction ts generalizing w c p with
  | nil =>
    rw [addInternalChecked] at h
    obtain rfl := Option.some.inj h
    rfl
  | cons t ts ih =>
    have hzero : w.toInt = 0 ∧ c = 0 ↔ w = 0 ∧ c = 0 :=
      and_congr_left' (Int64.toInt_inj (y := 0))
    rw [addInternalChecked] at h
    rw [addInternal]
    by_cases hne : w = 0 ∧ c = 0
    · rw [if_pos (hzero.mpr hne)] at h
      rw [if_pos hne]
      obtain rfl := Option.some.inj h
      rfl
    · rw [if_neg (mt hzero.mp hne)] at h
      rw [if_neg hne]
      by_cases hfits : Fits (w.toInt + 1)
      · rw [signedResult_eq hfits] at h
        have hsum : (w + 1).toInt = w.toInt + 1 := Word.toInt_add hfits
        have hmod : ((w + 1) % 3 - 1).toInt = (w.toInt + 1).tmod 3 - 1 := by
          have hlt := Int.tmod_lt_of_pos (w.toInt + 1) (by decide : (0 : ℤ) < 3)
          have hgt := Int.lt_tmod_of_pos (w.toInt + 1) (by decide : (0 : ℤ) < 3)
          have hrem : ((w + 1) % 3).toInt = (w.toInt + 1).tmod 3 := by
            rw [Int64.toInt_mod, hsum]
            rfl
          rw [Int64.sub_eq_add_neg, Word.toInt_add, hrem]
          · rfl
          · rw [hrem, show (-1 : Int64).toInt = -1 from rfl]
            exact ⟨by omega, by omega⟩
        have hdiv : ((w + 1) / 3).toInt = (w.toInt + 1).tdiv 3 := by
          rw [Int64.toInt_div_of_ne_right _ _ (by decide), hsum]
          rfl
        simp only [Option.bind_eq_bind, Option.bind_some, ← hdiv, ← hmod] at h
        obtain ⟨q, hq, hp⟩ := Option.bind_eq_some_iff.mp h
        obtain rfl := Option.some.inj hp
        exact congrArg _ (ih hq)
      · rw [signedResult, if_neg hfits] at h
        cases h

theorem addAssign_of_checked {t : List ℤ} {w : Int64} {p : List ℤ × ℤ}
    (h : addAssignChecked t w = some p) : p.1 = addAssign t w := addInternal_of_checked h

/-! ## From zero on -/

/-- **From zero on** only the report can be wrong. -/
theorem addInternalChecked_nonneg (hts : Trits ts) (hc : IsTrit c) (hv : 0 ≤ v)
    (hmax : v < 2 ^ 63 - 1) :
    addInternalChecked false ts v c = some (wrapped ts.length (value ts + v + c)) ↔
      2 * v < 3 ^ ts.length ∨ 3 ^ ts.length ≤ 2 * |value ts + v + c| := by
  induction ts generalizing v c with
  | nil =>
    have habs : 3 ^ 0 ≤ 2 * |0 + v + c| ↔ ¬ v + c = 0 := by
      rw [← not_lt, two_mul_abs_lt]
      omega
    rw [addInternalChecked, List.length_nil, value_nil, wrapped_zero, habs, Int.zero_add]
    simp only [Option.some.injEq, Prod.mk.injEq, true_and]
    split_ifs <;> omega
  | cons t ts ih =>
    obtain ⟨ht, hts⟩ := trits_cons.mp hts
    by_cases hne : v = 0 ∧ c = 0
    · obtain ⟨rfl, rfl⟩ := hne
      have hall : Trits (t :: ts) := trits_cons.mpr ⟨ht, hts⟩
      have hpos : (0 : ℤ) < 3 ^ (t :: ts).length := by positivity
      rw [addInternalChecked, if_pos ⟨rfl, rfl⟩, Int.add_zero, Int.add_zero, wrapped,
        digits_value_length hall, if_pos (two_mul_abs_value_lt hall)]
      exact iff_of_true rfl (.inl hpos)
    -- the lowest digit of the number, and the number above it
    have hmod : (if false = true then -((v + 1).tmod 3 - 1) else (v + 1).tmod 3 - 1) = digit v := by
      rw [if_neg Bool.false_ne_true, Int.tmod_eq_emod_of_nonneg (by omega), digit]
    have hdiv : (v + 1).tdiv 3 = carry v := Int.tdiv_eq_ediv_of_nonneg (by omega)
    have hv' := digit_add_carry v
    have hd := isTrit_digit v
    have hsum : value (t :: ts) + v + c = t + digit v + c + 3 * (value ts + carry v) := by
      rw [value_cons]
      omega
    have hcarry : 0 ≤ carry v ∧ carry v < 2 ^ 63 - 1 := by
      unfold carry
      omega
    have hfits := fits_carry_iff ts.length v
    have hfits' := fits_carry_iff ts.length (t + digit v + c + 3 * (value ts + carry v))
    rw [abs_of_nonneg hv, abs_of_nonneg hcarry.1] at hfits
    rw [List.length_cons, addInternalChecked_cons_iff hne ⟨by omega, by omega⟩ hmod, hdiv,
      tritFullAdd_eq ht hd hc, hsum, ← not_lt, hfits, hfits', not_lt, digit_add_mul, carry_add_mul,
      Int.add_comm (carry (t + digit v + c)), ih hts (isTrit_carry ht hd hc) hcarry.1 hcarry.2]
    exact and_iff_right rfl

/-- A number that fits the trits is added to them. -/
theorem addAssign_of_fits {t : List ℤ} (ht : Trits t) {w : Int64} (hw : 0 ≤ w.toInt)
    (hmax : w.toInt < 2 ^ 63 - 1) (hfits : 2 * w.toInt < 3 ^ t.length) :
    addAssign t w = digits t.length (value t + w.toInt) := by
  have hadds := (addInternalChecked_nonneg ht isTrit_zero hw hmax).mpr (.inl hfits)
  have hsign : decide (w < 0) = false :=
    decide_eq_false (Int64.not_lt.mpr (Int64.le_iff_toInt_le.mpr hw))
  rw [Int.add_zero, ← hsign] at hadds
  exact (addAssign_of_checked hadds).symm

/-! ## Below zero -/

/-- A number below zero by the digits 1, 2 and 3 that are taken away. -/
theorem exists_digit (hv : v < 0) :
    ∃ d w, (d = 1 ∨ d = 2 ∨ d = 3) ∧ w ≤ 0 ∧ v = 3 * w - d ∧ -((v + 1).tmod 3 - 1) = d ∧
      (v + 1).tdiv 3 = w := by
  obtain ⟨m, hm⟩ : ∃ m : ℤ, m = -(v + 1) := ⟨_, rfl⟩
  have hneg : v + 1 = -m := by omega
  rw [hneg, Int.neg_tmod, Int.neg_tdiv, Int.tmod_eq_emod_of_nonneg (by omega),
    Int.tdiv_eq_ediv_of_nonneg (by omega)]
  exact ⟨m % 3 + 1, -(m / 3), by omega, by omega, by omega, by omega, rfl⟩

/-- A digit that is added where it is to be taken away, and one more: right for the digit 1 only. -/
theorem tritFullAdd_neg_iff {d : ℤ} (ht : IsTrit t) (hc : c = 0 ∨ c = 1)
    (hd : d = 1 ∨ d = 2 ∨ d = 3) : (tritFullAdd t d c).1 = digit (t - d - 1 + c) ↔ d = 1 := by
  rcases ht with rfl | rfl | rfl <;> rcases hc with rfl | rfl <;> rcases hd with rfl | rfl | rfl <;>
    decide

/-- **Behind the first trit**, which left one to be taken away: right where all digits are 1 and the
number does not end within the trits. -/
theorem addInternalChecked_neg (hts : Trits ts) (hc : c = 0 ∨ c = 1) (hv : v ≤ 0)
    (hmin : -2 ^ 63 ≤ v) :
    addInternalChecked true ts v c = some (wrapped ts.length (value ts + v - 1 + c)) ↔
      ∃ u ≤ -1, 2 * v + 3 ^ ts.length - 1 = 2 * 3 ^ ts.length * u := by
  induction ts generalizing v c with
  | nil =>
    have hend : (∃ u ≤ -1, 2 * v + 3 ^ 0 - 1 = 2 * 3 ^ 0 * u) ↔ v ≤ -1 :=
      ⟨fun ⟨u, hu, h⟩ => by omega, fun h => ⟨v, h, by omega⟩⟩
    rw [List.length_nil, hend, addInternalChecked, value_nil, wrapped_zero]
    clear hend
    simp only [Option.some.injEq, Prod.mk.injEq, true_and]
    split_ifs <;> omega
  | cons t ts ih =>
    obtain ⟨ht, hts⟩ := trits_cons.mp hts
    have hpow : (3 : ℤ) ^ (t :: ts).length = 3 * 3 ^ ts.length := by
      rw [List.length_cons, pow_succ, Int.mul_comm]
    have hpos : (0 : ℤ) < 3 ^ ts.length := by positivity
    -- the numbers on the right are below zero
    have hfail : v = 0 → ¬ ∃ u ≤ -1, 2 * v + 3 ^ (t :: ts).length - 1 =
        2 * 3 ^ (t :: ts).length * u := by
      rintro rfl ⟨u, hu, h⟩
      have hprod := Int.mul_le_mul_of_nonneg_left hu hpos.le
      rw [hpow, Int.mul_assoc, Int.mul_assoc] at h
      omega
    have htrit := ht
    unfold IsTrit at htrit
    by_cases hne : v = 0 ∧ c = 0
    · refine iff_of_false ?_ (hfail hne.1)
      rw [addInternalChecked, if_pos hne, hne.1, hne.2, List.length_cons, wrapped_succ]
      intro h
      have hhead := congrArg (fun p => p.map fun q : List ℤ × ℤ => q.1.head?) h
      simp only [Option.map_some, List.head?_cons, Option.some.injEq, value_cons, digit] at hhead
      omega
    rcases hv.eq_or_lt with rfl | hlt
    · refine iff_of_false ?_ (hfail rfl)
      obtain rfl : c = 1 := by omega
      rw [List.length_cons, addInternalChecked_cons_iff hne ⟨by omega, by omega⟩ rfl]
      rintro ⟨hhead, -⟩
      rw [show (if true = true then -(((0 : ℤ) + 1).tmod 3 - 1) else ((0 : ℤ) + 1).tmod 3 - 1) = 0
        from rfl, tritFullAdd_eq ht isTrit_zero (.inr (.inr rfl)), value_cons] at hhead
      unfold digit at hhead
      omega
    obtain ⟨d, w, hd, hw, rfl, hmod, hdiv⟩ := exists_digit hlt
    have hsum : value (t :: ts) + (3 * w - d) - 1 + c = t - d - 1 + c + 3 * (value ts + w) := by
      rw [value_cons]
      omega
    rw [List.length_cons, addInternalChecked_cons_iff hne ⟨by omega, by omega⟩
      ((if_pos rfl).trans hmod), hdiv, hsum, digit_add_mul, carry_add_mul,
      tritFullAdd_neg_iff ht hc hd, ← List.length_cons (a := t), hpow]
    by_cases h1 : d = 1
    · subst h1
      have hcarry : carry (t + 1 + c) = 0 ∨ carry (t + 1 + c) = 1 := by
        unfold carry
        omega
      have hrest : carry (t - 1 - 1 + c) + (value ts + w) =
          value ts + w - 1 + carry (t + 1 + c) := by
        unfold carry
        omega
      rw [tritFullAdd_eq ht (.inr (.inr rfl)) (by unfold IsTrit; omega), hrest,
        ih hts hcarry hw (by omega), and_iff_right rfl]
      refine exists_congr fun u => and_congr_right fun _ => ?_
      rw [Int.mul_assoc, Int.mul_assoc, Int.mul_assoc]
      omega
    · refine iff_of_false (fun h => h1 h.1) ?_
      rintro ⟨u, -, h⟩
      rw [Int.mul_assoc, Int.mul_assoc] at h
      omega

/-! ## All numbers -/

/-- **Where `add_assign` adds**, whatever the trits and the number. -/
theorem adds_iff {t : List ℤ} (ht : Trits t) (v : Int64) : Adds t v ↔ Addable t v := by
  have hmin := v.le_toInt
  have hmax := v.toInt_lt
  have hnegative : decide (v < 0) = decide (v.toInt < 0) :=
    decide_eq_decide.mpr Int64.lt_iff_toInt_lt
  unfold Adds Addable addAssignChecked
  rw [hnegative]
  rcases t with _ | ⟨t, ts⟩
  · rw [addInternalChecked, List.length_nil, wrapped_zero, value_nil, Int.zero_add]
    simp
  rcases Int.lt_or_le v.toInt 0 with hv | hv
  · -- the first digit is added to nothing: it has to be 3, and the trit -1
    obtain ⟨ht, hts⟩ := trits_cons.mp ht
    obtain ⟨d, w, hd, hw, hval, hmod, hdiv⟩ := exists_digit hv
    have hhead : (tritFullAdd t d 0).1 = digit (t - d) ↔ t = -1 ∧ d = 3 := by
      rcases ht with rfl | rfl | rfl <;> rcases hd with rfl | rfl | rfl <;> decide
    have hsum : value (t :: ts) + v.toInt = t - d + 3 * (value ts + w) := by
      rw [value_cons]
      omega
    rw [decide_eq_true hv, List.length_cons,
      addInternalChecked_cons_iff (by omega) ⟨by omega, by omega⟩ ((if_pos rfl).trans hmod), hdiv,
      hsum, digit_add_mul, carry_add_mul, hhead]
    have hpow : (3 : ℤ) ^ (ts.length + 1) = 3 * 3 ^ ts.length := by rw [pow_succ, Int.mul_comm]
    by_cases h3 : t = -1 ∧ d = 3
    · obtain ⟨rfl, rfl⟩ := h3
      have hrest : carry (-1 - 3) + (value ts + w) = value ts + w - 1 + 0 := by
        unfold carry
        omega
      rw [show (tritFullAdd (-1) 3 0).2 = 0 from rfl, hrest,
        addInternalChecked_neg hts (.inl rfl) hw (by omega), and_iff_right ⟨rfl, rfl⟩, hpow]
      have hsame : (∃ u ≤ -1, 2 * w + 3 ^ ts.length - 1 = 2 * 3 ^ ts.length * u) ↔
          ∃ u ≤ -1, 2 * v.toInt + 3 * 3 ^ ts.length + 3 = 2 * (3 * 3 ^ ts.length) * u := by
        refine exists_congr fun u => and_congr_right fun _ => ?_
        rw [Int.mul_assoc, Int.mul_assoc, Int.mul_assoc]
        omega
      rw [hsame]
      exact ⟨fun h => .inr (.inr ⟨hv, rfl, h⟩), fun h => by
        rcases h with h | h | h
        · cases h
        · omega
        · exact h.2.2⟩
    · refine iff_of_false (fun h => h3 h.1) ?_
      rintro (h | h | ⟨-, hneg, u, -, h⟩)
      · cases h
      · omega
      · refine h3 ⟨Option.some.inj hneg, ?_⟩
        rw [hpow, Int.mul_assoc, Int.mul_assoc] at h
        omega
  · rw [decide_eq_false (Int.not_lt.mpr hv)]
    rcases Int.lt_or_le v.toInt (2 ^ 63 - 1) with hlt | hle
    · have hiff := addInternalChecked_nonneg ht isTrit_zero hv hlt
      rw [Int.add_zero] at hiff
      rw [hiff]
      exact ⟨fun h => .inr (.inl ⟨hv, hlt, h⟩), fun h => by
        rcases h with h | h | h
        · cases h
        · exact h.2.2
        · omega⟩
    · -- `v + 1` is undefined
      have hsum : ¬ Fits (v.toInt + 1) := fun h => absurd h.2 (by omega)
      refine iff_of_false ?_ ?_
      · rw [addInternalChecked, if_neg (by omega), signedResult, if_neg hsum]
        intro h
        cases h
      · rintro (h | h | h)
        · cases h
        · omega
        · omega

/-- One is added to the trits of the counter, as the repository's test does. -/
theorem adds_one : addAssignChecked [-1, 0, 0] 1 = some (wrapped 3 (value [-1, 0, 0] + 1)) :=
  (adds_iff (by decide) 1).mpr (.inr (.inl ⟨by decide, by decide, .inl (by decide)⟩))

/-- Minus one is added as one; and a sum that fits is reported as one that does not. -/
theorem not_adds : ¬ Adds [0, 0, 0] (-1) ∧ addAssignChecked [0, 0, 0] (-1) = some ([1, 0, 0], 0) ∧
    ¬ Adds [-1] 2 ∧ addAssignChecked [-1] 2 = some ([1], 1) := by
  unfold Adds
  decide

end Trinary

end Entangled
