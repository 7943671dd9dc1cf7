import Mathlib.Algebra.Order.Group.Int
import Mathlib.Algebra.Order.Ring.Int
import Mathlib.Data.List.Basic
import Mathlib.Tactic.Linarith
import Mathlib.Tactic.Ring
/-!
# Balanced ternary

Numbers written with the digits `-1`, `0` and `1`, least significant first.
`value` reads a list of trits, `digits n` writes `n` of them; each inverts the
other on the numbers `n` trits can hold (`digits_value`, `value_digits`), so a
number has one spelling in `n` trits.
-/

namespace Entangled

namespace Ternary

/-- A balanced digit. -/
def IsTrit (t : ℤ) : Prop := t = -1 ∨ t = 0 ∨ t = 1

instance (t : ℤ) : Decidable (IsTrit t) := inferInstanceAs (Decidable (_ ∨ _))

theorem isTrit_zero : IsTrit 0 := .inr (.inl rfl)

theorem isTrit_neg {t : ℤ} (h : IsTrit t) : IsTrit (-t) := by
  unfold IsTrit at *
  omega

/-- A list of balanced digits. -/
def Trits (ts : List ℤ) : Prop := ∀ t ∈ ts, IsTrit t

instance (ts : List ℤ) : Decidable (Trits ts) := inferInstanceAs (Decidable (∀ t ∈ ts, IsTrit t))

@[simp] theorem trits_nil : Trits [] := by simp [Trits]

@[simp] theorem trits_cons {t : ℤ} {ts : List ℤ} : Trits (t :: ts) ↔ IsTrit t ∧ Trits ts := by
  simp [Trits]

@[simp] theorem trits_append {ts us : List ℤ} : Trits (ts ++ us) ↔ Trits ts ∧ Trits us := by
  simp only [Trits, List.mem_append, or_imp, forall_and]

theorem trits_replicate (n : ℕ) : Trits (List.replicate n 0) := by
  intro t ht
  rw [List.eq_of_mem_replicate ht]
  exact isTrit_zero

theorem Trits.take {ts : List ℤ} (h : Trits ts) (n : ℕ) : Trits (ts.take n) :=
  fun t ht => h t (List.mem_of_mem_take ht)

theorem Trits.drop {ts : List ℤ} (h : Trits ts) (n : ℕ) : Trits (ts.drop n) :=
  fun t ht => h t (List.mem_of_mem_drop ht)

theorem Trits.set {ts : List ℤ} (h : Trits ts) {t : ℤ} (ht : IsTrit t) (i : ℕ) :
    Trits (ts.set i t) := by
  intro u hu
  rcases List.mem_or_eq_of_mem_set hu with hu | rfl
  · exact h u hu
  · exact ht

theorem Trits.getD {ts : List ℤ} (h : Trits ts) (i : ℕ) : IsTrit (ts.getD i 0) := by
  rw [List.getD_eq_getElem?_getD]
  rcases hi : ts[i]? with _ | t
  · exact isTrit_zero
  · exact h t (List.mem_of_getElem? hi)

/-! ## Reading and writing a number -/

/-- The number a list of trits denotes. -/
def value : List ℤ → ℤ
  | [] => 0
  | t :: ts => t + 3 * value ts

@[simp] theorem value_nil : value [] = 0 := rfl

@[simp] theorem value_cons (t : ℤ) (ts : List ℤ) : value (t :: ts) = t + 3 * value ts := rfl

@[simp] theorem value_replicate_zero (n : ℕ) : value (List.replicate n 0) = 0 := by
  induction n with
  | zero => rfl
  | succ n ih => rw [List.replicate_succ, value_cons, ih]; rfl

theorem value_append (ts us : List ℤ) :
    value (ts ++ us) = value ts + 3 ^ ts.length * value us := by
  induction ts with
  | nil => simp
  | cons t ts ih =>
    rw [List.cons_append, value_cons, ih, value_cons, List.length_cons, pow_succ]
    ring

/-- The lowest trit of a number. -/
def digit (v : ℤ) : ℤ := (v + 1) % 3 - 1

/-- What is left above the lowest trit. -/
def carry (v : ℤ) : ℤ := (v + 1) / 3

theorem isTrit_digit (v : ℤ) : IsTrit (digit v) := by
  unfold IsTrit digit
  omega

theorem digit_add_carry (v : ℤ) : digit v + 3 * carry v = v := by
  unfold digit carry
  omega

theorem digit_add {t : ℤ} (ht : IsTrit t) (v : ℤ) : digit (t + 3 * v) = t := by
  unfold IsTrit at ht
  unfold digit
  omega

theorem carry_add {t : ℤ} (ht : IsTrit t) (v : ℤ) : carry (t + 3 * v) = v := by
  unfold IsTrit at ht
  unfold carry
  omega

/-- The lowest `n` trits of a number. -/
def digits : ℕ → ℤ → List ℤ
  | 0, _ => []
  | n + 1, v => digit v :: digits n (carry v)

@[simp] theorem length_digits (n : ℕ) (v : ℤ) : (digits n v).length = n := by
  induction n generalizing v with
  | zero => rfl
  | succ n ih => rw [digits, List.length_cons, ih]

theorem trits_digits (n : ℕ) (v : ℤ) : Trits (digits n v) := by
  induction n generalizing v with
  | zero => exact trits_nil
  | succ n ih => exact trits_cons.mpr ⟨isTrit_digit v, ih _⟩

@[simp] theorem digits_zero (n : ℕ) : digits n 0 = List.replicate n 0 := by
  induction n with
  | zero => rfl
  | succ n ih =>
    have hd : digit 0 = 0 := by decide
    have hc : carry 0 = 0 := by decide
    rw [digits, hd, hc, ih, List.replicate_succ]

/-- **A list of trits is written as it was read**, with zeros above it. -/
theorem digits_value {ts : List ℤ} (h : Trits ts) {n : ℕ} (hn : ts.length ≤ n) :
    digits n (value ts) = ts ++ List.replicate (n - ts.length) 0 := by
  induction ts generalizing n with
  | nil => simp
  | cons t ts ih =>
    obtain ⟨ht, hts⟩ := trits_cons.mp h
    rw [List.length_cons] at hn
    obtain ⟨m, rfl⟩ : ∃ m, n = m + 1 := ⟨n - 1, by omega⟩
    have hm : m + 1 - (t :: ts).length = m - ts.length := by
      rw [List.length_cons]
      omega
    rw [value_cons, digits, digit_add ht, carry_add ht, ih hts (by omega), hm, List.cons_append]

theorem digits_value_length {ts : List ℤ} (h : Trits ts) : digits ts.length (value ts) = ts := by
  rw [digits_value h le_rfl]
  simp

theorem two_mul_abs_lt {v m : ℤ} : 2 * |v| < m ↔ -m < 2 * v ∧ 2 * v < m := by
  rcases abs_cases v with ⟨h, hv⟩ | ⟨h, hv⟩ <;> omega

/-- `n` trits reach from `-(3 ^ n - 1) / 2` to `(3 ^ n - 1) / 2`. -/
theorem two_mul_abs_value_lt {ts : List ℤ} (h : Trits ts) : 2 * |value ts| < 3 ^ ts.length := by
  induction ts with
  | nil => decide
  | cons t ts ih =>
    obtain ⟨ht, hts⟩ := trits_cons.mp h
    have hi := two_mul_abs_lt.mp (ih hts)
    unfold IsTrit at ht
    rw [two_mul_abs_lt, value_cons, List.length_cons, pow_succ]
    omega

theorem three_pow_odd (n : ℕ) : (3 ^ n : ℤ) % 2 = 1 := by
  induction n with
  | zero => rfl
  | succ n ih => rw [pow_succ]; omega

/-- The carry is in reach of one trit less, as `3 ^ n` is odd. -/
theorem two_mul_abs_carry_lt {n : ℕ} {v : ℤ} (h : 2 * |v| < 3 ^ (n + 1)) :
    2 * |carry v| < 3 ^ n := by
  have hdc := digit_add_carry v
  have ht := isTrit_digit v
  have hodd := three_pow_odd n
  unfold IsTrit at ht
  rw [two_mul_abs_lt, pow_succ] at h
  rw [two_mul_abs_lt]
  omega

/-- **A number in reach of `n` trits is read as it was written.** -/
theorem value_digits {n : ℕ} {v : ℤ} (h : 2 * |v| < 3 ^ n) : value (digits n v) = v := by
  induction n generalizing v with
  | zero =>
    have hv := two_mul_abs_lt.mp h
    rw [digits, value_nil]
    omega
  | succ n ih => rw [digits, value_cons, ih (two_mul_abs_carry_lt h), digit_add_carry]

/-- **A number in two parts**, the low one in reach of its trits. -/
theorem digits_append {m : ℕ} {a : ℤ} (h : 2 * |a| < 3 ^ m) (n : ℕ) (b : ℤ) :
    digits (m + n) (a + 3 ^ m * b) = digits m a ++ digits n b := by
  induction m generalizing a with
  | zero =>
    have ha := two_mul_abs_lt.mp h
    obtain rfl : a = 0 := by omega
    simp [digits]
  | succ m ih =>
    have hsum : a + 3 ^ (m + 1) * b = digit a + 3 * (carry a + 3 ^ m * b) := by
      rw [mul_add, ← add_assoc, digit_add_carry, pow_succ]
      ring
    rw [Nat.add_right_comm, digits, hsum, digit_add (isTrit_digit a), carry_add (isTrit_digit a),
      ih (two_mul_abs_carry_lt h), digits, List.cons_append]

/-- A number has one spelling in `n` trits. -/
theorem value_injective {ts us : List ℤ} (ht : Trits ts) (hu : Trits us)
    (hl : ts.length = us.length) (h : value ts = value us) : ts = us := by
  rw [← digits_value_length ht, ← digits_value_length hu, hl, h]

/-- The opposite number, trit by trit. -/
theorem value_map_neg (ts : List ℤ) : value (ts.map Neg.neg) = -value ts := by
  induction ts with
  | nil => rfl
  | cons t ts ih =>
    rw [List.map_cons, value_cons, value_cons, ih]
    ring

theorem trits_map_neg {ts : List ℤ} (h : Trits ts) : Trits (ts.map Neg.neg) := by
  intro t ht
  obtain ⟨u, hu, rfl⟩ := List.mem_map.mp ht
  exact isTrit_neg (h u hu)

/-- The trits below `3 ^ n` do not see the multiples of `3 ^ n`. -/
theorem digits_add_mul (n : ℕ) (v k : ℤ) : digits n (v + 3 ^ n * k) = digits n v := by
  induction n generalizing v k with
  | zero => rfl
  | succ n ih =>
    have he : v + 3 ^ (n + 1) * k = digit v + 3 * (carry v + 3 ^ n * k) := by
      have := digit_add_carry v
      rw [pow_succ]
      linarith
    rw [digits, digits, he, digit_add (isTrit_digit v), carry_add (isTrit_digit v), ih]

/-- The lowest trits of a number leave out a multiple of `3 ^ n`. -/
theorem exists_value_digits_add (n : ℕ) (v : ℤ) : ∃ k, value (digits n v) + 3 ^ n * k = v := by
  induction n generalizing v with
  | zero => exact ⟨v, by rw [digits, value_nil]; omega⟩
  | succ n ih =>
    obtain ⟨k, hk⟩ := ih (carry v)
    have hv := digit_add_carry v
    refine ⟨k, ?_⟩
    rw [digits, value_cons, pow_succ]
    linarith

/-! ## Short lists -/

/-- The lists of at most `n` trits, for a check case by case. -/
def short : ℕ → List (List ℤ)
  | 0 => [[]]
  | n + 1 => [] :: (short n).flatMap fun ts => [-1 :: ts, 0 :: ts, 1 :: ts]

theorem mem_short {ts : List ℤ} (h : Trits ts) {n : ℕ} (hn : ts.length ≤ n) : ts ∈ short n := by
  induction n generalizing ts with
  | zero => rw [List.length_eq_zero_iff.mp (Nat.le_zero.mp hn)]; exact List.mem_singleton_self _
  | succ n ih =>
    rcases ts with _ | ⟨t, ts⟩
    · exact List.mem_cons_self
    · obtain ⟨ht, hts⟩ := trits_cons.mp h
      have hmem := ih hts (by simpa using hn)
      refine List.mem_cons_of_mem _ (List.mem_flatMap.mpr ⟨ts, hmem, ?_⟩)
      rcases ht with rfl | rfl | rfl <;> simp

end Ternary

end Entangled
