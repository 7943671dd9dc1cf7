import Entangled.Common.Tokens
import Mathlib.Data.Nat.Digits.Lemmas
import Mathlib.Tactic.IntervalCases
/-!
# Decimal numbers in text

A text is a list of characters. `decimal` prints a number as `printf` does,
with no zero in front, and `scan` reads one as `scanf` does: blanks are skipped,
one sign may come first, and as many digits are taken as there are.
-/

namespace Entangled

namespace Decimal

variable {cs ds rest : List Int8} {c : Int8} {d k n : ℕ}

/-- `isdigit`. -/
def isDigit (c : Int8) : Bool := decide (48 ≤ c.toInt ∧ c.toInt ≤ 57)

/-- `isspace`. -/
def isSpace (c : Int8) : Bool := decide (c.toInt = 32 ∨ 9 ≤ c.toInt ∧ c.toInt ≤ 13)

def digit (d : ℕ) : Int8 := Int8.ofNat (48 + d)

def digitValue (c : Int8) : ℕ := (c.toInt - 48).toNat

/-- The number that digits spell. -/
def number (cs : List Int8) : ℕ := Nat.ofDigits 10 (cs.reverse.map digitValue)

/-- A number printed. -/
def decimal (n : ℕ) : List Int8 := if n = 0 then [48] else (Nat.digits 10 n).reverse.map digit

/-- A number scanned, and what is behind it. -/
structure Scanned where
  negative : Bool
  magnitude : ℕ
  rest : List Int8
  deriving DecidableEq

/-- The number with its sign. -/
def Scanned.value (s : Scanned) : ℤ := if s.negative then -s.magnitude else s.magnitude

/-- Take a sign. -/
def sign : List Int8 → Bool × List Int8
  | [] => (false, [])
  | c :: cs => if c = 45 then (true, cs) else if c = 43 then (false, cs) else (false, c :: cs)

/-- Scan a number. -/
def scan (cs : List Int8) : Option Scanned :=
  let s := sign (cs.dropWhile isSpace)
  if s.2.takeWhile isDigit = [] then none
  else some ⟨s.1, number (s.2.takeWhile isDigit), s.2.dropWhile isDigit⟩

/-! ## Digits -/

theorem digit_spec (h : d < 10) :
    isDigit (digit d) = true ∧ isSpace (digit d) = false ∧ digitValue (digit d) = d ∧
      digit d ≠ 45 ∧ digit d ≠ 43 := by
  interval_cases d <;> decide

theorem digitValue_lt (h : isDigit c = true) : digitValue c < 10 := by
  have hc := of_decide_eq_true h
  unfold digitValue
  omega

/-- Digits spell a number of so many places. -/
theorem number_lt (h : ∀ c ∈ cs, isDigit c = true) : number cs < 10 ^ cs.length := by
  have hlt := Nat.ofDigits_lt_base_pow_length (b := 10) (l := cs.reverse.map digitValue)
    (by decide) (by
      intro x hx
      obtain ⟨c, hc, rfl⟩ := List.mem_map.mp hx
      exact digitValue_lt (h c (List.mem_reverse.mp hc)))
  rwa [List.length_map, List.length_reverse] at hlt

/-! ## Printing -/

/-- A number is printed in digits. -/
theorem exists_digit (hc : c ∈ decimal n) : ∃ d < 10, c = digit d := by
  unfold decimal at hc
  split at hc
  · exact ⟨0, by decide, List.mem_singleton.mp hc⟩
  · obtain ⟨d, hd, rfl⟩ := List.mem_map.mp hc
    exact ⟨d, Nat.digits_lt_base (by decide) (List.mem_reverse.mp hd), rfl⟩

theorem isDigit_of_mem (hc : c ∈ decimal n) : isDigit c = true := by
  obtain ⟨d, hd, rfl⟩ := exists_digit hc
  exact (digit_spec hd).1

theorem decimal_ne_nil (n : ℕ) : decimal n ≠ [] := by
  unfold decimal
  split
  · simp
  · simpa [Nat.digits_ne_nil_iff_ne_zero]

/-- **A number printed spells itself.** -/
theorem number_decimal (n : ℕ) : number (decimal n) = n := by
  unfold number decimal
  split
  · next h => simpa [h] using (show Nat.ofDigits 10 [digitValue 48] = 0 by decide)
  · rw [← List.map_reverse, List.reverse_reverse, List.map_map, List.map_congr_left (g := id),
      List.map_id, Nat.ofDigits_digits]
    intro d hd
    exact (digit_spec (Nat.digits_lt_base (by decide) hd)).2.2.1

/-- How wide a number is printed. -/
theorem length_decimal_le_iff (hk : k ≠ 0) : (decimal n).length ≤ k ↔ n < 10 ^ k := by
  unfold decimal
  split
  · next h =>
    have hpos : 0 < 10 ^ k := Nat.pow_pos (by decide)
    simp only [List.length_singleton, h]
    omega
  · rw [List.length_map, List.length_reverse]
    exact Nat.digits_length_le_iff (by decide) n

theorem length_decimal_pos (n : ℕ) : 0 < (decimal n).length :=
  List.length_pos_of_ne_nil (decimal_ne_nil n)

/-- No shorter digits spell the number. -/
theorem length_decimal_number (h : ∀ c ∈ cs, isDigit c = true) (h0 : cs ≠ []) :
    (decimal (number cs)).length ≤ cs.length :=
  (length_decimal_le_iff (by simpa using h0)).mpr (number_lt h)

/-! ## Scanning -/

/-- Digits are scanned, with anything behind them that is no digit. -/
theorem scan_digits (hcs : ∀ c ∈ cs, isDigit c = true) (h0 : cs ≠ [])
    (hrest : ∀ c ∈ rest.head?, isDigit c = false) :
    scan (cs ++ rest) = some ⟨false, number cs, rest⟩ := by
  obtain ⟨htake, hdrop⟩ := Tokens.span_of_boundary cs rest hcs hrest
  obtain ⟨c, ds, rfl⟩ := List.exists_cons_of_ne_nil h0
  have hdigit := of_decide_eq_true (hcs c List.mem_cons_self)
  have hspace : isSpace c = false := decide_eq_false (by omega)
  have hsign : ∀ k : Int8, k.toInt < 48 → c ≠ k := by
    rintro k hk rfl
    omega
  -- neither a blank nor a sign is taken off
  have hfront : (c :: ds ++ rest).dropWhile isSpace = c :: ds ++ rest := by
    rw [List.cons_append, List.dropWhile_cons_of_neg (by simp [hspace])]
  have hnone : sign (c :: ds ++ rest) = (false, c :: ds ++ rest) := by
    rw [List.cons_append, sign, if_neg (hsign 45 (by decide)), if_neg (hsign 43 (by decide))]
  simp only [scan, hfront, hnone, htake, hdrop, if_neg h0]

/-- **What is printed is scanned again**, with anything behind it that is no digit. -/
theorem scan_decimal (n : ℕ) (rest : List Int8) (hrest : ∀ c ∈ rest.head?, isDigit c = false) :
    scan (decimal n ++ rest) = some ⟨false, n, rest⟩ := by
  rw [scan_digits (fun c => isDigit_of_mem) (decimal_ne_nil n) hrest, number_decimal]

/-- The first digits of a number spell the number without its last places. -/
theorem number_prefix (h : cs <+: decimal n) : ∃ k, number cs = n / 10 ^ k := by
  obtain ⟨ds, hds⟩ := h
  have hlt : ∀ x ∈ (decimal n).reverse.map digitValue, x < 10 := by
    intro x hx
    obtain ⟨c, hc, rfl⟩ := List.mem_map.mp hx
    exact digitValue_lt (isDigit_of_mem (List.mem_reverse.mp hc))
  have hdrop := Nat.ofDigits_div_pow_eq_ofDigits_drop (p := 10) ds.length (by decide) _ hlt
  refine ⟨ds.length, ?_⟩
  rw [show Nat.ofDigits 10 ((decimal n).reverse.map digitValue) = n from number_decimal n] at hdrop
  rw [hdrop, ← hds, List.reverse_append, List.map_append, List.drop_left', number]
  rw [List.length_map, List.length_reverse]

theorem length_sign_le (cs : List Int8) : (sign cs).2.length ≤ cs.length := by
  cases cs with
  | nil => rfl
  | cons c cs =>
    rw [sign]
    split_ifs <;> simp

/-- What is scanned takes at least the room it is printed in. -/
theorem length_of_scan {s : Scanned} (h : scan cs = some s) :
    (decimal s.magnitude).length + s.rest.length ≤ cs.length := by
  unfold scan at h
  dsimp only at h
  split at h
  · contradiction
  · next h0 =>
    obtain rfl := Option.some.inj h
    have hdigits := length_decimal_number
      (fun c hc => (List.mem_takeWhile_imp hc)) h0
    have hsplit := congrArg List.length (List.takeWhile_append_dropWhile
      (p := isDigit) (l := (sign (cs.dropWhile isSpace)).2))
    have hsign := length_sign_le (cs.dropWhile isSpace)
    have hspace := (List.dropWhile_sublist isSpace (l := cs)).length_le
    rw [List.length_append] at hsplit
    dsimp only
    omega

end Decimal

end Entangled
