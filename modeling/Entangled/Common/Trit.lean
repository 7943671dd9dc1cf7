import Entangled.Common.Ternary
/-!
# Trits as a type

A balanced digit that can be nothing else. Sums are taken digit by digit without a carry; a sum
undoes the difference with the same summand. A list of trits is read and written as a number the
way `Ternary` reads and writes a list of integers.
-/

namespace Entangled

open Ternary

/-- A balanced digit. -/
inductive Trit
  | neg
  | zero
  | pos
  deriving DecidableEq, Repr

instance lawfulBEq_trits : LawfulBEq (List Trit) := inferInstance

namespace Trit

/-- The number of a trit. -/
def toInt : Trit → ℤ
  | neg => -1
  | zero => 0
  | pos => 1

/-- The trit of a number. -/
def ofInt (t : ℤ) : Trit := if t = 1 then pos else if t = -1 then neg else zero

@[simp] theorem ofInt_toInt (t : Trit) : ofInt t.toInt = t := by
  cases t <;> rfl

theorem toInt_ofInt {t : ℤ} (ht : IsTrit t) : (ofInt t).toInt = t := by
  rcases ht with rfl | rfl | rfl <;> rfl

theorem isTrit_toInt (t : Trit) : IsTrit t.toInt := by
  cases t <;> decide

/-- The sum, less its carry. -/
def add : Trit → Trit → Trit
  | zero, s => s
  | t, zero => t
  | pos, pos => neg
  | neg, neg => pos
  | _, _ => zero

/-- The difference, less its carry. -/
def sub : Trit → Trit → Trit
  | t, zero => t
  | zero, pos => neg
  | zero, neg => pos
  | pos, neg => neg
  | neg, pos => pos
  | _, _ => zero

@[simp] theorem sub_add (t s : Trit) : sub (add t s) s = t := by
  cases t <;> cases s <;> rfl

/-! ## Lists of trits -/

/-- A list of trits as integers. -/
def toInts (ts : List Trit) : List ℤ := ts.map toInt

/-- A list of integers as trits. -/
def ofInts (ts : List ℤ) : List Trit := ts.map ofInt

@[simp] theorem length_toInts (ts : List Trit) : (toInts ts).length = ts.length := List.length_map _

@[simp] theorem length_ofInts (ts : List ℤ) : (ofInts ts).length = ts.length := List.length_map _

theorem trits_toInts (ts : List Trit) : Trits (toInts ts) := by
  intro t ht
  obtain ⟨u, -, rfl⟩ := List.mem_map.mp ht
  exact isTrit_toInt u

@[simp] theorem ofInts_toInts (ts : List Trit) : ofInts (toInts ts) = ts := by
  rw [ofInts, toInts, List.map_map]
  exact (List.map_congr_left fun t _ => ofInt_toInt t).trans ts.map_id

theorem toInts_ofInts {ts : List ℤ} (hts : Trits ts) : toInts (ofInts ts) = ts := by
  rw [ofInts, toInts, List.map_map]
  exact (List.map_congr_left fun t ht => toInt_ofInt (hts t ht)).trans ts.map_id

/-- The number a list of trits denotes. -/
def value (ts : List Trit) : ℤ := Ternary.value (toInts ts)

/-- A number written in `n` trits. -/
def spell (n : ℕ) (v : ℤ) : List Trit := ofInts (digits n v)

@[simp] theorem length_spell (n : ℕ) (v : ℤ) : (spell n v).length = n := by
  rw [spell, length_ofInts, length_digits]

theorem spell_zero (n : ℕ) : spell n 0 = List.replicate n zero := by
  rw [spell, digits_zero, ofInts, List.map_replicate]
  rfl

/-- A number in reach of `n` trits is read as it was written. -/
theorem value_spell {n : ℕ} {v : ℤ} (hv : 2 * |v| < 3 ^ n) : value (spell n v) = v := by
  rw [value, spell, toInts_ofInts (trits_digits n v), value_digits hv]

/-- A number in two parts, the low one in reach of its trits. -/
theorem spell_append {m : ℕ} {a : ℤ} (ha : 2 * |a| < 3 ^ m) (n : ℕ) (b : ℤ) :
    spell (m + n) (a + 3 ^ m * b) = spell m a ++ spell n b := by
  rw [spell, digits_append ha, ofInts, List.map_append]
  rfl

theorem two_mul_abs_value_lt (ts : List Trit) : 2 * |value ts| < 3 ^ ts.length := by
  rw [← length_toInts]
  exact Ternary.two_mul_abs_value_lt (trits_toInts ts)

theorem value_append (ts us : List Trit) :
    value (ts ++ us) = value ts + 3 ^ ts.length * value us := by
  rw [value, toInts, List.map_append, Ternary.value_append, List.length_map]
  rfl

theorem value_take_drop {ts : List Trit} {m : ℕ} (hm : m ≤ ts.length) :
    value ts = value (ts.take m) + 3 ^ m * value (ts.drop m) := by
  have hl : (ts.take m).length = m := by
    rw [List.length_take]
    omega
  conv_lhs => rw [← List.take_append_drop m ts, value_append, hl]

end Trit

end Entangled
