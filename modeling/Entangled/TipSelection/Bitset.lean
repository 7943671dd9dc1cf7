import Mathlib.Algebra.Group.Nat.Defs
import Mathlib.Data.List.Basic
import Mathlib.Data.Nat.Notation
/-!
# Bitsets

`utils/containers/bitset.c`. The words have 64 bits, but a position is divided by the bits of the
*structure*, which are 192; the shift is by the remainder when a bit is read, and by the whole
position when it is set. C says nothing about a shift by 64 or more, so what one gives is a
parameter, and so is whether it gives anything.

Below 64 the two agree, and the bitset is a set of positions (`Marks`).
-/

namespace Entangled

/-- The words of `bitset_t`. -/
structure Bitset where
  rawBits : List (BitVec 64)
  deriving DecidableEq, Repr

namespace Bitset

/-- `sizeof(bitset_t) * 8`, for a pointer, two 32-bit indices and a size. -/
def structBits : ℕ := 24 * 8

/-- `bistset_required_size`. -/
def requiredSize (numElements : ℕ) : ℕ := numElements / 64 + 1

/-- `bitset_reset`, for a number of words. -/
def reset (size : ℕ) : Bitset := ⟨List.replicate size 0⟩

variable (wide : ℕ → Option (BitVec 64))

/-- `1ULL << n`. -/
def shiftOne (n : ℕ) : Option (BitVec 64) := if n < 64 then some (BitVec.twoPow 64 n) else wide n

/-- `bitset_is_set`; nothing where C promises nothing. -/
def isSet (b : Bitset) (pos : ℕ) : Option Bool := do
  let mask ← shiftOne wide (pos % structBits)
  let word ← b.rawBits[pos / structBits % 2 ^ 32]?
  pure (decide (word &&& mask ≠ 0))

/-- `bitset_set_true`. -/
def setTrue (b : Bitset) (pos : ℕ) : Option Bitset := do
  let mask ← shiftOne wide pos
  let word ← b.rawBits[pos / structBits % 2 ^ 32]?
  pure ⟨b.rawBits.set (pos / structBits % 2 ^ 32) (word ||| mask)⟩

/-! ## Below 64 -/

/-- The bitset holds just the positions of a set, as far as its first word goes. -/
def Marks (b : Bitset) (marked : ℕ → Prop) : Prop :=
  ∃ word rest, b.rawBits = word :: rest ∧ ∀ i < 64, word.getLsbD i = true ↔ marked i

variable {wide} {b : Bitset} {marked : ℕ → Prop} {i : ℕ}

theorem marks_reset (n : ℕ) : (reset (requiredSize n)).Marks fun _ => False :=
  ⟨0, List.replicate (n / 64) 0, rfl, fun i _ => by simp⟩

theorem shiftOne_of_lt (h : i < 64) : shiftOne wide i = some (BitVec.twoPow 64 i) := if_pos h

theorem index_of_lt (h : i < 64) : i / structBits % 2 ^ 32 = 0 ∧ i % structBits = i := by
  unfold structBits
  omega

theorem and_twoPow_ne_zero (word : BitVec 64) (h : i < 64) :
    word &&& BitVec.twoPow 64 i ≠ 0 ↔ word.getLsbD i = true := by
  rw [BitVec.and_twoPow]
  cases hbit : word.getLsbD i with
  | false => simp
  | true =>
    refine iff_of_true (fun hzero => ?_) rfl
    have hget := congrArg (fun w : BitVec 64 => w.getLsbD i) hzero
    simp [h] at hget

/-- **Reading a position below 64.** -/
theorem isSet_of_marks (hb : b.Marks marked) (h : i < 64) :
    ∃ r, b.isSet wide i = some r ∧ (r = true ↔ marked i) := by
  obtain ⟨word, rest, hraw, hbits⟩ := hb
  obtain ⟨hidx, hrel⟩ := index_of_lt h
  refine ⟨decide (word &&& BitVec.twoPow 64 i ≠ 0), ?_, ?_⟩
  · rw [isSet, hrel, shiftOne_of_lt h, hidx, hraw]
    rfl
  · rw [decide_eq_true_iff, and_twoPow_ne_zero word h, hbits i h]

/-- **Setting a position below 64.** -/
theorem setTrue_of_marks (hb : b.Marks marked) (h : i < 64) :
    ∃ b', b.setTrue wide i = some b' ∧ b'.Marks fun j => marked j ∨ j = i := by
  obtain ⟨word, rest, hraw, hbits⟩ := hb
  refine ⟨⟨(word ||| BitVec.twoPow 64 i) :: rest⟩, ?_, _, _, rfl, fun j hj => ?_⟩
  · rw [setTrue, shiftOne_of_lt h, (index_of_lt h).1, hraw]
    rfl
  · rw [BitVec.getLsbD_or, Bool.or_eq_true, hbits j hj, BitVec.getLsbD_twoPow, Bool.and_eq_true,
      decide_eq_true_iff, decide_eq_true_iff]
    exact or_congr Iff.rfl ⟨fun hh => hh.2.symm, fun hh => ⟨h, hh.symm⟩⟩

end Bitset

end Entangled
