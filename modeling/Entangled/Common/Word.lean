import Mathlib.Data.Int.Basic
import Mathlib.Data.List.Basic
import Mathlib.Tactic.Ring
/-!
# 64-bit words

The values of the ledger are `int64_t`, which the code adds without a check:
`Int64` addition wraps. The bookkeeping below is done in `ℤ`, with
`Int64.ofInt` as the passage down; `Fits` says when nothing is lost. The
second half is the byte image of a word, as `memcpy` writes and reads it.
-/

namespace Entangled

namespace Word

/-- An integer an `int64_t` can hold. -/
def Fits (x : ℤ) : Prop := -2 ^ 63 ≤ x ∧ x < 2 ^ 63

instance (x : ℤ) : Decidable (Fits x) := inferInstanceAs (Decidable (_ ∧ _))

theorem fits_toInt (v : Int64) : Fits v.toInt := ⟨v.le_toInt, v.toInt_lt⟩

theorem toInt_ofInt_iff {x : ℤ} : (Int64.ofInt x).toInt = x ↔ Fits x := by
  constructor
  · intro h
    rw [← h]
    exact fits_toInt _
  · rintro ⟨h₁, h₂⟩
    exact Int64.toInt_ofInt_of_le h₁ h₂

theorem toInt_ofInt {x : ℤ} (h : Fits x) : (Int64.ofInt x).toInt = x := toInt_ofInt_iff.mpr h

/-- Adding a word to the image of an integer is adding its value first. -/
theorem ofInt_add_word (x : ℤ) (v : Int64) : Int64.ofInt x + v = Int64.ofInt (x + v.toInt) := by
  rw [Int64.ofInt_add, Int64.ofInt_toInt]

theorem word_add_ofInt (v : Int64) (x : ℤ) : v + Int64.ofInt x = Int64.ofInt (v.toInt + x) := by
  rw [Int64.ofInt_add, Int64.ofInt_toInt]

theorem add_eq_ofInt (u v : Int64) : u + v = Int64.ofInt (u.toInt + v.toInt) := by
  rw [Int64.ofInt_add, Int64.ofInt_toInt, Int64.ofInt_toInt]

theorem toInt_add {u v : Int64} (h : Fits (u.toInt + v.toInt)) :
    (u + v).toInt = u.toInt + v.toInt := by
  rw [add_eq_ofInt, toInt_ofInt h]

/-- Two integers have one image when they differ by a multiple of `2 ^ 64`. -/
theorem ofInt_eq_iff {x y : ℤ} : Int64.ofInt x = Int64.ofInt y ↔ (2 ^ 64 : ℤ) ∣ x - y := by
  rw [← Int64.toInt_inj, Int64.toInt_ofInt, Int64.toInt_ofInt]
  have hs : (Int64.size : ℤ) = 2 ^ 64 := rfl
  constructor
  · intro h
    have := Int.emod_eq_emod_iff_emod_sub_eq_zero.mp
      (by rw [← Int.bmod_emod (x := x) (m := Int64.size), h, Int.bmod_emod] :
        x % (Int64.size : ℤ) = y % (Int64.size : ℤ))
    rw [hs] at this
    exact Int.dvd_of_emod_eq_zero this
  · intro h
    have : x % (Int64.size : ℤ) = y % (Int64.size : ℤ) := by
      rw [hs]
      exact Int.emod_eq_emod_iff_emod_sub_eq_zero.mpr (Int.emod_eq_zero_of_dvd h)
    rw [← Int.emod_bmod (x := x), this, Int.emod_bmod]

theorem ofInt_eq_zero_iff {x : ℤ} : Int64.ofInt x = 0 ↔ (2 ^ 64 : ℤ) ∣ x := by
  have h := ofInt_eq_iff (x := x) (y := 0)
  rwa [Int.sub_zero] at h

/-- **A wrapped sum that comes out right.** The word holds `y` exactly when `y`
fits and differs from the true sum by whole turns. -/
theorem toInt_ofInt_eq_iff {x y : ℤ} :
    (Int64.ofInt x).toInt = y ↔ Fits y ∧ (2 ^ 64 : ℤ) ∣ y - x := by
  constructor
  · intro h
    have hy : Fits y := h ▸ fits_toInt _
    refine ⟨hy, ?_⟩
    rw [← ofInt_eq_iff, ← Int64.toInt_inj, toInt_ofInt hy, h]
  · rintro ⟨hy, hd⟩
    rw [← ofInt_eq_iff.mpr hd, toInt_ofInt hy]

/-- Subtraction of two `uint64_t`. -/
def sub (a b : ℕ) : ℕ := (a + (2 ^ 64 - b % 2 ^ 64)) % 2 ^ 64

/-! ## The bytes of a word -/

/-- The eight bytes of a word, least significant first. -/
def bytes (v : Int64) : List UInt8 :=
  (List.range 8).map fun i => UInt8.ofNat (v.toUInt64.toNat / 256 ^ i)

/-- The word eight bytes spell. -/
def ofBytes (b : List UInt8) : Int64 :=
  (UInt64.ofNat (b.foldr (fun x n => x.toNat + 256 * n) 0)).toInt64

@[simp] theorem length_bytes (v : Int64) : (bytes v).length = 8 := by simp [bytes]

/-- **A word is read back as it was written.** -/
@[simp] theorem ofBytes_bytes (v : Int64) : ofBytes (bytes v) = v := by
  have hlt : v.toUInt64.toNat < 2 ^ 64 := UInt64.toNat_lt _
  have hsum : (bytes v).foldr (fun x n => x.toNat + 256 * n) 0 = v.toUInt64.toNat := by
    have hr : List.range 8 = [0, 1, 2, 3, 4, 5, 6, 7] := rfl
    simp only [bytes, hr, List.map_cons, List.map_nil, List.foldr_cons, List.foldr_nil,
      UInt8.toNat_ofNat']
    generalize v.toUInt64.toNat = n at hlt
    omega
  rw [ofBytes, hsum, UInt64.ofNat_toNat]
  rfl

end Word

end Entangled
