import Entangled.Mam.PolyTables
/-!
# Coefficients in machine types

`MAM_POLY_MRED_BINARY` decides how a coefficient is kept: as the number closest to zero, in an
`int16_t` and with products in an `int32_t`, or from zero up and times `R = 2 ^ 16`, in a `uint16_t`
and with products in a `uint32_t`. What is computed has no value here where it leaves its type. Both
kinds of coefficients stand for the same numbers, and what is computed with them is what is computed
with the numbers.
-/

namespace Entangled

namespace Mam

/-- A number in a type that goes from `low` to `high`, unless it is not in it. -/
def inType (low high a : ℤ) : Option ℤ := if low ≤ a ∧ a ≤ high then some a else none

/-- As an `int16_t`. -/
def int16 (a : ℤ) : Option ℤ := inType (-32768) 32767 a

/-- As an `int32_t`. -/
def int32 (a : ℤ) : Option ℤ := inType (-2147483648) 2147483647 a

/-- As a `uint16_t`. -/
def uint16 (a : ℤ) : Option ℤ := inType 0 65535 a

/-- As a `uint32_t`. -/
def uint32 (a : ℤ) : Option ℤ := inType 0 4294967295 a

theorem inType_eq {low high a : ℤ} (hlow : low ≤ a) (hhigh : a ≤ high) :
    inType low high a = some a := if_pos ⟨hlow, hhigh⟩

/-! ## The number closest to zero -/

namespace Signed

/-- `poly_coeff_from_trint9`, unless its assertion fails. -/
def polyCoeffFromTrint9 (t : ℤ) : Option ℤ :=
  if -(polyQ - 1) / 2 ≤ t ∧ t ≤ (polyQ - 1) / 2 then int16 t else none

/-- `poly_coeff_to_trint9`. -/
def polyCoeffToTrint9 (c : ℤ) : Option ℤ :=
  if (polyQ - 1) / 2 < c then int16 (c - polyQ) else int16 c

/-- `poly_coeff_add`. -/
def polyCoeffAdd (a b : ℤ) : Option ℤ := do
  let sum ← int32 (a + b)
  let sum ← int32 <|
    if sum < -((polyQ - 1) / 2) then sum + polyQ
    else if (polyQ - 1) / 2 < sum then sum - polyQ
    else sum
  int16 sum

/-- `poly_coeff_sub`. -/
def polyCoeffSub (a b : ℤ) : Option ℤ := do
  let b ← int16 (-b)
  polyCoeffAdd a b

/-- `poly_coeff_mul`. -/
def polyCoeffMul (a b : ℤ) : Option ℤ := do
  let prod ← int32 (a * b)
  -- The sum inside `MAM_MODS` has to fit as well.
  let _ ← int32 (prod + (polyQ * polyQ - 1) / 2)
  let prod ← int32 (mods prod (polyQ * polyQ) polyQ)
  int16 prod

end Signed

/-! ## The number times `2 ^ 16` -/

namespace Montgomery

/-- `MAM_POLY_MRED_RI`. -/
def polyMredRi : ℤ := 2304

/-- `MAM_POLY_MRED_Q_INV`. -/
def polyMredQInv : ℤ := 12287

/-- `poly_coeff_mredd`, unless its assertion fails. -/
def polyCoeffMredd (m : ℤ) : Option ℤ := do
  -- Both conversions to a `uint16_t` are meant to lose the upper half: they reduce modulo `R`.
  let s ← int32 (m % 2 ^ 16 * polyMredQInv)
  let s := s % 2 ^ 16
  let product ← int32 (s * polyQ)
  let m ← uint32 (m + product)
  let s ← uint16 (m / 2 ^ 16)
  let s ← uint16 (if s < polyQ then s else s - polyQ)
  if s < polyQ then some s else none

/-- `poly_coeff_from_trint9`, unless its assertion fails. -/
def polyCoeffFromTrint9 (t : ℤ) : Option ℤ :=
  if -(polyQ - 1) / 2 ≤ t ∧ t ≤ (polyQ - 1) / 2 then do
    -- A negative number is converted first, and the sum comes round again.
    let d := if t < 0 then (t % 2 ^ 32 + polyQ) % 2 ^ 32 else t
    let d ← uint32 (d * 2 ^ 16)
    uint16 (d % polyQ)
  else none

/-- `poly_coeff_to_trint9`. -/
def polyCoeffToTrint9 (c : ℤ) : Option ℤ := do
  let d ← uint32 (c * polyMredRi)
  let c ← uint16 (d % polyQ)
  int16 (if (polyQ - 1) / 2 < c then c - polyQ else c)

/-- `poly_coeff_add`. -/
def polyCoeffAdd (a b : ℤ) : Option ℤ := do
  let c ← uint16 (a + b)
  uint16 (if c < polyQ then c else c - polyQ)

/-- `poly_coeff_sub`. -/
def polyCoeffSub (a b : ℤ) : Option ℤ :=
  if a < b then do
    let sum ← int32 (polyQ + a)
    uint16 (sum - b)
  else uint16 (a - b)

/-- `poly_coeff_mul`. -/
def polyCoeffMul (a b : ℤ) : Option ℤ := do
  let m ← uint32 (a * b)
  polyCoeffMredd m

end Montgomery

/-! ## Either of them -/

/-- What `MAM_POLY_MRED_BINARY` decides. The coefficients are the numbers from `least` to
`greatest`. -/
structure PolyCoeffs where
  least : ℤ
  greatest : ℤ
  polyCoeffFromTrint9 : ℤ → Option ℤ
  polyCoeffToTrint9 : ℤ → Option ℤ
  polyCoeffAdd : ℤ → ℤ → Option ℤ
  polyCoeffSub : ℤ → ℤ → Option ℤ
  polyCoeffMul : ℤ → ℤ → Option ℤ
  polyGammaExp : List ℤ
  polyCoeffNInv : ℤ
  polyCoeffOne : ℤ

/-- Without `MAM_POLY_MRED_BINARY`. -/
def signedCoeffs : PolyCoeffs where
  least := -((polyQ - 1) / 2)
  greatest := (polyQ - 1) / 2
  polyCoeffFromTrint9 := Signed.polyCoeffFromTrint9
  polyCoeffToTrint9 := Signed.polyCoeffToTrint9
  polyCoeffAdd := Signed.polyCoeffAdd
  polyCoeffSub := Signed.polyCoeffSub
  polyCoeffMul := Signed.polyCoeffMul
  polyGammaExp := polyGammaExpSigned
  polyCoeffNInv := -12
  polyCoeffOne := 1

/-- With `MAM_POLY_MRED_BINARY`. -/
def montgomeryCoeffs : PolyCoeffs where
  least := 0
  greatest := polyQ - 1
  polyCoeffFromTrint9 := Montgomery.polyCoeffFromTrint9
  polyCoeffToTrint9 := Montgomery.polyCoeffToTrint9
  polyCoeffAdd := Montgomery.polyCoeffAdd
  polyCoeffSub := Montgomery.polyCoeffSub
  polyCoeffMul := Montgomery.polyCoeffMul
  polyGammaExp := polyGammaExpMontgomery
  polyCoeffNInv := 64
  polyCoeffOne := 4091

namespace PolyCoeffs

variable (C : PolyCoeffs)

/-- The number is a coefficient. -/
def InRange (a : ℤ) : Prop := C.least ≤ a ∧ a ≤ C.greatest

/-- The coefficient stands for the number `v`. -/
def Stands (a v : ℤ) : Prop := C.InRange a ∧ C.polyCoeffToTrint9 a = some v

/-- What is computed stays in its types and stands for the number `v`. -/
def Gives (o : Option ℤ) (v : ℤ) : Prop := ∃ c, o = some c ∧ C.Stands c v

/-- What is computed with the coefficients is what is computed with the numbers they stand for. -/
structure Exact : Prop where
  stands {a : ℤ} : C.InRange a → ∃ v, Reduced v ∧ C.Stands a v
  reduced {a v : ℤ} : C.Stands a v → Reduced v
  from_trint9 {v : ℤ} : Reduced v → C.Gives (C.polyCoeffFromTrint9 v) v
  injective {a b v : ℤ} : C.Stands a v → C.Stands b v → a = b
  zero : C.Stands 0 0
  one : C.Stands C.polyCoeffOne Mam.polyCoeffOne
  n_inv : C.Stands C.polyCoeffNInv Mam.polyCoeffNInv
  gamma_exp {i : ℕ} : i ≤ 2 * polyN → C.Gives C.polyGammaExp[i]? (Mam.polyGammaExp i)
  add {a b v w : ℤ} : C.Stands a v → C.Stands b w →
    C.Gives (C.polyCoeffAdd a b) (Mam.polyCoeffAdd v w)
  sub {a b v w : ℤ} : C.Stands a v → C.Stands b w →
    C.Gives (C.polyCoeffSub a b) (Mam.polyCoeffSub v w)
  mul {a b v w : ℤ} : C.Stands a v → C.Stands b w →
    C.Gives (C.polyCoeffMul a b) (Mam.polyCoeffMul v w)

variable {C}

theorem Gives.bind {o : Option ℤ} {v w : ℤ} {k : ℤ → Option ℤ} (ho : C.Gives o v)
    (hk : ∀ c, C.Stands c v → C.Gives (k c) w) : C.Gives (o >>= k) w := by
  obtain ⟨c, rfl, hc⟩ := ho
  exact hk c hc

end PolyCoeffs

/-! ## The signed ones -/

namespace Signed

theorem stands_iff {a v : ℤ} : signedCoeffs.Stands a v ↔ Reduced a ∧ a = v := by
  have hto : Reduced a → polyCoeffToTrint9 a = some a := by
    rintro ⟨hlow, hhigh⟩
    have hnot : ¬ (polyQ - 1) / 2 < a := not_lt.mpr hhigh
    rw [polyCoeffToTrint9, if_neg hnot, int16, inType_eq (by omega) (by omega)]
  constructor
  · rintro ⟨hrange, hv⟩
    exact ⟨hrange, Option.some.inj ((hto hrange).symm.trans hv)⟩
  · rintro ⟨hrange, rfl⟩
    exact ⟨hrange, hto hrange⟩

theorem polyCoeffAdd_eq {a b : ℤ} (ha : Reduced a) (hb : Reduced b) :
    polyCoeffAdd a b = some (Mam.polyCoeffAdd a b) := by
  have hrange := reduced_polyCoeffAdd ha hb
  obtain ⟨hlow, hhigh⟩ := ha
  obtain ⟨hlow', hhigh'⟩ := hb
  obtain ⟨hlow'', hhigh''⟩ := hrange
  have hsum : int32 (a + b) = some (a + b) := inType_eq (by omega) (by omega)
  have hnext : int32 (Mam.polyCoeffAdd a b) = some (Mam.polyCoeffAdd a b) :=
    inType_eq (by omega) (by omega)
  have hlast : int16 (Mam.polyCoeffAdd a b) = some (Mam.polyCoeffAdd a b) :=
    inType_eq (by omega) (by omega)
  rw [polyCoeffAdd, hsum, Option.bind_eq_bind, Option.bind_some]
  refine Eq.trans ?_ hlast
  rw [← Option.bind_some (Mam.polyCoeffAdd a b) int16, ← hnext]
  rfl

theorem polyCoeffSub_eq {a b : ℤ} (ha : Reduced a) (hb : Reduced b) :
    polyCoeffSub a b = some (Mam.polyCoeffSub a b) := by
  have hneg : int16 (-b) = some (-b) := by
    obtain ⟨hlow, hhigh⟩ := hb
    exact inType_eq (by omega) (by omega)
  rw [polyCoeffSub, hneg, Option.bind_eq_bind, Option.bind_some, polyCoeffAdd_eq ha hb.neg,
    Mam.polyCoeffSub]

/-- A product of two coefficients. -/
theorem abs_mul_le {a b : ℤ} (ha : Reduced a) (hb : Reduced b) : |a * b| ≤ 6144 * 6144 := by
  rw [abs_mul]
  exact mul_le_mul (abs_le.mpr ha) (abs_le.mpr hb) (abs_nonneg b) (by decide)

theorem polyCoeffMul_eq {a b : ℤ} (ha : Reduced a) (hb : Reduced b) :
    polyCoeffMul a b = some (Mam.polyCoeffMul a b) := by
  obtain ⟨hlow, hhigh⟩ := abs_le.mp (abs_mul_le ha hb)
  obtain ⟨hlow', hhigh'⟩ := reduced_polyCoeffMul ha hb
  have hprod : int32 (a * b) = some (a * b) := inType_eq (by omega) (by omega)
  have hsum : int32 (a * b + (polyQ * polyQ - 1) / 2) = some (a * b + (polyQ * polyQ - 1) / 2) := by
    unfold polyQ
    exact inType_eq (by omega) (by omega)
  have hnext : int32 (Mam.polyCoeffMul a b) = some (Mam.polyCoeffMul a b) :=
    inType_eq (by omega) (by omega)
  have hlast : int16 (Mam.polyCoeffMul a b) = some (Mam.polyCoeffMul a b) :=
    inType_eq (by omega) (by omega)
  rw [polyCoeffMul, hprod, Option.bind_eq_bind, Option.bind_some, hsum, Option.bind_some,
    ← Mam.polyCoeffMul, hnext]
  exact hlast

/-- **Signed coefficients** are the numbers themselves. -/
theorem exact : signedCoeffs.Exact where
  stands hrange := ⟨_, hrange, stands_iff.mpr ⟨hrange, rfl⟩⟩
  reduced h := by
    obtain ⟨hrange, rfl⟩ := stands_iff.mp h
    exact hrange
  from_trint9 {v} hv := by
    have hfrom : signedCoeffs.polyCoeffFromTrint9 v = some v := by
      have h16 : int16 v = some v := by
        obtain ⟨hlow, hhigh⟩ := hv
        exact inType_eq (by omega) (by omega)
      exact (if_pos hv).trans h16
    exact ⟨v, hfrom, stands_iff.mpr ⟨hv, rfl⟩⟩
  injective ha hb := (stands_iff.mp ha).2.trans (stands_iff.mp hb).2.symm
  zero := stands_iff.mpr ⟨⟨by decide, by decide⟩, rfl⟩
  one := stands_iff.mpr ⟨⟨by decide, by decide⟩, rfl⟩
  n_inv := stands_iff.mpr ⟨⟨by decide, by decide⟩, rfl⟩
  gamma_exp {i} hi :=
    ⟨polyGammaExp i, getElem?_polyGammaExpSigned hi, stands_iff.mpr ⟨reduced_polyGammaExp i, rfl⟩⟩
  add ha hb := by
    obtain ⟨hv, rfl⟩ := stands_iff.mp ha
    obtain ⟨hw, rfl⟩ := stands_iff.mp hb
    exact ⟨_, polyCoeffAdd_eq hv hw, stands_iff.mpr ⟨reduced_polyCoeffAdd hv hw, rfl⟩⟩
  sub ha hb := by
    obtain ⟨hv, rfl⟩ := stands_iff.mp ha
    obtain ⟨hw, rfl⟩ := stands_iff.mp hb
    exact ⟨_, polyCoeffSub_eq hv hw, stands_iff.mpr ⟨reduced_polyCoeffSub hv hw, rfl⟩⟩
  mul ha hb := by
    obtain ⟨hv, rfl⟩ := stands_iff.mp ha
    obtain ⟨hw, rfl⟩ := stands_iff.mp hb
    exact ⟨_, polyCoeffMul_eq hv hw, stands_iff.mpr ⟨reduced_polyCoeffMul hv hw, rfl⟩⟩

end Signed

/-! ## The ones times `2 ^ 16` -/

namespace Montgomery

theorem cast_two_pow_mul_ri (a : Coeff) : 2 ^ 16 * ((polyMredRi : ℤ) : Coeff) * a = a := by
  have hone : (2 ^ 16 * ((polyMredRi : ℤ) : Coeff)) = 1 := by decide +kernel
  rw [hone, one_mul]

/-- **The reduction** divides by `2 ^ 16`. -/
theorem polyCoeffMredd_spec {m : ℤ} (hlow : 0 ≤ m) (hhigh : m < polyQ * 2 ^ 16) :
    ∃ s, polyCoeffMredd m = some s ∧ (0 ≤ s ∧ s ≤ polyQ - 1) ∧ (s : Coeff) * 2 ^ 16 = m := by
  have hq : polyQ = 12289 := rfl
  have hqinv : m % 2 ^ 16 * polyMredQInv = m % 2 ^ 16 * 12287 := rfl
  obtain ⟨s, hs⟩ : ∃ s, s = m % 2 ^ 16 * polyMredQInv % 2 ^ 16 := ⟨_, rfl⟩
  have hsq : s * polyQ = s * 12289 := rfl
  -- `R` divides the sum, because `q` times its inverse is one less than a multiple of `R`.
  obtain ⟨t, ht⟩ : ∃ t, m + s * polyQ = 2 ^ 16 * t := ⟨(m + s * polyQ) / 2 ^ 16, by omega⟩
  have hbound : 0 ≤ t ∧ t < 2 * polyQ := by omega
  have hfirst : int32 (m % 2 ^ 16 * polyMredQInv) = some (m % 2 ^ 16 * polyMredQInv) :=
    inType_eq (by omega) (by omega)
  have hproduct : int32 (s * polyQ) = some (s * polyQ) := inType_eq (by omega) (by omega)
  have hsum : uint32 (m + s * polyQ) = some (m + s * polyQ) := inType_eq (by omega) (by omega)
  have hhalf : uint16 ((m + s * polyQ) / 2 ^ 16) = some t := by
    rw [ht, Int.mul_ediv_cancel_left t (by decide)]
    exact inType_eq (by omega) (by omega)
  obtain ⟨r, hr⟩ : ∃ r, r = if t < polyQ then t else t - polyQ := ⟨_, rfl⟩
  have hrange : 0 ≤ r ∧ r < polyQ := by
    rw [hr]
    split_ifs <;> omega
  have hlast : uint16 (if t < polyQ then t else t - polyQ) = some r := by
    rw [← hr]
    exact inType_eq (by omega) (by omega)
  have hcast : ((r : ℤ) : Coeff) = t := by
    rw [hr]
    split_ifs
    · rfl
    · rw [Int.cast_sub, cast_polyQ, sub_zero]
  refine ⟨r, ?_, ⟨by omega, by omega⟩, ?_⟩
  · simp only [polyCoeffMredd, hfirst, Option.bind_eq_bind, Option.bind_some, ← hs, hproduct, hsum,
      hhalf, hlast, if_pos hrange.2]
  · have hval := congrArg (Int.cast : ℤ → Coeff) ht
    rw [Int.cast_add, Int.cast_mul s, cast_polyQ, mul_zero, add_zero, Int.cast_mul, Int.cast_pow,
      Int.cast_ofNat, mul_comm] at hval
    rw [hcast, hval]

/-- The way out of the representation divides by `2 ^ 16` as well. -/
theorem polyCoeffToTrint9_spec {a : ℤ} (ha : montgomeryCoeffs.InRange a) :
    ∃ v, polyCoeffToTrint9 a = some v ∧ Reduced v ∧
      (v : Coeff) = a * ((polyMredRi : ℤ) : Coeff) := by
  obtain ⟨hlow, hhigh⟩ : 0 ≤ a ∧ a ≤ polyQ - 1 := ha
  have hq : polyQ = 12289 := rfl
  have hri : a * polyMredRi = a * 2304 := rfl
  have hmodq : a * polyMredRi % polyQ = a * 2304 % 12289 := rfl
  have hd : uint32 (a * polyMredRi) = some (a * polyMredRi) := inType_eq (by omega) (by omega)
  obtain ⟨c, hc⟩ : ∃ c, c = a * polyMredRi % polyQ := ⟨_, rfl⟩
  have hc16 : uint16 c = some c := inType_eq (by omega) (by omega)
  have hcast : (c : Coeff) = a * ((polyMredRi : ℤ) : Coeff) := by
    rw [hc, Int.emod_def, Int.cast_sub, Int.cast_mul polyQ, cast_polyQ, zero_mul, sub_zero,
      Int.cast_mul]
  obtain ⟨v, hv⟩ : ∃ v, v = if (polyQ - 1) / 2 < c then c - polyQ else c := ⟨_, rfl⟩
  have hreduced : Reduced v := by
    rw [hv, Reduced]
    split_ifs <;> constructor <;> omega
  have hlast : int16 (if (polyQ - 1) / 2 < c then c - polyQ else c) = some v := by
    rw [← hv]
    obtain ⟨hlow', hhigh'⟩ := hreduced
    exact inType_eq (by omega) (by omega)
  refine ⟨v, ?_, hreduced, ?_⟩
  · simp only [polyCoeffToTrint9, hd, Option.bind_eq_bind, Option.bind_some, ← hc, hc16, hlast]
  · rw [hv]
    split_ifs
    · rw [Int.cast_sub, cast_polyQ, sub_zero, hcast]
    · exact hcast

/-- What a coefficient stands for. -/
theorem stands_iff {a v : ℤ} :
    montgomeryCoeffs.Stands a v ↔
      (0 ≤ a ∧ a ≤ polyQ - 1) ∧ Reduced v ∧ (a : Coeff) = 2 ^ 16 * (v : Coeff) := by
  constructor
  · rintro ⟨hrange, hv⟩
    obtain ⟨w, hw, hreduced, hcast⟩ := polyCoeffToTrint9_spec hrange
    obtain rfl : w = v := Option.some.inj (hw.symm.trans hv)
    refine ⟨hrange, hreduced, ?_⟩
    rw [hcast, mul_left_comm, mul_comm (a : Coeff), cast_two_pow_mul_ri]
  · rintro ⟨hrange, hreduced, hcast⟩
    obtain ⟨w, hw, hreduced', hcast'⟩ := polyCoeffToTrint9_spec hrange
    have heq : w = v := by
      refine hreduced'.eq hreduced ?_
      rw [hcast', hcast, mul_right_comm, cast_two_pow_mul_ri]
    exact ⟨hrange, heq ▸ hw⟩

/-- The numbers add up as the coefficients do. -/
theorem polyCoeffAdd_spec {a b v w : ℤ} (ha : montgomeryCoeffs.Stands a v)
    (hb : montgomeryCoeffs.Stands b w) :
    montgomeryCoeffs.Gives (polyCoeffAdd a b) (Mam.polyCoeffAdd v w) := by
  have hq : polyQ = 12289 := rfl
  obtain ⟨⟨hlow, hhigh⟩, hv, hcast⟩ := stands_iff.mp ha
  obtain ⟨⟨hlow', hhigh'⟩, hw, hcast'⟩ := stands_iff.mp hb
  have hsum : uint16 (a + b) = some (a + b) := inType_eq (by omega) (by omega)
  obtain ⟨r, hr⟩ : ∃ r, r = if a + b < polyQ then a + b else a + b - polyQ := ⟨_, rfl⟩
  have hrange : 0 ≤ r ∧ r ≤ polyQ - 1 := by
    rw [hr]
    split_ifs <;> constructor <;> omega
  have hlast : uint16 (if a + b < polyQ then a + b else a + b - polyQ) = some r := by
    rw [← hr]
    exact inType_eq (by omega) (by omega)
  have hval : ((r : ℤ) : Coeff) = a + b := by
    rw [hr]
    split_ifs
    · exact Int.cast_add a b
    · rw [Int.cast_sub, cast_polyQ, sub_zero, Int.cast_add]
  refine ⟨r, ?_, stands_iff.mpr ⟨hrange, reduced_polyCoeffAdd hv hw, ?_⟩⟩
  · rw [polyCoeffAdd, hsum, Option.bind_eq_bind, Option.bind_some, hlast]
  · rw [hval, cast_polyCoeffAdd, hcast, hcast', mul_add]

theorem polyCoeffSub_spec {a b v w : ℤ} (ha : montgomeryCoeffs.Stands a v)
    (hb : montgomeryCoeffs.Stands b w) :
    montgomeryCoeffs.Gives (polyCoeffSub a b) (Mam.polyCoeffSub v w) := by
  have hq : polyQ = 12289 := rfl
  obtain ⟨⟨hlow, hhigh⟩, hv, hcast⟩ := stands_iff.mp ha
  obtain ⟨⟨hlow', hhigh'⟩, hw, hcast'⟩ := stands_iff.mp hb
  have hcomputed : ∃ r, polyCoeffSub a b = some r ∧ (0 ≤ r ∧ r ≤ polyQ - 1) ∧
      (r : Coeff) = a - b := by
    rw [polyCoeffSub]
    split_ifs with hlt
    · have hsum : int32 (polyQ + a) = some (polyQ + a) := inType_eq (by omega) (by omega)
      have hlast : uint16 (polyQ + a - b) = some (polyQ + a - b) :=
        inType_eq (by omega) (by omega)
      refine ⟨polyQ + a - b, ?_, ⟨by omega, by omega⟩, ?_⟩
      · rw [hsum, Option.bind_eq_bind, Option.bind_some, hlast]
      · rw [Int.cast_sub, Int.cast_add, cast_polyQ, zero_add]
    · exact ⟨a - b, inType_eq (by omega) (by omega), ⟨by omega, by omega⟩, Int.cast_sub a b⟩
  obtain ⟨r, hr, hrange, hval⟩ := hcomputed
  refine ⟨r, hr, stands_iff.mpr ⟨hrange, reduced_polyCoeffSub hv hw, ?_⟩⟩
  rw [hval, cast_polyCoeffSub, hcast, hcast', mul_sub]

theorem polyCoeffMul_spec {a b v w : ℤ} (ha : montgomeryCoeffs.Stands a v)
    (hb : montgomeryCoeffs.Stands b w) :
    montgomeryCoeffs.Gives (polyCoeffMul a b) (Mam.polyCoeffMul v w) := by
  have hq : polyQ = 12289 := rfl
  obtain ⟨⟨hlow, hhigh⟩, hv, hcast⟩ := stands_iff.mp ha
  obtain ⟨⟨hlow', hhigh'⟩, hw, hcast'⟩ := stands_iff.mp hb
  have hprod : 0 ≤ a * b ∧ a * b ≤ 12288 * 12288 :=
    ⟨mul_nonneg hlow hlow', mul_le_mul hhigh hhigh' hlow' (by decide)⟩
  have hm : uint32 (a * b) = some (a * b) := inType_eq (by omega) (by omega)
  obtain ⟨r, hr, hrange, hval⟩ := polyCoeffMredd_spec hprod.1 (by omega)
  refine ⟨r, ?_, stands_iff.mpr ⟨hrange, reduced_polyCoeffMul hv hw, ?_⟩⟩
  · rw [polyCoeffMul, hm, Option.bind_eq_bind, Option.bind_some, hr]
  · -- Of the two factors `R` in the product, the reduction has taken one away.
    have hunit : (2 ^ 16 : Coeff) ≠ 0 := by decide +kernel
    refine mul_right_cancel₀ hunit ?_
    rw [hval, Int.cast_mul, hcast, hcast', cast_polyCoeffMul]
    ring

theorem polyCoeffFromTrint9_spec {v : ℤ} (hv : Reduced v) :
    montgomeryCoeffs.Gives (polyCoeffFromTrint9 v) v := by
  have hq : polyQ = 12289 := rfl
  obtain ⟨hlow, hhigh⟩ := id hv
  obtain ⟨d, hd⟩ : ∃ d, d = if v < 0 then (v % 2 ^ 32 + polyQ) % 2 ^ 32 else v := ⟨_, rfl⟩
  have hval : (0 ≤ d ∧ d ≤ polyQ - 1) ∧ ((d : ℤ) : Coeff) = v := by
    rw [hd]
    split_ifs
    · have hround : (v % 2 ^ 32 + polyQ) % 2 ^ 32 = v + polyQ := by omega
      rw [hround, Int.cast_add, cast_polyQ, add_zero]
      exact ⟨⟨by omega, by omega⟩, rfl⟩
    · exact ⟨⟨by omega, by omega⟩, rfl⟩
  obtain ⟨⟨hlow', hhigh'⟩, hcast⟩ := hval
  have hshift : uint32 (d * 2 ^ 16) = some (d * 2 ^ 16) := inType_eq (by omega) (by omega)
  have hmod : d * 2 ^ 16 % polyQ = d * 65536 % 12289 := rfl
  have hlast : uint16 (d * 2 ^ 16 % polyQ) = some (d * 2 ^ 16 % polyQ) :=
    inType_eq (by omega) (by omega)
  refine ⟨d * 2 ^ 16 % polyQ, ?_, stands_iff.mpr ⟨⟨by omega, by omega⟩, hv, ?_⟩⟩
  · have hassert : -(polyQ - 1) / 2 ≤ v ∧ v ≤ (polyQ - 1) / 2 := hv
    rw [polyCoeffFromTrint9, if_pos hassert]
    dsimp only
    rw [← hd, hshift, Option.bind_eq_bind, Option.bind_some, hlast]
  · rw [Int.emod_def, Int.cast_sub, Int.cast_mul polyQ, cast_polyQ, zero_mul, sub_zero,
      Int.cast_mul, hcast, Int.cast_pow, Int.cast_ofNat, mul_comm]

/-- **Coefficients times `2 ^ 16`** are computed with as the numbers are. -/
theorem exact : montgomeryCoeffs.Exact where
  stands hrange := by
    obtain ⟨v, hv, hreduced, -⟩ := polyCoeffToTrint9_spec hrange
    exact ⟨v, hreduced, hrange, hv⟩
  reduced h := (stands_iff.mp h).2.1
  from_trint9 := polyCoeffFromTrint9_spec
  injective {a b v} ha hb := by
    obtain ⟨⟨hlow, hhigh⟩, -, hcast⟩ := stands_iff.mp ha
    obtain ⟨⟨hlow', hhigh'⟩, -, hcast'⟩ := stands_iff.mp hb
    obtain ⟨d, hd⟩ := (ZMod.intCast_eq_intCast_iff_dvd_sub a b 12289).mp (hcast.trans hcast'.symm)
    have hq : polyQ = 12289 := rfl
    push_cast at hd
    omega
  zero := stands_iff.mpr ⟨⟨by decide, by decide⟩, ⟨by decide, by decide⟩, by decide⟩
  one := stands_iff.mpr ⟨⟨by decide, by decide⟩, ⟨by decide, by decide⟩, by decide +kernel⟩
  n_inv := stands_iff.mpr ⟨⟨by decide, by decide⟩, ⟨by decide, by decide⟩, by decide +kernel⟩
  gamma_exp {i} hi := by
    obtain ⟨g, hget, hrange, hval⟩ := getElem?_polyGammaExpMontgomery hi
    refine ⟨g, hget, stands_iff.mpr ⟨hrange, reduced_polyGammaExp i, ?_⟩⟩
    rw [hval, cast_polyGammaExp]
  add := polyCoeffAdd_spec
  sub := polyCoeffSub_spec
  mul := polyCoeffMul_spec

end Montgomery

end Mam

end Entangled
