import Entangled.Common.Blocks
import Entangled.Common.Negacyclic
import Entangled.Mam.Trits
import Mathlib.Data.ZMod.Basic
import Mathlib.FieldTheory.Finite.Basic
import Mathlib.Tactic.NormNum.Prime
import Mathlib.Tactic.ReduceModChar
/-!
# Polynomials of NTRU

Polynomials modulo `x ^ 1024 + 1` with coefficients modulo 12289, each coefficient the number closest
to zero. `poly_ntt` gives the values at the odd powers of `γ`, and there a product is taken place by
place.
-/

namespace Entangled

namespace Mam

open Negacyclic

/-- `MAM_POLY_Q`. -/
def polyQ : ℤ := 12289

/-- `MAM_POLY_N_LOG`. -/
def polyNLog : ℕ := 10

/-- `MAM_POLY_N`. -/
def polyN : ℕ := 2 ^ polyNLog

/-- `MAM_POLY_COEFF_GAMMA`. -/
def polyCoeffGamma : ℤ := 7

/-- `MAM_POLY_COEFF_N_INV`. -/
def polyCoeffNInv : ℤ := -12

/-- `MAM_POLY_COEFF_ONE`. -/
def polyCoeffOne : ℤ := 1

/-- `poly_t`. The places from `polyN` on are not there. -/
abbrev Poly := ℕ → ℤ

/-! ## Coefficients -/

/-- `poly_coeff_add`. -/
def polyCoeffAdd (a b : ℤ) : ℤ :=
  let sum := a + b
  if sum < -((polyQ - 1) / 2) then sum + polyQ
  else if (polyQ - 1) / 2 < sum then sum - polyQ
  else sum

/-- `poly_coeff_sub`. -/
def polyCoeffSub (a b : ℤ) : ℤ := polyCoeffAdd a (-b)

/-- `poly_coeff_mul`. -/
def polyCoeffMul (a b : ℤ) : ℤ := mods (a * b) (polyQ * polyQ) polyQ

/-- The loop of `poly_coeff_inv`, for so many rounds. -/
def polyCoeffInvFrom (a : ℤ) : ℕ → ℤ → ℤ
  | 0, e => e
  | rounds + 1, e => polyCoeffInvFrom a rounds (polyCoeffMul (polyCoeffMul e e) a)

/-- `poly_coeff_inv`, unless its assertion fails. -/
def polyCoeffInv (a : ℤ) : Option ℤ :=
  let e := polyCoeffInvFrom a 11 a
  let t := polyCoeffMul e a
  let t := polyCoeffMul t t
  let e := polyCoeffMul t e
  if polyCoeffMul e a = polyCoeffOne then some e else none

/-- `poly_coeff_to_trint9`. -/
def polyCoeffToTrint9 (c : ℤ) : ℤ := if (polyQ - 1) / 2 < c then c - polyQ else c

/-- `poly_gamma_exp`, which has the values written out: the power of `γ` closest to zero. -/
def polyGammaExp (i : ℕ) : ℤ := (polyCoeffGamma ^ i + (polyQ - 1) / 2) % polyQ - (polyQ - 1) / 2

/-- `poly_idx_rev`, which has the values written out: the bits the other way round. -/
def polyIdxRev (i : ℕ) : ℕ := rev polyNLog i

/-! ## Polynomials -/

/-- `poly_small3_add1`. -/
def polySmall3Add1 (f : Poly) : Poly := Function.update f 0 (f 0 + polyCoeffOne)

/-- `poly_small_mul3`. -/
def polySmallMul3 (f : Poly) : Poly := fun i => polyCoeffAdd (polyCoeffAdd (f i) (f i)) (f i)

/-- `poly_add`. -/
def polyAdd (f g : Poly) : Poly := fun i => polyCoeffAdd (f i) (g i)

/-- `poly_sub`. -/
def polySub (f g : Poly) : Poly := fun i => polyCoeffSub (f i) (g i)

/-- `poly_conv`. -/
def polyConv (tf tg : Poly) : Poly := fun i => polyCoeffMul (tf i) (tg i)

/-- `poly_has_inv`. -/
def polyHasInv (t : Poly) : Bool := (List.range polyN).all fun i => t i ≠ 0

/-- `poly_inv`, unless an assertion fails. -/
def polyInv (tf : Poly) : Option Poly :=
  if (List.range polyN).all fun i => (polyCoeffInv (tf i)).isSome then
    some fun i => (polyCoeffInv (tf i)).getD 0
  else none

/-- The first loop of `poly_ntt` and of `poly_intt`: `u`, which has nothing in it before. -/
def polyPermute (a : Poly) : Poly :=
  (List.range polyN).foldl (fun u i => Function.update u (polyIdxRev i) (a i)) fun _ => 0

/-- The loops over `j`: from `u` to `t`, and back into `u`. -/
def polyStage (twiddle : ℕ → ℤ) (i : ℕ) (u : Poly) : Poly := fun j =>
  if j < polyN / 2 then
    polyCoeffAdd (u (2 * j)) (polyCoeffMul (u (2 * j + 1)) (twiddle (j - j % 2 ^ i)))
  else
    let j := j - polyN / 2
    polyCoeffSub (u (2 * j)) (polyCoeffMul (u (2 * j + 1)) (twiddle (j - j % 2 ^ i)))

/-- The loop over `i`, downwards. -/
def polyStages (twiddle : ℕ → ℤ) : ℕ → Poly → Poly
  | 0, u => u
  | i + 1, u => polyStages twiddle i (polyStage twiddle i u)

/-- `poly_ntt`. -/
def polyNtt (f : Poly) : Poly :=
  polyStages (fun r => polyGammaExp (r + r)) polyNLog
    (polyPermute fun i => polyCoeffMul (polyGammaExp i) (f i))

/-- `poly_intt`. -/
def polyIntt (t : Poly) : Poly :=
  let f := polyStages (fun r => polyGammaExp (2 * polyN - (r + r))) polyNLog (polyPermute t)
  fun i => polyCoeffMul (polyCoeffMul polyCoeffNInv (polyGammaExp (2 * polyN - i))) (f i)

/-- `poly_round_to_trits`. -/
def polyRoundToTrits (f : Poly) : List Trit :=
  (List.range polyN).map fun i => Trit.ofInt (mods (polyCoeffToTrint9 (f i)) (27 * 27 * 27) 3)

/-- `poly_small_from_trits`. -/
def polySmallFromTrits (t : List Trit) : Poly := fun i => (t.getD i .zero).toInt

/-- `poly_from_trits`. -/
def polyFromTrits (t : List Trit) : Option Poly :=
  if (List.range polyN).all fun i =>
      -((polyQ - 1) / 2) ≤ get9 (t.drop (9 * i)) ∧ get9 (t.drop (9 * i)) ≤ (polyQ - 1) / 2 then
    some fun i => get9 (t.drop (9 * i))
  else none

/-- `poly_to_trits`. -/
def polyToTrits (f : Poly) : List Trit :=
  (List.range polyN).flatMap fun i => put9 (polyCoeffToTrint9 (f i))

/-! ## Coefficients modulo `q` -/

/-- The field of the coefficients. -/
abbrev Coeff := ZMod 12289

instance fact_prime_polyQ : Fact (Nat.Prime 12289) := ⟨by norm_num⟩

/-- The number is the one closest to zero. -/
def Reduced (a : ℤ) : Prop := -6144 ≤ a ∧ a ≤ 6144

/-- Every coefficient is. -/
def PolyReduced (f : Poly) : Prop := ∀ i, Reduced (f i)

/-- The coefficients as what they stand for. -/
def residue (f : Poly) (i : ℕ) : Coeff := f i

theorem Reduced.eq {a b : ℤ} (ha : Reduced a) (hb : Reduced b) (h : (a : Coeff) = b) : a = b := by
  obtain ⟨d, hd⟩ := (ZMod.intCast_eq_intCast_iff_dvd_sub a b 12289).mp h
  obtain ⟨hlow, hhigh⟩ := ha
  obtain ⟨hlow', hhigh'⟩ := hb
  push_cast at hd
  omega

theorem cast_polyQ : ((polyQ : ℤ) : Coeff) = 0 := by
  rw [polyQ]
  exact (ZMod.intCast_zmod_eq_zero_iff_dvd _ _).mpr (by norm_num)

theorem cast_polyCoeffAdd (a b : ℤ) : ((polyCoeffAdd a b : ℤ) : Coeff) = a + b := by
  unfold polyCoeffAdd
  dsimp only
  split_ifs
  · rw [Int.cast_add, cast_polyQ, add_zero, Int.cast_add]
  · rw [Int.cast_sub, cast_polyQ, sub_zero, Int.cast_add]
  · exact Int.cast_add a b

theorem cast_polyCoeffSub (a b : ℤ) : ((polyCoeffSub a b : ℤ) : Coeff) = a - b := by
  rw [polyCoeffSub, cast_polyCoeffAdd, Int.cast_neg, sub_eq_add_neg]

theorem cast_polyCoeffMul (a b : ℤ) : ((polyCoeffMul a b : ℤ) : Coeff) = a * b := by
  have hdiv := Int.mul_tdiv_add_tmod (a * b + (polyQ * polyQ - 1) / 2) polyQ
  have hmods : polyCoeffMul a b =
      a * b + polyQ * (6144 - (a * b + (polyQ * polyQ - 1) / 2).tdiv polyQ) := by
    rw [polyCoeffMul, mods]
    unfold polyQ at *
    omega
  rw [hmods, Int.cast_add, Int.cast_mul polyQ, cast_polyQ, zero_mul, add_zero, Int.cast_mul]

theorem reduced_polyCoeffAdd {a b : ℤ} (ha : Reduced a) (hb : Reduced b) :
    Reduced (polyCoeffAdd a b) := by
  obtain ⟨hlow, hhigh⟩ := ha
  obtain ⟨hlow', hhigh'⟩ := hb
  unfold polyCoeffAdd Reduced polyQ
  dsimp only
  split_ifs <;> omega

theorem Reduced.neg {a : ℤ} (ha : Reduced a) : Reduced (-a) := by
  obtain ⟨hlow, hhigh⟩ := ha
  exact ⟨by omega, by omega⟩

theorem reduced_polyCoeffSub {a b : ℤ} (ha : Reduced a) (hb : Reduced b) :
    Reduced (polyCoeffSub a b) := reduced_polyCoeffAdd ha hb.neg

theorem reduced_polyCoeffMul {a b : ℤ} (ha : Reduced a) (hb : Reduced b) :
    Reduced (polyCoeffMul a b) := by
  obtain ⟨hlow, hhigh⟩ := ha
  obtain ⟨hlow', hhigh'⟩ := hb
  have hge : 0 ≤ a * b + (polyQ * polyQ - 1) / 2 := by
    have hprod : -(6144 * 6144) ≤ a * b := by
      nlinarith [mul_nonneg (sub_nonneg.mpr hlow) (sub_nonneg.mpr hlow'),
        mul_nonneg (sub_nonneg.mpr hhigh) (sub_nonneg.mpr hhigh')]
    unfold polyQ
    omega
  rw [polyCoeffMul, mods_eq hge]
  have hpos := Int.emod_nonneg (a * b + (polyQ * polyQ - 1) / 2) (by decide : polyQ ≠ 0)
  have hlt := Int.emod_lt_of_pos (a * b + (polyQ * polyQ - 1) / 2) (by decide : 0 < polyQ)
  unfold Reduced polyQ at *
  omega

theorem reduced_polyGammaExp (i : ℕ) : Reduced (polyGammaExp i) := by
  have hpos := Int.emod_nonneg (polyCoeffGamma ^ i + (polyQ - 1) / 2) (by decide : polyQ ≠ 0)
  have hlt := Int.emod_lt_of_pos (polyCoeffGamma ^ i + (polyQ - 1) / 2) (by decide : 0 < polyQ)
  unfold Reduced polyGammaExp
  unfold polyQ at *
  omega

/-- `γ`. -/
def gamma : Coeff := 7

theorem cast_polyGammaExp (i : ℕ) : ((polyGammaExp i : ℤ) : Coeff) = gamma ^ i := by
  have hdiv := Int.emod_add_mul_ediv (polyCoeffGamma ^ i + (polyQ - 1) / 2) polyQ
  have hval : polyGammaExp i = polyCoeffGamma ^ i -
      polyQ * ((polyCoeffGamma ^ i + (polyQ - 1) / 2) / polyQ) := by
    rw [polyGammaExp]
    linarith
  rw [hval, Int.cast_sub, Int.cast_mul, cast_polyQ, zero_mul, sub_zero, Int.cast_pow, polyCoeffGamma,
    gamma]
  norm_num

theorem gamma_pow_polyN : gamma ^ polyN = -1 := by
  rw [gamma, polyN, polyNLog]
  decide +kernel

theorem isPrimitiveRoot_gamma : IsPrimitiveRoot gamma (2 * polyN) := by
  have hne : gamma ^ polyN ≠ 1 := by
    rw [gamma_pow_polyN]
    decide
  have hone : gamma ^ 2 ^ (10 + 1) = 1 := by
    rw [pow_succ, pow_mul, show 2 ^ 10 = polyN by rfl, gamma_pow_polyN, neg_one_sq]
  have horder : orderOf gamma = 2 ^ (10 + 1) := orderOf_eq_prime_pow hne hone
  rw [show 2 * polyN = 2 ^ (10 + 1) by rfl, ← horder]
  exact IsPrimitiveRoot.orderOf gamma

theorem isPrimitiveRoot_omega : IsPrimitiveRoot (gamma ^ 2) polyN :=
  isPrimitiveRoot_gamma.pow (by decide) rfl

theorem gamma_ne_zero : gamma ≠ 0 := by
  rw [gamma]
  decide

/-! ## What the transforms compute -/

theorem residue_polyStage (twiddle : ℕ → ℤ) (i : ℕ) (u : Poly) :
    residue (polyStage twiddle i u) =
      stage (fun r => (twiddle r : Coeff)) (polyN / 2) i (residue u) := by
  funext j
  rw [residue, polyStage, stage]
  split_ifs
  · rw [cast_polyCoeffAdd, cast_polyCoeffMul]
    rfl
  · dsimp only
    rw [cast_polyCoeffSub, cast_polyCoeffMul]
    rfl

theorem residue_polyStages (twiddle : ℕ → ℤ) (i : ℕ) (u : Poly) :
    residue (polyStages twiddle i u) =
      stages (fun r => (twiddle r : Coeff)) (polyN / 2) i (residue u) := by
  induction i generalizing u with
  | zero => rfl
  | succ i ih => rw [polyStages, ih, residue_polyStage, stages]

theorem polyPermute_rev (a : Poly) {i : ℕ} (hi : i < polyN) :
    polyPermute a (polyIdxRev i) = a i := by
  have hinj : ∀ j < polyN, polyIdxRev j = polyIdxRev i → j = i := by
    intro j hj heq
    rw [← rev_rev polyNLog hj, ← rev_rev polyNLog hi]
    exact congrArg (rev polyNLog) heq
  have hfold : ∀ (n : ℕ) (u : Poly), n ≤ polyN → i < n →
      (List.range n).foldl (fun (u : Poly) i => Function.update u (polyIdxRev i) (a i)) u
        (polyIdxRev i) = a i := by
    intro n u hn
    induction n with
    | zero => exact fun h => absurd h (Nat.not_lt_zero i)
    | succ n ih =>
      intro hlt
      rw [List.range_succ, List.foldl_append, List.foldl_cons, List.foldl_nil]
      rcases Nat.lt_succ_iff_lt_or_eq.mp hlt with hlt | rfl
      · rw [Function.update_of_ne fun heq => absurd (hinj n (by omega) heq.symm) (by omega),
          ih (by omega) hlt]
      · exact Function.update_self _ _ _
  exact hfold polyN _ le_rfl hi

theorem polyPermute_spec (w : Coeff) (a : Poly) :
    Halfway w (residue a) 0 polyNLog (residue (polyPermute a)) :=
  halfway_start fun _ hi => congrArg Int.cast (polyPermute_rev a hi)

/-- **`poly_ntt` gives the values at the odd powers of `γ`.** -/
theorem residue_polyNtt (f : Poly) {b : ℕ} (hb : b < polyN) :
    residue (polyNtt f) b = eval polyN (residue f) (gamma ^ (2 * b + 1)) := by
  have htwiddle : (fun r => ((polyGammaExp (r + r) : ℤ) : Coeff)) = fun r => (gamma ^ 2) ^ r := by
    funext r
    rw [cast_polyGammaExp, ← pow_mul, Nat.two_mul]
  have hhalf : (gamma ^ 2) ^ 2 ^ (0 + 9) = -1 := by
    rw [← pow_mul]
    exact gamma_pow_polyN
  rw [polyNtt, residue_polyStages, htwiddle]
  refine (stages_spec hhalf (polyPermute_spec (gamma ^ 2) _) hb).trans ?_
  refine Finset.sum_congr rfl fun l _ => ?_
  rw [residue, cast_polyCoeffMul, cast_polyGammaExp, residue, ← pow_mul, ← pow_mul, ← pow_mul,
    Nat.add_mul, Nat.one_mul, pow_add]
  ring

theorem cast_polyCoeffNInv : ((polyCoeffNInv : ℤ) : Coeff) * (polyN : ℕ) = 1 := by
  rw [polyCoeffNInv, polyN, polyNLog]
  decide +kernel

theorem gamma_inv_pow_mul (k : ℕ) : (gamma⁻¹) ^ k * gamma ^ k = 1 := by
  rw [← mul_pow, inv_mul_cancel₀ gamma_ne_zero, one_pow]

/-- What `poly_intt` adds up. -/
theorem residue_polyIntt_sum (t : Poly) {k : ℕ} (hk : k < polyN) :
    residue (polyIntt t) k = ((polyCoeffNInv : ℤ) : Coeff) * (gamma⁻¹) ^ k *
      ∑ l ∈ Finset.range polyN, residue t l * (((gamma ^ 2)⁻¹) ^ k) ^ l := by
  have hpow : ∀ i ≤ 2 * polyN, gamma ^ (2 * polyN - i) = (gamma⁻¹) ^ i := by
    intro i hi
    rw [inv_pow]
    refine eq_inv_of_mul_eq_one_left ?_
    rw [← pow_add, Nat.sub_add_cancel hi]
    exact isPrimitiveRoot_gamma.pow_eq_one
  have htwiddle : ∀ u : Poly, stages (fun r => ((polyGammaExp (2 * polyN - (r + r)) : ℤ) : Coeff))
      (polyN / 2) polyNLog (residue u) k =
        stages (fun r => ((gamma ^ 2)⁻¹) ^ r) (polyN / 2) polyNLog (residue u) k := by
    intro u
    refine stages_congr (fun r hr => ?_) polyNLog (fun _ _ => rfl) hk
    have hle : r + r ≤ 2 * polyN := by omega
    rw [cast_polyGammaExp, hpow _ hle, ← Nat.two_mul, pow_mul, inv_pow]
  have hhalf : ((gamma ^ 2)⁻¹) ^ 2 ^ (0 + 9) = -1 := by
    rw [inv_pow, ← pow_mul, show 2 * 2 ^ (0 + 9) = polyN by rfl, gamma_pow_polyN, inv_neg,
      inv_one]
  have hsum : residue (polyStages (fun r => polyGammaExp (2 * polyN - (r + r))) polyNLog
      (polyPermute t)) k =
        ∑ l ∈ Finset.range polyN, residue t l * (((gamma ^ 2)⁻¹) ^ k) ^ l := by
    rw [residue_polyStages, htwiddle]
    exact stages_spec hhalf (polyPermute_spec _ t) hk
  rw [residue] at hsum
  rw [residue, polyIntt, cast_polyCoeffMul, cast_polyCoeffMul, cast_polyGammaExp,
    hpow k (by omega), hsum]

/-- **`poly_intt` leads back** from the values to the coefficients. -/
theorem residue_polyIntt {t : Poly} {a : ℕ → Coeff}
    (ht : ∀ b < polyN, residue t b = eval polyN a (gamma ^ (2 * b + 1))) {k : ℕ} (hk : k < polyN) :
    residue (polyIntt t) k = a k := by
  have hsum : ∑ l ∈ Finset.range polyN, residue t l * (((gamma ^ 2)⁻¹) ^ k) ^ l =
      polyN * (a k * gamma ^ k) := by
    rw [← sum_inverse isPrimitiveRoot_omega (fun j => a j * gamma ^ j) hk]
    refine Finset.sum_congr rfl fun l hl => ?_
    have hval : eval polyN a (gamma ^ (2 * l + 1)) =
        ∑ j ∈ Finset.range polyN, a j * gamma ^ j * ((gamma ^ 2) ^ l) ^ j := by
      refine Finset.sum_congr rfl fun j _ => ?_
      rw [pow_add, pow_one, mul_pow, pow_mul]
      ring
    rw [ht l (Finset.mem_range.mp hl), hval]
  rw [residue_polyIntt_sum t hk, hsum]
  calc ((polyCoeffNInv : ℤ) : Coeff) * (gamma⁻¹) ^ k * (polyN * (a k * gamma ^ k))
      = (((polyCoeffNInv : ℤ) : Coeff) * (polyN : ℕ)) * ((gamma⁻¹) ^ k * gamma ^ k) * a k := by ring
    _ = a k := by rw [cast_polyCoeffNInv, gamma_inv_pow_mul, one_mul, one_mul]

/-- **Whatever the values are**, `poly_intt` finds coefficients that have them. -/
theorem eval_polyIntt (t : Poly) {b : ℕ} (hb : b < polyN) :
    eval polyN (residue (polyIntt t)) (gamma ^ (2 * b + 1)) = residue t b := by
  have hsum := sum_inverse isPrimitiveRoot_omega.inv (residue t) hb
  rw [inv_inv] at hsum
  have hterm : ∀ k ∈ Finset.range polyN,
      residue (polyIntt t) k * (gamma ^ (2 * b + 1)) ^ k = ((polyCoeffNInv : ℤ) : Coeff) *
        ((∑ l ∈ Finset.range polyN, residue t l * (((gamma ^ 2)⁻¹) ^ k) ^ l) *
          ((gamma ^ 2) ^ b) ^ k) := by
    intro k hk
    have hsplit : (gamma ^ (2 * b + 1)) ^ k = gamma ^ k * ((gamma ^ 2) ^ b) ^ k := by
      rw [pow_add, pow_one, mul_pow, pow_mul, mul_comm]
    rw [residue_polyIntt_sum t (Finset.mem_range.mp hk), hsplit]
    linear_combination ((polyCoeffNInv : ℤ) : Coeff) *
      (∑ l ∈ Finset.range polyN, residue t l * (((gamma ^ 2)⁻¹) ^ k) ^ l) *
        ((gamma ^ 2) ^ b) ^ k * gamma_inv_pow_mul k
  rw [eval, Finset.sum_congr rfl hterm, ← Finset.mul_sum, hsum, ← mul_assoc, cast_polyCoeffNInv,
    one_mul]

/-! ## Coefficients stay closest to zero -/

variable {f g t : Poly}

theorem PolyReduced.polyStage (hf : PolyReduced f) {twiddle : ℕ → ℤ}
    (htwiddle : ∀ r, Reduced (twiddle r)) (i : ℕ) : PolyReduced (polyStage twiddle i f) := by
  intro j
  unfold Mam.polyStage
  split_ifs
  · exact reduced_polyCoeffAdd (hf _) (reduced_polyCoeffMul (hf _) (htwiddle _))
  · exact reduced_polyCoeffSub (hf _) (reduced_polyCoeffMul (hf _) (htwiddle _))

theorem PolyReduced.polyStages (hf : PolyReduced f) {twiddle : ℕ → ℤ}
    (htwiddle : ∀ r, Reduced (twiddle r)) (i : ℕ) : PolyReduced (polyStages twiddle i f) := by
  induction i generalizing f with
  | zero => exact hf
  | succ i ih => exact ih (hf.polyStage htwiddle i)

theorem PolyReduced.polyPermute (hf : PolyReduced f) : PolyReduced (polyPermute f) := by
  have hfold : ∀ (l : List ℕ) (u : Poly), PolyReduced u →
      PolyReduced (l.foldl (fun (u : Poly) i => Function.update u (polyIdxRev i) (f i)) u) := by
    intro l
    induction l with
    | nil => exact fun _ hu => hu
    | cons i l ih =>
      intro u hu
      refine ih _ fun j => ?_
      dsimp only
      rw [Function.update_apply]
      split_ifs
      · exact hf i
      · exact hu j
  exact hfold _ _ fun _ => ⟨by decide, by decide⟩

theorem PolyReduced.polyNtt (hf : PolyReduced f) : PolyReduced (polyNtt f) :=
  PolyReduced.polyStages
    (PolyReduced.polyPermute fun i => reduced_polyCoeffMul (reduced_polyGammaExp i) (hf i))
    (fun _ => reduced_polyGammaExp _) _

theorem PolyReduced.polyIntt (ht : PolyReduced t) : PolyReduced (polyIntt t) := fun i =>
  reduced_polyCoeffMul (reduced_polyCoeffMul ⟨by decide, by decide⟩ (reduced_polyGammaExp _))
    (ht.polyPermute.polyStages (fun _ => reduced_polyGammaExp _) _ i)

theorem PolyReduced.polyConv (hf : PolyReduced f) (hg : PolyReduced g) :
    PolyReduced (polyConv f g) := fun i => reduced_polyCoeffMul (hf i) (hg i)

theorem PolyReduced.polyAdd (hf : PolyReduced f) (hg : PolyReduced g) :
    PolyReduced (polyAdd f g) := fun i => reduced_polyCoeffAdd (hf i) (hg i)

theorem PolyReduced.polySub (hf : PolyReduced f) (hg : PolyReduced g) :
    PolyReduced (polySub f g) := fun i => reduced_polyCoeffSub (hf i) (hg i)

theorem polyReduced_small (ts : List Trit) : PolyReduced (polySmallFromTrits ts) := by
  intro i
  have htrit := Trit.isTrit_toInt (ts.getD i .zero)
  rcases htrit with h | h | h <;> rw [polySmallFromTrits, h] <;> exact ⟨by decide, by decide⟩

theorem PolyReduced.polySmallMul3 (hf : PolyReduced f) : PolyReduced (polySmallMul3 f) := fun i =>
  reduced_polyCoeffAdd (reduced_polyCoeffAdd (hf i) (hf i)) (hf i)

theorem residue_polySmallMul3 (f : Poly) (i : ℕ) :
    residue (polySmallMul3 f) i = 3 * residue f i := by
  rw [residue, polySmallMul3, cast_polyCoeffAdd, cast_polyCoeffAdd, residue]
  ring

theorem residue_polySmall3Add1 (f : Poly) (i : ℕ) :
    residue (polySmall3Add1 f) i = residue f i + if i = 0 then 1 else 0 := by
  rw [residue, polySmall3Add1, Function.update_apply]
  split_ifs with hi
  · rw [hi, Int.cast_add, polyCoeffOne, Int.cast_one, residue]
  · rw [add_zero, residue]

/-- A small polynomial times three has room for the one. -/
theorem polyReduced_small3 (ts : List Trit) :
    PolyReduced (polySmall3Add1 (polySmallMul3 (polySmallFromTrits ts))) := by
  intro i
  rw [polySmall3Add1, Function.update_apply]
  split_ifs
  · have htrit := Trit.isTrit_toInt (ts.getD 0 .zero)
    rcases htrit with h | h | h <;> rw [polySmallMul3, polySmallFromTrits, h] <;>
      exact ⟨by decide, by decide⟩
  · exact (polyReduced_small ts).polySmallMul3 i

/-! ## Inverses -/

theorem polyCoeffInvFrom_spec {a : ℤ} (ha : Reduced a) (rounds : ℕ) {e : ℤ} {n : ℕ}
    (he : Reduced e) (hval : (e : Coeff) = (a : Coeff) ^ n) :
    Reduced (polyCoeffInvFrom a rounds e) ∧
      ((polyCoeffInvFrom a rounds e : ℤ) : Coeff) = (a : Coeff) ^ (2 ^ rounds * (n + 1) - 1) := by
  induction rounds generalizing e n with
  | zero => exact ⟨he, hval.trans (by rw [pow_zero, Nat.one_mul, Nat.add_sub_cancel])⟩
  | succ rounds ih =>
    have hnext := reduced_polyCoeffMul (reduced_polyCoeffMul he he) ha
    have hpow : ((polyCoeffMul (polyCoeffMul e e) a : ℤ) : Coeff) = (a : Coeff) ^ (2 * n + 1) := by
      rw [cast_polyCoeffMul, cast_polyCoeffMul, hval]
      ring
    obtain ⟨hreduced, hrest⟩ := ih hnext hpow
    refine ⟨hreduced, hrest.trans ?_⟩
    rw [show 2 ^ rounds * (2 * n + 1 + 1) = 2 ^ (rounds + 1) * (n + 1) by ring]

/-- **Every coefficient but zero has its inverse**, and no assertion fails. -/
theorem polyCoeffInv_spec {a : ℤ} (ha : Reduced a) (hne : a ≠ 0) :
    ∃ e, polyCoeffInv a = some e ∧ Reduced e ∧ (e : Coeff) = (a : Coeff)⁻¹ := by
  obtain ⟨hreduced, hval⟩ := polyCoeffInvFrom_spec ha 11 ha (pow_one (a : Coeff)).symm
  have hzero : (a : Coeff) ≠ 0 := by
    intro hzero
    exact hne (ha.eq ⟨by decide, by decide⟩ (hzero.trans Int.cast_zero.symm))
  have hfermat : (a : Coeff) ^ 12288 = 1 := ZMod.pow_card_sub_one_eq_one hzero
  unfold polyCoeffInv
  generalize polyCoeffInvFrom a 11 a = e at *
  dsimp only
  have ht := reduced_polyCoeffMul hreduced ha
  have he := reduced_polyCoeffMul (reduced_polyCoeffMul ht ht) hreduced
  have hpow : ((polyCoeffMul (polyCoeffMul (polyCoeffMul e a) (polyCoeffMul e a)) e : ℤ) : Coeff) *
      a = 1 := by
    rw [cast_polyCoeffMul, cast_polyCoeffMul, cast_polyCoeffMul, hval, ← hfermat]
    ring
  have hone : polyCoeffMul (polyCoeffMul (polyCoeffMul (polyCoeffMul e a) (polyCoeffMul e a)) e) a =
      polyCoeffOne := by
    refine (reduced_polyCoeffMul he ha).eq ⟨by decide, by decide⟩ ?_
    rw [cast_polyCoeffMul, hpow, polyCoeffOne, Int.cast_one]
  exact ⟨_, if_pos hone, he, eq_inv_of_mul_eq_one_left hpow⟩

theorem polyHasInv_iff (t : Poly) : polyHasInv t = true ↔ ∀ i < polyN, t i ≠ 0 := by
  rw [polyHasInv, List.all_eq_true]
  simp only [List.mem_range, decide_eq_true_eq]

/-- **A polynomial with inverses at all places is inverted.** -/
theorem polyInv_spec (ht : PolyReduced t) (hinv : polyHasInv t = true) :
    ∃ h, polyInv t = some h ∧ PolyReduced h ∧ ∀ i < polyN, residue h i = (residue t i)⁻¹ := by
  have hspec := fun i hi => polyCoeffInv_spec (ht i) ((polyHasInv_iff t).mp hinv i hi)
  have hall : ((List.range polyN).all fun i => (polyCoeffInv (t i)).isSome) = true := by
    rw [List.all_eq_true]
    intro i hi
    obtain ⟨e, he, -⟩ := hspec i (List.mem_range.mp hi)
    rw [he]
    rfl
  refine ⟨fun i => (polyCoeffInv (t i)).getD 0, if_pos hall, fun i => ?_, fun i hi => ?_⟩
  · dsimp only
    by_cases hzero : t i = 0
    · have hnone : polyCoeffInv 0 = none := by decide +kernel
      rw [hzero, hnone]
      exact ⟨by decide, by decide⟩
    · obtain ⟨e, he, hreduced, -⟩ := polyCoeffInv_spec (ht i) hzero
      rw [he]
      exact hreduced
  · obtain ⟨e, he, -, hval⟩ := hspec i hi
    rw [residue, he, Option.getD_some]
    exact hval

/-! ## Trits -/

theorem polyCoeffToTrint9_eq {c : ℤ} (hc : Reduced c) : polyCoeffToTrint9 c = c :=
  if_neg (not_lt.mpr hc.2)

theorem get9_drop_polyToTrits (hf : PolyReduced f) {i : ℕ} (hi : i < polyN) :
    get9 ((polyToTrits f).drop (9 * i)) = f i := by
  have hblock : block 9 (polyToTrits f) i = put9 (polyCoeffToTrint9 (f i)) := by
    rw [polyToTrits, List.flatMap_def]
    exact block_flatten_range (f := fun i => put9 (polyCoeffToTrint9 (f i)))
      (fun _ _ => length_put9 _) hi
  have hsplit := List.take_append_drop 9 ((polyToTrits f).drop (9 * i))
  have hbound : 2 * |f i| < 3 ^ 9 := by
    have habs := abs_le.mpr (hf i)
    omega
  rw [block] at hblock
  rw [← hsplit, hblock, polyCoeffToTrint9_eq (hf i), get9_put9 hbound]

theorem length_polyToTrits (f : Poly) : (polyToTrits f).length = 9 * polyN := by
  rw [polyToTrits, List.flatMap_def]
  exact length_flatten_range fun _ _ => length_put9 _

/-- **Coefficients are read back.** -/
theorem polyFromTrits_polyToTrits (hf : PolyReduced f) :
    ∃ f', polyFromTrits (polyToTrits f) = some f' ∧ PolyReduced f' ∧ ∀ i < polyN, f' i = f i := by
  refine ⟨fun i => get9 ((polyToTrits f).drop (9 * i)), if_pos ?_, fun i => ?_,
    fun i hi => get9_drop_polyToTrits hf hi⟩
  swap
  · dsimp only
    rcases Nat.lt_or_ge i polyN with hi | hge
    · rw [get9_drop_polyToTrits hf hi]
      exact hf i
    · rw [List.drop_eq_nil_of_le (by rw [length_polyToTrits]; omega)]
      exact ⟨by decide, by decide⟩
  rw [List.all_eq_true]
  intro i hi
  rw [get9_drop_polyToTrits hf (List.mem_range.mp hi), decide_eq_true_eq]
  exact hf i

theorem length_polyRoundToTrits (f : Poly) : (polyRoundToTrits f).length = polyN := by
  rw [polyRoundToTrits, List.length_map, List.length_range]

end Mam

end Entangled
