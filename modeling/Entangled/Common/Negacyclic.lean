import Mathlib.Algebra.BigOperators.Intervals
import Mathlib.Algebra.BigOperators.Ring.Finset
import Mathlib.RingTheory.AdjoinRoot
import Mathlib.RingTheory.RootsOfUnity.PrimitiveRoots
/-!
# Polynomials in which a power of the unknown is minus one

Two of them are multiplied by their values at the points where that power is minus one. The values
are found in stages, each of which halves how far the terms of a sum are apart, and the same stages
with the inverse root lead back.
-/

namespace Entangled

namespace Negacyclic

open Finset

section Ring

variable {R : Type*} [CommRing R]

/-- The value at `x`. -/
def eval (n : ℕ) (f : ℕ → R) (x : R) : R := ∑ i ∈ range n, f i * x ^ i

/-- The product, with `x ^ n = -1`. -/
def mul (n : ℕ) (f g : ℕ → R) (k : ℕ) : R :=
  ∑ i ∈ range n, f i * if i ≤ k then g (k - i) else -g (n + k - i)

variable {n : ℕ} {f g : ℕ → R} {x : R}

theorem eval_congr (h : ∀ i < n, f i = g i) : eval n f x = eval n g x :=
  sum_congr rfl fun i hi => by rw [h i (mem_range.mp hi)]

theorem eval_add (n : ℕ) (f g : ℕ → R) (x : R) :
    eval n (fun i => f i + g i) x = eval n f x + eval n g x := by
  simp only [eval, add_mul, sum_add_distrib]

theorem eval_const_mul (n : ℕ) (c : R) (f : ℕ → R) (x : R) :
    eval n (fun i => c * f i) x = c * eval n f x := by
  simp only [eval, mul_assoc, mul_sum]

/-- A one at the front. -/
theorem eval_one (hn : 0 < n) (x : R) : eval n (fun i => if i = 0 then 1 else 0) x = 1 := by
  rw [eval, sum_eq_single_of_mem 0 (mem_range.mpr hn)]
  · simp
  · intro i _ hi
    rw [if_neg hi, zero_mul]

/-- What is pushed out at the end comes in again with the other sign. -/
theorem sum_shift (hx : x ^ n = -1) {i : ℕ} (hi : i ≤ n) :
    ∑ k ∈ range n, (if i ≤ k then g (k - i) else -g (n + k - i)) * x ^ k = x ^ i * eval n g x := by
  obtain ⟨d, rfl⟩ := Nat.exists_eq_add_of_le hi
  have hlow : ∑ k ∈ range i, (if i ≤ k then g (k - i) else -g (i + d + k - i)) * x ^ k =
      x ^ i * ∑ k ∈ range i, g (d + k) * x ^ (d + k) := by
    rw [mul_sum]
    refine sum_congr rfl fun k hk => ?_
    have hlt := mem_range.mp hk
    rw [if_neg (by omega), show i + d + k - i = d + k by omega, neg_mul, ← mul_neg,
      mul_left_comm (x ^ i), ← pow_add, ← Nat.add_assoc, pow_add, hx, neg_one_mul]
  have hhigh : ∑ k ∈ range d, (if i ≤ i + k then g (i + k - i) else -g (i + d + (i + k) - i)) *
      x ^ (i + k) = x ^ i * ∑ k ∈ range d, g k * x ^ k := by
    rw [mul_sum]
    refine sum_congr rfl fun k _ => ?_
    rw [if_pos (Nat.le_add_right i k), Nat.add_sub_cancel_left, pow_add]
    ring
  rw [sum_range_add, hlow, hhigh, eval, Nat.add_comm i d, sum_range_add, mul_add, add_comm]

/-- **The value of a product.** -/
theorem eval_mul (hx : x ^ n = -1) : eval n (mul n f g) x = eval n f x * eval n g x := by
  unfold mul
  rw [eval]
  simp only [sum_mul]
  rw [sum_comm, eval, sum_mul]
  refine sum_congr rfl fun i hi => ?_
  simp only [mul_assoc]
  rw [← mul_sum, sum_shift hx (mem_range.mp hi).le]

/-! ## The stages -/

/-- The lowest `b` bits of a number, the other way round. -/
def rev : ℕ → ℕ → ℕ
  | 0, _ => 0
  | b + 1, i => 2 ^ b * (i % 2) + rev b (i / 2)

theorem rev_lt (b i : ℕ) : rev b i < 2 ^ b := by
  induction b generalizing i with
  | zero => exact Nat.one_pos
  | succ b ih =>
    have hrest := ih (i / 2)
    have hbit := Nat.mod_lt i two_pos
    rw [rev, pow_succ]
    nlinarith

theorem rev_add (b : ℕ) {y : ℕ} (hy : y < 2 ^ b) {x : ℕ} (hx : x < 2) :
    rev (b + 1) (2 ^ b * x + y) = 2 * rev b y + x := by
  induction b generalizing y with
  | zero =>
    obtain rfl : y = 0 := Nat.lt_one_iff.mp hy
    simp only [rev, pow_zero, one_mul, Nat.add_zero, Nat.mod_eq_of_lt hx, Nat.mul_zero, Nat.zero_add]
  | succ b ih =>
    have hsplit : 2 ^ (b + 1) * x + y = 2 * (2 ^ b * x) + y := by ring
    have hmod : (2 ^ (b + 1) * x + y) % 2 = y % 2 := by omega
    have hdiv : (2 ^ (b + 1) * x + y) / 2 = 2 ^ b * x + y / 2 := by omega
    rw [rev, hmod, hdiv, ih (by rw [pow_succ] at hy; omega), rev]
    ring

/-- Twice the other way round. -/
theorem rev_rev (b : ℕ) {i : ℕ} (hi : i < 2 ^ b) : rev b (rev b i) = i := by
  induction b generalizing i with
  | zero => exact (Nat.lt_one_iff.mp hi).symm
  | succ b ih =>
    have hrest := @ih (i / 2) (by rw [pow_succ] at hi; omega)
    have hunfold : rev (b + 1) i = 2 ^ b * (i % 2) + rev b (i / 2) := rfl
    rw [hunfold, rev_add b (rev_lt b _) (Nat.mod_lt i two_pos), hrest]
    exact Nat.div_add_mod i 2

/-- One stage: from neighbours to terms that are `half` apart. `w` gives the powers of the root. -/
def stage (w : ℕ → R) (half t : ℕ) (u : ℕ → R) : ℕ → R := fun j =>
  if j < half then u (2 * j) + u (2 * j + 1) * w (j - j % 2 ^ t)
  else
    let j := j - half
    u (2 * j) - u (2 * j + 1) * w (j - j % 2 ^ t)

/-- The stages from `t` on. -/
def stages (w : ℕ → R) (half : ℕ) : ℕ → (ℕ → R) → ℕ → R
  | 0, u => u
  | t + 1, u => stages w half t (stage w half t u)

/-- Between two stages: a place holds a sum over the terms that are `2 ^ t` apart. -/
def Halfway (w : R) (a : ℕ → R) (s t : ℕ) (u : ℕ → R) : Prop :=
  ∀ c < 2 ^ s, ∀ p < 2 ^ t,
    u (c * 2 ^ t + p) = ∑ l ∈ range (2 ^ s), a (l * 2 ^ t + rev t p) * w ^ (2 ^ t * l * c)

theorem sum_range_two_mul (f : ℕ → R) (m : ℕ) :
    ∑ l ∈ range (2 * m), f l = ∑ l ∈ range m, f (2 * l) + ∑ l ∈ range m, f (2 * l + 1) := by
  induction m with
  | zero => simp
  | succ m ih =>
    rw [Nat.mul_succ, sum_range_succ, sum_range_succ, ih, sum_range_succ, sum_range_succ]
    ring

/-- Of the powers only those below `half` are used. -/
theorem stages_congr {w w' : ℕ → R} {half : ℕ} (hw : ∀ r < half, w r = w' r) (t : ℕ)
    {u u' : ℕ → R} (hu : ∀ j < 2 * half, u j = u' j) {j : ℕ} (hj : j < 2 * half) :
    stages w half t u j = stages w' half t u' j := by
  induction t generalizing u u' j with
  | zero => exact hu j hj
  | succ t ih =>
    refine ih (fun j hj => ?_) hj
    rw [stage, stage]
    split_ifs with hlow
    · rw [hu _ (by omega), hu _ (by omega), hw _ (by omega)]
    · dsimp only
      rw [hu _ (by omega), hu _ (by omega), hw _ (by omega)]

variable {w : R} {a u : ℕ → R} {s t : ℕ}

/-- The two sums that a stage puts together. -/
theorem Halfway.split (hu : Halfway w a s (t + 1) u) {c p : ℕ} (hc : c < 2 ^ s) (hp : p < 2 ^ t)
    (e : R) (he : e ^ 2 = 1) :
    u (2 * (c * 2 ^ t + p)) + e * (u (2 * (c * 2 ^ t + p) + 1) * w ^ (2 ^ t * c)) =
      ∑ l ∈ range (2 ^ (s + 1)), a (l * 2 ^ t + rev t p) * (e ^ l * w ^ (2 ^ t * l * c)) := by
  have heven := hu c hc (2 * p) (by rw [pow_succ]; omega)
  have hodd := hu c hc (2 * p + 1) (by rw [pow_succ]; omega)
  rw [show c * 2 ^ (t + 1) + 2 * p = 2 * (c * 2 ^ t + p) by ring, rev, Nat.mul_mod_right,
    Nat.mul_zero, Nat.zero_add, Nat.mul_div_cancel_left p two_pos] at heven
  rw [show c * 2 ^ (t + 1) + (2 * p + 1) = 2 * (c * 2 ^ t + p) + 1 by ring, rev,
    show (2 * p + 1) % 2 = 1 by omega, show (2 * p + 1) / 2 = p by omega, Nat.mul_one] at hodd
  rw [heven, hodd, pow_succ 2 s, Nat.mul_comm (2 ^ s) 2, sum_range_two_mul, sum_mul, mul_sum]
  refine congrArg₂ (· + ·) (sum_congr rfl fun l _ => ?_) (sum_congr rfl fun l _ => ?_)
  · rw [show l * 2 ^ (t + 1) = 2 * l * 2 ^ t by ring, pow_mul e, he, one_pow, one_mul,
      show 2 ^ (t + 1) * l * c = 2 ^ t * (2 * l) * c by ring]
  · rw [show l * 2 ^ (t + 1) + (2 ^ t + rev t p) = (2 * l + 1) * 2 ^ t + rev t p by ring,
      pow_succ e, pow_mul e, he, one_pow, one_mul,
      show 2 ^ t * (2 * l + 1) * c = 2 ^ (t + 1) * l * c + 2 ^ t * c by ring, pow_add]
    ring

/-- **One stage** doubles the number of terms in a sum. -/
theorem Halfway.stage (hw : w ^ 2 ^ (s + t) = -1) (hu : Halfway w a s (t + 1) u) :
    Halfway w a (s + 1) t (stage (fun r => w ^ r) (2 ^ (s + t)) t u) := by
  intro c hc p hp
  have hpow : 2 ^ (s + t) = 2 ^ s * 2 ^ t := pow_add 2 s t
  have hpos : 0 < 2 ^ t := Nat.two_pow_pos t
  have hr : ∀ d, d * 2 ^ t + p - (d * 2 ^ t + p) % 2 ^ t = 2 ^ t * d := by
    intro d
    rw [Nat.mul_comm d, Nat.mul_add_mod, Nat.mod_eq_of_lt hp, Nat.add_sub_cancel]
  rw [Negacyclic.stage]
  rcases Nat.lt_or_ge c (2 ^ s) with hlow | hhigh
  · have hj : c * 2 ^ t + p < 2 ^ (s + t) := by nlinarith
    have hsum := hu.split hlow hp 1 (one_pow 2)
    simp only [one_pow, one_mul] at hsum
    rw [if_pos hj, hr, hsum]
  · obtain ⟨d, rfl⟩ := Nat.exists_eq_add_of_le hhigh
    have hd : d < 2 ^ s := by
      rw [pow_succ] at hc
      omega
    have hj : (2 ^ s + d) * 2 ^ t + p - 2 ^ (s + t) = d * 2 ^ t + p := by
      rw [hpow, Nat.add_mul]
      omega
    have hnot : ¬ (2 ^ s + d) * 2 ^ t + p < 2 ^ (s + t) := by
      rw [hpow, Nat.add_mul]
      omega
    have hsum := hu.split hd hp (-1) (neg_one_sq)
    rw [neg_one_mul, ← sub_eq_add_neg] at hsum
    rw [if_neg hnot]
    dsimp only
    rw [hj, hr, hsum]
    refine sum_congr rfl fun l _ => ?_
    rw [show 2 ^ t * l * (2 ^ s + d) = 2 ^ (s + t) * l + 2 ^ t * l * d by rw [hpow]; ring,
      pow_add, pow_mul w (2 ^ (s + t)), hw]

/-- **All stages**: the values at the powers of the root. -/
theorem stages_spec (hw : w ^ 2 ^ (s + t) = -1) (hu : Halfway w a s (t + 1) u) {c : ℕ}
    (hc : c < 2 ^ (s + t + 1)) :
    stages (fun r => w ^ r) (2 ^ (s + t)) (t + 1) u c =
      ∑ l ∈ range (2 ^ (s + t + 1)), a l * (w ^ c) ^ l := by
  induction t generalizing s u with
  | zero =>
    have hlast := hu.stage hw c hc 0 Nat.one_pos
    simp only [pow_zero, Nat.mul_one, Nat.add_zero] at hlast
    rw [stages, stages, Nat.add_zero, hlast]
    refine sum_congr rfl fun l _ => ?_
    rw [rev, Nat.add_zero, Nat.one_mul, Nat.mul_comm l, pow_mul]
  | succ t ih =>
    have hnext := hu.stage hw
    rw [show s + (t + 1) = s + 1 + t by ring] at hw hc ⊢
    rw [stages]
    exact ih hw (by rwa [show s + (t + 1) = s + 1 + t by ring] at hnext) hc

theorem halfway_start {b : ℕ} (hu : ∀ i < 2 ^ b, u (rev b i) = a i) : Halfway w a 0 b u := by
  intro c hc p hp
  obtain rfl : c = 0 := Nat.lt_one_iff.mp hc
  rw [pow_zero, range_one, sum_singleton, Nat.zero_mul, Nat.zero_add, Nat.mul_zero, pow_zero,
    mul_one, Nat.zero_add, ← hu _ (rev_lt b p), rev_rev b hp]

end Ring

/-! ## The way back -/

section Field

variable {K : Type*} [Field K] {n : ℕ} {w : K}

/-- The powers of a root other than one add up to nothing. -/
theorem sum_pow_eq_zero (hw : IsPrimitiveRoot w n) {j k : ℕ} (hj : j < n) (hk : k < n)
    (hne : j ≠ k) : ∑ l ∈ range n, (w ^ j * (w⁻¹) ^ k) ^ l = 0 := by
  have hzero : w ≠ 0 := hw.ne_zero (by omega)
  have hone : w ^ j * (w⁻¹) ^ k ≠ 1 := by
    intro heq
    rw [inv_pow, mul_inv_eq_one₀ (pow_ne_zero k hzero)] at heq
    exact hne (hw.pow_inj hj hk heq)
  have hpow : (w ^ j * (w⁻¹) ^ k) ^ n = 1 := by
    rw [mul_pow, ← pow_mul, ← pow_mul, Nat.mul_comm j, Nat.mul_comm k, pow_mul, pow_mul, inv_pow,
      hw.pow_eq_one, inv_one, one_pow, one_pow, mul_one]
  have hgeom := mul_geom_sum (w ^ j * (w⁻¹) ^ k) n
  rw [hpow, sub_self] at hgeom
  exact (mul_eq_zero.mp hgeom).resolve_left (sub_ne_zero.mpr hone)

/-- **The inverse root leads back**, up to the number of terms. -/
theorem sum_inverse (hw : IsPrimitiveRoot w n) (a : ℕ → K) {k : ℕ} (hk : k < n) :
    ∑ l ∈ range n, (∑ j ∈ range n, a j * (w ^ l) ^ j) * ((w⁻¹) ^ k) ^ l = n * a k := by
  have hswap : ∀ l j : ℕ, a j * (w ^ l) ^ j * ((w⁻¹) ^ k) ^ l = a j * (w ^ j * (w⁻¹) ^ k) ^ l := by
    intro l j
    rw [mul_pow, ← pow_mul w l, ← pow_mul w j, Nat.mul_comm l, mul_assoc]
  simp only [sum_mul, hswap]
  rw [sum_comm]
  simp only [← mul_sum]
  rw [sum_eq_single_of_mem k (mem_range.mpr hk)]
  · have hone : w ^ k * (w⁻¹) ^ k = 1 := by
      rw [← mul_pow, mul_inv_cancel₀ (hw.ne_zero (by omega)), one_pow]
    simp only [hone, one_pow, sum_const, card_range, nsmul_eq_mul, mul_one]
    exact mul_comm _ _
  · intro j hj hne
    rw [sum_pow_eq_zero hw (mem_range.mp hj) hk hne, mul_zero]

end Field

/-! ## The same product in the quotient -/

section Quotient

open Polynomial

variable {R : Type*} [CommRing R] (n : ℕ) (f g : ℕ → R)

/-- The polynomial with these coefficients. -/
noncomputable def toPolynomial : R[X] := ∑ i ∈ range n, C (f i) * X ^ i

theorem mk_toPolynomial (p : R[X]) :
    AdjoinRoot.mk p (toPolynomial n f) =
      eval n (fun i => AdjoinRoot.of p (f i)) (AdjoinRoot.root p) := by
  rw [toPolynomial, map_sum, eval]
  refine sum_congr rfl fun i _ => ?_
  rw [map_mul, map_pow, AdjoinRoot.mk_C, AdjoinRoot.mk_X]

theorem map_mul_negacyclic {S : Type*} [CommRing S] (φ : R →+* S) (k : ℕ) :
    φ (mul n f g k) = mul n (fun i => φ (f i)) (fun i => φ (g i)) k := by
  rw [mul, mul, map_sum]
  refine sum_congr rfl fun i _ => ?_
  rw [RingHom.map_mul, apply_ite φ, RingHom.map_neg]

/-- The third polynomial is the product of the first two modulo `x ^ n + 1`. -/
def IsProduct (h : ℕ → R) : Prop :=
  (X ^ n + 1 : R[X]) ∣ toPolynomial n f * toPolynomial n g - toPolynomial n h

theorem isProduct_mul : IsProduct n f g (mul n f g) := by
  have hroot : AdjoinRoot.root (X ^ n + 1 : R[X]) ^ n = -1 := by
    have hzero : AdjoinRoot.mk (X ^ n + 1 : R[X]) (X ^ n + 1) = 0 := AdjoinRoot.mk_self
    rw [map_add, map_pow, map_one, AdjoinRoot.mk_X] at hzero
    exact eq_neg_of_add_eq_zero_left hzero
  rw [IsProduct, ← AdjoinRoot.mk_eq_mk, map_mul, mk_toPolynomial, mk_toPolynomial, mk_toPolynomial,
    ← eval_mul hroot]
  exact eval_congr fun i _ => (map_mul_negacyclic n f g _ i).symm

variable {n f g}

theorem toPolynomial_congr (h : ∀ i < n, f i = g i) : toPolynomial n f = toPolynomial n g :=
  sum_congr rfl fun i hi => by rw [h i (mem_range.mp hi)]

/-- **The product is found place by place.** -/
theorem isProduct_of_eq_mul {h : ℕ → R} (heq : ∀ i < n, h i = mul n f g i) :
    IsProduct n f g h := by
  rw [IsProduct, toPolynomial_congr heq]
  exact isProduct_mul n f g

end Quotient
end Negacyclic

end Entangled
