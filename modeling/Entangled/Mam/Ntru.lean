import Entangled.Mam.Poly
import Entangled.Mam.Wots
/-!
# Session keys under NTRU

A key is masked with what the spongos gives for `r * h`, its authentication follows, and both
together are a polynomial `m` with small coefficients, to which `r * h` is added. Times `1 + 3 f`
this is `m + 3 (r g + m f)`, and as long as no coefficient goes over half of `q`, `m` is what is left
of it modulo three.

The coefficients are at most `1 + 3 * 2048 = 6145`, and half of `q` is `6144`. So one value is too
much.
-/

namespace Entangled

namespace Mam

open Negacyclic Spongos

/-- `MAM_NTRU_SK_SIZE`. -/
def ntruSkSize : ℕ := 1024

/-- `MAM_NTRU_KEY_SIZE`. -/
def ntruKeySize : ℕ := 243

/-- `mam_ntru_sk_t`, with the key of `mam_ntru_pk_t` and the polynomial. -/
structure NtruSkPoly where
  publicKey : List Trit
  secretKey : List Trit
  f : Poly

/-- `trits_inc`. -/
def tritsInc : List Trit → Bool × List Trit
  | [] => (false, [])
  | t :: x =>
    let t := t.add .pos
    if t ≠ .zero then (true, t :: x)
    else
      let r := tritsInc x
      (r.1, t :: r.2)

/-- The digits in the order that `tritsInc` goes through them. -/
def incDigit : Trit → ℕ
  | .zero => 0
  | .pos => 1
  | .neg => 2

/-- How often `tritsInc` has been called. -/
def counted : List Trit → ℕ
  | [] => 0
  | t :: x => incDigit t + 3 * counted x

theorem counted_lt (x : List Trit) : counted x < 3 ^ x.length := by
  induction x with
  | nil => exact Nat.one_pos
  | cons t x ih =>
    have hdigit : incDigit t < 3 := by cases t <;> decide
    rw [counted, List.length_cons, pow_succ]
    omega

theorem tritsInc_spec (x : List Trit) : (tritsInc x).2.length = x.length ∧
    ((tritsInc x).1 = true → counted (tritsInc x).2 = counted x + 1) := by
  induction x with
  | nil => exact ⟨rfl, fun h => Bool.noConfusion h⟩
  | cons t x ih =>
    cases t with
    | zero => exact ⟨rfl, fun _ => Nat.add_right_comm 0 1 _⟩
    | pos => exact ⟨rfl, fun _ => Nat.add_right_comm 1 1 _⟩
    | neg =>
      refine ⟨congrArg (· + 1) ih.1, fun h => ?_⟩
      have hrest := ih.2 h
      show 0 + 3 * counted (tritsInc x).2 = 2 + 3 * counted x + 1
      omega

section

variable (T : Troika)

/-- `NTT(1+3f)`, of the first half of the secret trits. -/
def ntruF (secretKey : List Trit) : Poly :=
  polyNtt (polySmall3Add1 (polySmallMul3 (polySmallFromTrits (secretKey.take ntruSkSize))))

/-- `NTT(g)`, of the second half. -/
def ntruG (secretKey : List Trit) : Poly :=
  polyNtt (polySmallFromTrits (secretKey.drop ntruSkSize))

/-- The loop of `ntru_sk_gen`: the secret trits it ends with. The destination is
`MAM_PRNG_DST_NTRU_KEY`. -/
def ntruSkGenFrom (prng nonce nonceI : List Trit) : List Trit :=
  let secretKey := prngGen5 T prng 2 [nonce, nonceI] (2 * ntruSkSize)
  if polyHasInv (ntruF secretKey) && polyHasInv (ntruG secretKey) then secretKey
  else
    let r := tritsInc nonceI
    if _h : r.1 = true then ntruSkGenFrom prng nonce r.2 else secretKey
termination_by 3 ^ nonceI.length - counted nonceI
decreasing_by
  obtain ⟨hlen, hcounted⟩ := tritsInc_spec nonceI
  have hlt := counted_lt (tritsInc nonceI).2
  rw [hlen] at hlt ⊢
  have hnext := hcounted _h
  omega

/-- The secret trits of `ntru_sk_gen`. -/
def ntruSecret (prng nonce : List Trit) : List Trit :=
  ntruSkGenFrom T prng nonce (List.replicate 81 .zero)

/-- `ntru_sk_gen`, unless an assertion fails. -/
def ntruSkGen (prng nonce : List Trit) : Option NtruSkPoly := do
  let secretKey := ntruSecret T prng nonce
  let f := ntruF secretKey
  let g := polySmallMul3 (ntruG secretKey)
  let h ← polyInv f
  let h := polyIntt (polyConv g h)
  pure ⟨polyToTrits h, secretKey.take ntruSkSize, f⟩

/-- `AE(r*h;K)`, and the spongos: the masked key and what authenticates it. -/
def ntruSeal (rh sessionKey : List Trit) : List Trit × Spongos :=
  let spongos := commit T (absorb T init rh)
  let k := encr T spongos sessionKey
  let m := squeeze T k.2 (ntruSkSize - ntruKeySize)
  (k.1 ++ m.1, m.2)

/-- `r*h`, of a public key. -/
def ntruRh (r : List Trit) (h : Poly) : Poly :=
  polyIntt (polyConv (polyNtt (polySmallFromTrits r)) (polyNtt h))

/-- `ntru_pk_encr_r`: the encrypted session key and the spongos, unless it is
`RC_MAM_NTRU_POLY_FAILED`. -/
def ntruPkEncrR (publicKey r sessionKey : List Trit) : Option (List Trit × Spongos) := do
  let h ← polyFromTrits publicKey
  let s := ntruRh r h
  let m := ntruSeal T (polyToTrits s) sessionKey
  pure (polyToTrits (polyAdd (polySmallFromTrits m.1) s), m.2)

/-- The first half of `ntru_sk_decr`: what is rounded to trits. -/
def ntruRound (sk : NtruSkPoly) (s : Poly) : List Trit :=
  polyRoundToTrits (polyIntt (polyConv (polyNtt s) sk.f))

/-- `ntru_sk_decr`: whether the key is authentic, the session key and the spongos. -/
def ntruSkDecr (sk : NtruSkPoly) (spongos : Spongos) (encryptedSessionKey sessionKey : List Trit) :
    Bool × List Trit × Spongos :=
  match polyFromTrits encryptedSessionKey with
  | none => (false, sessionKey, spongos)
  | some s =>
    let kt := ntruRound sk s
    let rh := polyToTrits (polySub s (polySmallFromTrits kt))
    let spongos := commit T (absorb T init rh)
    let k := decr T spongos (kt.take ntruKeySize)
    let m := squeeze T k.2 (ntruSkSize - ntruKeySize)
    (m.1 == kt.drop ntruKeySize, k.1, m.2)

end

/-! ## The bound -/

/-- The coefficients are trits. -/
def Small (f : Poly) : Prop := ∀ i, |f i| ≤ 1

variable {f g m r : Poly} {n k : ℕ}

theorem small_polySmallFromTrits (ts : List Trit) : Small (polySmallFromTrits ts) := by
  intro i
  have htrit := Trit.isTrit_toInt (ts.getD i .zero)
  rcases htrit with h | h | h <;> rw [polySmallFromTrits, h] <;> decide

/-- The factor of the second polynomial in a term of a product. -/
theorem Small.factor (hg : Small g) (i : ℕ) :
    |if i ≤ k then g (k - i) else -g (n + k - i)| ≤ 1 := by
  split_ifs
  · exact hg _
  · rw [abs_neg]
    exact hg _

theorem Small.term (hf : Small f) (hg : Small g) (i : ℕ) :
    |f i * if i ≤ k then g (k - i) else -g (n + k - i)| ≤ 1 := by
  rw [abs_mul]
  exact mul_le_one₀ (hf i) (abs_nonneg _) (hg.factor i)

/-- A coefficient of a product. -/
theorem Small.abs_mul_le (hf : Small f) (hg : Small g) : |mul n f g k| ≤ n := by
  refine (Finset.abs_sum_le_sum_abs _ _).trans ?_
  refine (Finset.sum_le_card_nsmul _ _ 1 fun i _ => hf.term hg i).trans ?_
  rw [Finset.card_range, nsmul_eq_mul, mul_one]

/-- With a term that is zero it is smaller. -/
theorem Small.abs_mul_lt (hf : Small f) (hg : Small g) {i : ℕ} (hi : i < n)
    (hzero : (f i * if i ≤ k then g (k - i) else -g (n + k - i)) = 0) : |mul n f g k| < n := by
  refine (Finset.abs_sum_le_sum_abs _ _).trans_lt ?_
  have hlt := Finset.sum_lt_sum (fun j _ => hf.term (n := n) (k := k) hg j)
    ⟨i, Finset.mem_range.mpr hi, by rw [hzero, abs_zero]; exact one_pos⟩
  rwa [Finset.sum_const, Finset.card_range, nsmul_eq_mul, mul_one] at hlt

/-- A zero in either polynomial is in some term. -/
theorem Small.abs_mul_lt_of_zero (hf : Small f) (hg : Small g) (hk : k < n) {i : ℕ} (hi : i < n)
    (hzero : f i = 0 ∨ g i = 0) : |mul n f g k| < n := by
  rcases hzero with hzero | hzero
  · exact hf.abs_mul_lt hg hi (by rw [hzero, zero_mul])
  · rcases Nat.lt_or_ge k i with hlt | hle
    · refine hf.abs_mul_lt hg (i := n + k - i) (by omega) ?_
      rw [if_neg (by omega), show n + k - (n + k - i) = i by omega, hzero, neg_zero, mul_zero]
    · refine hf.abs_mul_lt hg (i := k - i) (by omega) ?_
      rw [if_pos (by omega), show k - (k - i) = i by omega, hzero, mul_zero]

/-- A coefficient of `m + 3 (r g + m f)`. -/
def ntruCoeff (f g r m : Poly) (k : ℕ) : ℤ := m k + 3 * (mul polyN r g k + mul polyN m f k)

theorem abs_ntruCoeff_le (hf : Small f) (hg : Small g) (hr : Small r) (hm : Small m) (k : ℕ) :
    |ntruCoeff f g r m k| ≤ 6145 := by
  have hrg := abs_le.mp (hr.abs_mul_le (n := polyN) (k := k) hg)
  have hmf := abs_le.mp (hm.abs_mul_le (n := polyN) (k := k) hf)
  have hmk := abs_le.mp (hm k)
  have hN : (polyN : ℤ) = 1024 := rfl
  rw [hN] at hrg hmf
  rw [ntruCoeff]
  exact abs_le.mpr ⟨by omega, by omega⟩

/-- **One zero in one of the four is enough.** -/
theorem abs_ntruCoeff_lt (hf : Small f) (hg : Small g) (hr : Small r) (hm : Small m)
    (hk : k < polyN) {i : ℕ} (hi : i < polyN)
    (hzero : f i = 0 ∨ g i = 0 ∨ r i = 0 ∨ m i = 0) : |ntruCoeff f g r m k| ≤ 6144 := by
  have hrg := abs_le.mp (hr.abs_mul_le (n := polyN) (k := k) hg)
  have hmf := abs_le.mp (hm.abs_mul_le (n := polyN) (k := k) hf)
  have hmk := abs_le.mp (hm k)
  have hN : (polyN : ℤ) = 1024 := rfl
  rw [hN] at hrg hmf
  rw [ntruCoeff]
  have hone : |mul polyN r g k| < 1024 ∨ |mul polyN m f k| < 1024 := by
    rcases hzero with h | h | h | h
    · exact .inr (hm.abs_mul_lt_of_zero hf hk hi (.inr h))
    · exact .inl (hr.abs_mul_lt_of_zero hg hk hi (.inr h))
    · exact .inl (hr.abs_mul_lt_of_zero hg hk hi (.inl h))
    · exact .inr (hm.abs_mul_lt_of_zero hf hk hi (.inl h))
  rw [abs_lt, abs_lt] at hone
  exact abs_le.mpr ⟨by omega, by omega⟩

theorem residue_mul (f g : Poly) (k : ℕ) :
    ((mul n f g k : ℤ) : Coeff) = mul n (residue f) (residue g) k := by
  unfold mul
  rw [Int.cast_sum]
  refine Finset.sum_congr rfl fun i _ => ?_
  rw [Int.cast_mul, apply_ite Int.cast, Int.cast_neg]
  rfl

/-! ## What is decrypted -/

theorem point_pow_polyN (b : ℕ) : (gamma ^ (2 * b + 1)) ^ polyN = -1 := by
  rw [← pow_mul, Nat.mul_comm, pow_mul, gamma_pow_polyN, Odd.neg_one_pow ⟨b, rfl⟩]

theorem residue_polyConv (f g : Poly) (i : ℕ) :
    residue (polyConv f g) i = residue f i * residue g i := cast_polyCoeffMul _ _

variable {T : Troika} {prng nonce secretKey sessionKey : List Trit}

theorem polyReduced_ntruF : PolyReduced (ntruF secretKey) := (polyReduced_small3 _).polyNtt

/-- The values of `1 + 3 f`. -/
theorem residue_ntruF {b : ℕ} (hb : b < polyN) :
    residue (ntruF secretKey) b = 3 * eval polyN
      (residue (polySmallFromTrits (secretKey.take ntruSkSize))) (gamma ^ (2 * b + 1)) + 1 := by
  have hcoeff : residue (polySmall3Add1 (polySmallMul3 (polySmallFromTrits
      (secretKey.take ntruSkSize)))) = fun i =>
        3 * residue (polySmallFromTrits (secretKey.take ntruSkSize)) i + if i = 0 then 1 else 0 := by
    funext i
    rw [residue_polySmall3Add1, residue_polySmallMul3]
  rw [ntruF, residue_polyNtt _ hb, hcoeff, eval_add, eval_const_mul, eval_one (by decide)]

/-- **A key is generated**, and its public part times `1 + 3 f` is `3 g`. -/
theorem ntruSkGen_spec (hinv : polyHasInv (ntruF (ntruSecret T prng nonce)) = true) :
    ∃ h, ntruSkGen T prng nonce = some ⟨polyToTrits h, (ntruSecret T prng nonce).take ntruSkSize,
        ntruF (ntruSecret T prng nonce)⟩ ∧ PolyReduced h ∧ ∀ b < polyN,
      eval polyN (residue h) (gamma ^ (2 * b + 1)) * residue (ntruF (ntruSecret T prng nonce)) b =
        3 * eval polyN (residue (polySmallFromTrits ((ntruSecret T prng nonce).drop ntruSkSize)))
          (gamma ^ (2 * b + 1)) := by
  obtain ⟨h, hpoly, hreduced, hval⟩ := polyInv_spec polyReduced_ntruF hinv
  have hg : PolyReduced (polySmallMul3 (ntruG (ntruSecret T prng nonce))) :=
    (polyReduced_small _).polyNtt.polySmallMul3
  refine ⟨polyIntt (polyConv (polySmallMul3 (ntruG (ntruSecret T prng nonce))) h), ?_,
    (hg.polyConv hreduced).polyIntt, fun b hb => ?_⟩
  · rw [ntruSkGen]
    dsimp only
    rw [hpoly]
    rfl
  · have hne : residue (ntruF (ntruSecret T prng nonce)) b ≠ 0 := by
      intro hzero
      refine (polyHasInv_iff _).mp hinv b hb ((polyReduced_ntruF b).eq ⟨by decide, by decide⟩ ?_)
      exact hzero.trans Int.cast_zero.symm
    rw [eval_polyIntt _ hb, residue_polyConv, hval b hb, residue_polySmallMul3, ntruG,
      residue_polyNtt _ hb, mul_assoc, inv_mul_cancel₀ hne, mul_one]

/-- **What is left when `h` is multiplied away**: `m + 3 (r g + m f)`. -/
theorem residue_decrypted {f g r m h y fhat : Poly} {s : Poly}
    (hfhat : ∀ b < polyN, residue fhat b =
      3 * eval polyN (residue f) (gamma ^ (2 * b + 1)) + 1)
    (hh : ∀ b < polyN, eval polyN (residue h) (gamma ^ (2 * b + 1)) * residue fhat b =
      3 * eval polyN (residue g) (gamma ^ (2 * b + 1)))
    (hs : ∀ b < polyN, eval polyN (residue s) (gamma ^ (2 * b + 1)) =
      eval polyN (residue r) (gamma ^ (2 * b + 1)) * eval polyN (residue h) (gamma ^ (2 * b + 1)))
    (hy : ∀ i < polyN, residue y i = residue m i + residue s i) {k : ℕ} (hk : k < polyN) :
    residue (polyIntt (polyConv (polyNtt y) fhat)) k = (ntruCoeff f g r m k : ℤ) := by
  let a : ℕ → Coeff := fun k => residue m k +
    3 * (mul polyN (residue r) (residue g) k + mul polyN (residue m) (residue f) k)
  have ha : ((ntruCoeff f g r m k : ℤ) : Coeff) = a k := by
    rw [ntruCoeff, Int.cast_add, Int.cast_mul, Int.cast_add, residue_mul, residue_mul]
    rfl
  rw [ha]
  refine residue_polyIntt (a := a) (fun b hb => ?_) hk
  have hpoint := point_pow_polyN b
  rw [residue_polyConv, residue_polyNtt _ hb, eval_congr hy, eval_add, hs b hb, eval_add,
    eval_const_mul, eval_add, eval_mul hpoint, eval_mul hpoint, add_mul, mul_assoc, hh b hb,
    hfhat b hb]
  ring

/-- Three times something is rounded away. -/
theorem round_eq {x t d : ℤ} (hx : Reduced x) (ht : |t| ≤ 1) (heq : x = t + 3 * d) :
    mods (polyCoeffToTrint9 x) (27 * 27 * 27) 3 = t := by
  obtain ⟨hlow, hhigh⟩ := hx
  have hbound := abs_le.mp ht
  rw [polyCoeffToTrint9_eq ⟨hlow, hhigh⟩, mods_eq (by omega)]
  omega

/-- **The trits come out exactly when no coefficient goes over half of `q`.** -/
theorem polyRoundToTrits_eq_iff {f g r x : Poly} {ms : List Trit} (hf : Small f) (hg : Small g)
    (hr : Small r) (hx : PolyReduced x) (hms : ms.length = polyN)
    (hc : ∀ k < polyN, residue x k = (ntruCoeff f g r (polySmallFromTrits ms) k : ℤ)) :
    polyRoundToTrits x = ms ↔
      ∀ k < polyN, |ntruCoeff f g r (polySmallFromTrits ms) k| ≤ 6144 := by
  have hm := small_polySmallFromTrits ms
  have hround : ∀ k < polyN, (polyRoundToTrits x)[k]? =
      some (Trit.ofInt (mods (polyCoeffToTrint9 (x k)) (27 * 27 * 27) 3)) := by
    intro k hk
    rw [polyRoundToTrits, List.getElem?_map, List.getElem?_range hk]
    rfl
  have hget : ∀ k < polyN, ms[k]? = some (Trit.ofInt (polySmallFromTrits ms k)) := by
    intro k hk
    rw [polySmallFromTrits, Trit.ofInt_toInt, List.getD_eq_getElem?_getD,
      List.getElem?_eq_getElem (hms ▸ hk), Option.getD_some]
  constructor
  · intro heq k hk
    by_contra hgt
    have hle := abs_le.mp (abs_ntruCoeff_le hf hg hr hm k)
    have hbound := abs_le.mp (hm k)
    obtain ⟨hlow, hhigh⟩ := hx k
    obtain ⟨d, hd⟩ := (ZMod.intCast_eq_intCast_iff_dvd_sub _ _ 12289).mp (hc k hk)
    have htrit := hround k hk
    rw [heq, hget k hk] at htrit
    have hval := congrArg Trit.toInt (Option.some.inj htrit)
    -- a coefficient that is one too much becomes a multiple of three
    have hzero : mods (polyCoeffToTrint9 (x k)) (27 * 27 * 27) 3 = 0 := by
      refine round_eq (hx k) (by decide) (d := x k / 3) ?_
      rw [abs_le] at hgt
      push_cast at hd
      omega
    rw [hzero, Trit.toInt_ofInt (by unfold Ternary.IsTrit; omega)] at hval
    have hmzero : polySmallFromTrits ms k = 0 := hval
    rw [ntruCoeff, hmzero, abs_le] at hgt
    rw [ntruCoeff, hmzero] at hle
    omega
  · intro hall
    refine List.ext_getElem? fun k => ?_
    rcases Nat.lt_or_ge k polyN with hk | hge
    · have hval := (hx k).eq (abs_le.mp (hall k hk)) (hc k hk)
      rw [hround k hk, hget k hk, round_eq (hx k) (hm k) hval]
    · rw [List.getElem?_eq_none (by rwa [length_polyRoundToTrits]),
        List.getElem?_eq_none (by omega)]

theorem length_ntruSeal (rh : List Trit) (hkey : sessionKey.length = ntruKeySize) :
    (ntruSeal T rh sessionKey).1.length = polyN := by
  rw [ntruSeal, List.length_append, length_encr, length_squeeze, hkey]
  rfl

/-- What was sealed is opened. -/
theorem decr_ntruSeal (rh : List Trit) (hkey : sessionKey.length = ntruKeySize) :
    let spongos := commit T (absorb T init rh)
    let kt := (ntruSeal T rh sessionKey).1
    let k := decr T spongos (kt.take ntruKeySize)
    let m := squeeze T k.2 (ntruSkSize - ntruKeySize)
    k.1 = sessionKey ∧ m.1 = kt.drop ntruKeySize ∧ m.2 = (ntruSeal T rh sessionKey).2 := by
  dsimp only
  rw [ntruSeal]
  dsimp only
  have hlen : (encr T (commit T (absorb T init rh)) sessionKey).1.length = ntruKeySize := by
    rw [length_encr, hkey]
  rw [List.take_left' hlen, List.drop_left' hlen, decr_encr]
  exact ⟨rfl, rfl, rfl⟩

/-- The trits have come out. -/
theorem ntruSkDecr_of_round {sk : NtruSkPoly} {ekey rh : List Trit} {y : Poly} {m : List Trit × Spongos}
    (hy : polyFromTrits ekey = some y) (hkt : ntruRound sk y = m.1)
    (hrh : polyToTrits (polySub y (polySmallFromTrits m.1)) = rh)
    (hopen : let spongos := commit T (absorb T init rh)
      let k := decr T spongos (m.1.take ntruKeySize)
      let mac := squeeze T k.2 (ntruSkSize - ntruKeySize)
      k.1 = sessionKey ∧ mac.1 = m.1.drop ntruKeySize ∧ mac.2 = m.2)
    (spongos : Spongos) (out : List Trit) :
    ntruSkDecr T sk spongos ekey out = (true, sessionKey, m.2) := by
  dsimp only at hopen
  obtain ⟨hfst, hmac, hsnd⟩ := hopen
  unfold ntruSkDecr
  rw [hy]
  dsimp only
  rw [hkt, hrh, hfst, hmac, hsnd]
  exact congrArg (fun eq => (eq, sessionKey, m.2)) (beq_self_eq_true _)

/-- A polynomial that is equal where there are places has the same trits. -/
theorem polyToTrits_congr {f g : Poly} (h : ∀ i < polyN, f i = g i) :
    polyToTrits f = polyToTrits g := by
  rw [polyToTrits, polyToTrits, List.flatMap_def, List.flatMap_def]
  refine congrArg List.flatten (List.map_congr_left fun i hi => ?_)
  rw [h i (List.mem_range.mp hi)]

/-- A session key `key` has been encrypted for the key pair `sk`. `s` is `r * h`, `y` what is read of
it, and `m` what was sealed. -/
structure Encrypted (T : Troika) (prng nonce r key : List Trit) (sk : NtruSkPoly) (s y : Poly)
    (m : List Trit × Spongos) : Prop where
  sealed : m = ntruSeal T (polyToTrits s) key
  gen : ntruSkGen T prng nonce = some sk
  encr : ntruPkEncrR T sk.publicKey r key =
    some (polyToTrits (polyAdd (polySmallFromTrits m.1) s), m.2)
  read : polyFromTrits (polyToTrits (polyAdd (polySmallFromTrits m.1) s)) = some y
  sub : ∀ i < polyN, polySub y (polySmallFromTrits m.1) i = s i
  reduced : PolyReduced (polyIntt (polyConv (polyNtt y) sk.f))
  coeff : ∀ k < polyN, residue (polyIntt (polyConv (polyNtt y) sk.f)) k =
    (ntruCoeff (polySmallFromTrits sk.secretKey)
      (polySmallFromTrits ((ntruSecret T prng nonce).drop ntruSkSize)) (polySmallFromTrits r)
      (polySmallFromTrits m.1) k : ℤ)

/-- **A session key is encrypted** for every key pair with an invertible `1 + 3 f`. -/
theorem exists_encrypted (T : Troika) (prng nonce r key : List Trit)
    (hinv : polyHasInv (ntruF (ntruSecret T prng nonce)) = true) :
    ∃ sk s y m, sk.secretKey = (ntruSecret T prng nonce).take ntruSkSize ∧
      Encrypted T prng nonce r key sk s y m := by
  obtain ⟨h, hgen, hreduced, hh⟩ := ntruSkGen_spec hinv
  obtain ⟨h', hread, hreduced', hsame⟩ := polyFromTrits_polyToTrits hreduced
  have hs : PolyReduced (ntruRh r h') :=
    ((polyReduced_small r).polyNtt.polyConv hreduced'.polyNtt).polyIntt
  have hpoints : ∀ b < polyN, eval polyN (residue (ntruRh r h')) (gamma ^ (2 * b + 1)) =
      eval polyN (residue (polySmallFromTrits r)) (gamma ^ (2 * b + 1)) *
        eval polyN (residue h) (gamma ^ (2 * b + 1)) := by
    intro b hb
    have hcongr : eval polyN (residue h') (gamma ^ (2 * b + 1)) =
        eval polyN (residue h) (gamma ^ (2 * b + 1)) :=
      eval_congr fun i hi => congrArg Int.cast (hsame i hi)
    rw [ntruRh, eval_polyIntt _ hb, residue_polyConv, residue_polyNtt _ hb, residue_polyNtt _ hb,
      hcongr]
  generalize hm : ntruSeal T (polyToTrits (ntruRh r h')) key = m
  obtain ⟨y, hy, hyreduced, hyval⟩ :=
    polyFromTrits_polyToTrits ((polyReduced_small m.1).polyAdd hs)
  have hsum : ∀ i < polyN, residue y i =
      residue (polySmallFromTrits m.1) i + residue (ntruRh r h') i := by
    intro i hi
    rw [residue, hyval i hi, polyAdd, cast_polyCoeffAdd]
    rfl
  refine ⟨_, ntruRh r h', y, m, rfl, ⟨hm.symm, hgen, ?_, hy, fun i hi => ?_,
    (hyreduced.polyNtt.polyConv polyReduced_ntruF).polyIntt, fun k hk =>
      residue_decrypted (fun b hb => residue_ntruF hb) hh hpoints hsum hk⟩⟩
  · rw [ntruPkEncrR, hread]
    dsimp only [Option.bind_eq_bind, Option.bind_some]
    rw [hm]
    rfl
  · refine ((hyreduced.polySub (polyReduced_small m.1)) i).eq (hs i) ?_
    have hcast := hsum i hi
    unfold residue at hcast
    rw [polySub, cast_polyCoeffSub, hcast]
    ring

/-- **Decryption of what was encrypted.** For every key that is generated with an invertible
`1 + 3 f`, every `r` and every session key: the coefficients of `m + 3 (r g + m f)` are at most 6145;
they are at most half of `q` whenever one of the four polynomials has a zero; the trits of `m` come
out exactly when they are; and then the session key does, and is found authentic. -/
theorem ntruSkDecr_ntruPkEncrR (T : Troika) (prng nonce r sessionKey : List Trit)
    (hkey : sessionKey.length = ntruKeySize)
    (hinv : polyHasInv (ntruF (ntruSecret T prng nonce)) = true) :
    ∃ sk s ekey y, ntruSkGen T prng nonce = some sk ∧
      let m := ntruSeal T (polyToTrits s) sessionKey
      let fs := polySmallFromTrits sk.secretKey
      let gs := polySmallFromTrits ((ntruSecret T prng nonce).drop ntruSkSize)
      let rs := polySmallFromTrits r
      let ms := polySmallFromTrits m.1
      ntruPkEncrR T sk.publicKey r sessionKey = some (ekey, m.2) ∧
      (∀ k, |ntruCoeff fs gs rs ms k| ≤ 6145) ∧
      (∀ i < polyN, (fs i = 0 ∨ gs i = 0 ∨ rs i = 0 ∨ ms i = 0) →
        ∀ k < polyN, |ntruCoeff fs gs rs ms k| ≤ 6144) ∧
      polyFromTrits ekey = some y ∧
      (ntruRound sk y = m.1 ↔ ∀ k < polyN, |ntruCoeff fs gs rs ms k| ≤ 6144) ∧
      ((∀ k < polyN, |ntruCoeff fs gs rs ms k| ≤ 6144) → ∀ spongos out,
        ntruSkDecr T sk spongos ekey out = (true, sessionKey, m.2)) := by
  obtain ⟨sk, s, y, m, -, he⟩ := exists_encrypted T prng nonce r sessionKey hinv
  have hsmall := small_polySmallFromTrits
  have hms := length_ntruSeal (T := T) (polyToTrits s) hkey
  have hopen := decr_ntruSeal (T := T) (polyToTrits s) hkey
  rw [← he.sealed] at hms hopen
  have hround : ntruRound sk y = m.1 ↔ _ :=
    polyRoundToTrits_eq_iff (hsmall _) (hsmall _) (hsmall _) he.reduced hms he.coeff
  refine ⟨sk, s, polyToTrits (polyAdd (polySmallFromTrits m.1) s), y, he.gen, ?_⟩
  dsimp only
  rw [← he.sealed]
  refine ⟨he.encr, abs_ntruCoeff_le (hsmall _) (hsmall _) (hsmall _) (hsmall _),
    fun i hi hzero k hk => abs_ntruCoeff_lt (hsmall _) (hsmall _) (hsmall _) (hsmall _) hk hi hzero,
    he.read, hround, fun hall spongos out => ?_⟩
  exact ntruSkDecr_of_round he.read (hround.mpr hall) (polyToTrits_congr he.sub) hopen spongos out

/-! ## One too much

A transformation that counts how often it has been called, in its last trits, and else gives ones;
all but for the third call, which gives a minus one.
-/

/-- How often the transformation has been called. -/
def callsOf (state : List Trit) : ℕ := (state.drop 719).count .pos

/-- What a call gives. -/
def sampleOuter (calls : ℕ) : List Trit :=
  if calls = 2 then List.replicate 51 .pos ++ .neg :: List.replicate 434 .pos
  else List.replicate 486 .pos

theorem length_sampleOuter (calls : ℕ) : (sampleOuter calls).length = spongeRate := by
  unfold sampleOuter
  split_ifs
  · rw [List.length_append, List.length_cons, List.length_replicate, List.length_replicate]
    rfl
  · exact List.length_replicate

/-- The transformation. -/
def sampleTroika : Troika where
  transform state := sampleOuter (callsOf state) ++ (List.replicate 233 .zero ++
    (List.replicate (min (callsOf state + 1) 10) .pos ++
      List.replicate (10 - min (callsOf state + 1) 10) .zero))
  length_transform state _ := by
    simp only [List.length_append, length_sampleOuter, List.length_replicate]
    unfold spongeRate spongeWidth
    omega

theorem callsOf_transform (state : List Trit) :
    callsOf (sampleTroika.transform state) = min (callsOf state + 1) 10 := by
  have hlen := length_sampleOuter (callsOf state)
  show List.count _ (List.drop 719 (_ ++ (_ ++ _))) = _
  rw [← List.append_assoc, List.drop_left' (by
    rw [List.length_append, hlen, List.length_replicate]
    rfl), List.count_append, List.count_replicate_self, List.count_replicate]
  simp

theorem take_transform (state : List Trit) :
    (sampleTroika.transform state).take spongeRate = sampleOuter (callsOf state) :=
  List.take_left' (length_sampleOuter _)

/-- Writing in front of the last trits does not count. -/
theorem callsOf_set (state : List Trit) {i : ℕ} (hi : i < 719) (t : Trit) :
    callsOf (state.set i t) = callsOf state := by
  rw [callsOf, List.drop_set_of_lt hi, callsOf]

theorem callsOf_blit {state chunk : List Trit} {i : ℕ} (hi : i + chunk.length ≤ 719)
    (hstate : state.length = spongeWidth) : callsOf (blit state i chunk) = callsOf state := by
  have hle : i + chunk.length ≤ state.length := by
    rw [hstate]
    unfold spongeWidth
    omega
  refine congrArg (List.count Trit.pos) (List.ext_getElem? fun j => ?_)
  rw [List.getElem?_drop, List.getElem?_drop, getElem?_blit hle, if_neg (by omega)]

/-! ### What is generated -/

theorem spongeSqueeze_sample (c2 : Trit) {state : List Trit} (hstate : state.length = spongeWidth) :
    (∀ n ≤ spongeRate, spongeSqueeze sampleTroika c2 state n =
      (sampleOuter (callsOf state)).take n) ∧
      ∃ state', state'.length = spongeWidth ∧ callsOf state' = min (callsOf state + 1) 10 ∧
        ∀ n, spongeRate < n → spongeSqueeze sampleTroika c2 state n =
          sampleOuter (callsOf state) ++ spongeSqueeze sampleTroika c2 state' (n - spongeRate) := by
  have hcontrol : ∀ c1, callsOf (spongeSetControl345 state .neg c1 c2) = callsOf state := by
    intro c1
    unfold spongeSetControl345 spongeRate
    rw [callsOf_set _ (by decide), callsOf_set _ (by decide), callsOf_set _ (by decide)]
  have hlen : ∀ c1, (sampleTroika.transform
      (spongeSetControl345 state .neg c1 c2)).length = spongeWidth := fun c1 =>
    sampleTroika.length_transform _ (by rw [length_spongeSetControl345, hstate])
  refine ⟨fun n hn => ?_, spongeSetControl012 (blit (sampleTroika.transform
    (spongeSetControl345 state .neg .pos c2)) 0 (List.replicate spongeRate .zero)) .neg .pos c2,
    ?_, ?_, fun n hn => ?_⟩
  · rw [spongeSqueeze]
    simp only [Nat.min_eq_left hn, Nat.sub_self, if_true]
    rw [← Nat.min_eq_left hn, ← List.take_take, take_transform, hcontrol, Nat.min_eq_left hn]
  · rw [length_spongeSetControl012, length_blit (by
      rw [hlen, List.length_replicate]
      decide), hlen]
  · unfold spongeSetControl012
    rw [callsOf_set _ (by decide), callsOf_set _ (by decide), callsOf_set _ (by decide),
      callsOf_blit (by rw [List.length_replicate]; decide) (hlen .pos), callsOf_transform, hcontrol]
  · have hne : ¬ n - spongeRate = 0 := by omega
    rw [spongeSqueeze]
    simp only [Nat.min_eq_right hn.le, if_neg hne]
    rw [take_transform, hcontrol, Nat.sub_self]
    simp only [padc, List.take_zero, List.append_nil]

/-- The key pair: `f` is ones and a minus one at the end, `g` is ones. -/
def sampleSecret : List Trit := List.replicate 1023 .pos ++ .neg :: List.replicate 1024 .pos

/-- The secret key of the generator. -/
def samplePrng : List Trit := List.replicate 243 .zero

theorem prngGen5_sample :
    prngGen5 sampleTroika samplePrng 2 [[], List.replicate 81 .zero] (2 * ntruSkSize) =
      sampleSecret := by
  have hdata : (samplePrng :: put3 2 :: [[], List.replicate 81 .zero]).flatten.length = 327 := by
    decide +kernel
  have habsorb : ∃ state, state.length = spongeWidth ∧ callsOf state = 0 ∧
      spongeAbsorbn sampleTroika .pos (List.replicate spongeWidth .zero)
        (samplePrng :: put3 2 :: [[], List.replicate 81 .zero]).flatten = state := by
    refine ⟨_, length_spongeAbsorbn _ List.length_replicate, ?_, rfl⟩
    generalize (samplePrng :: put3 2 :: [[], List.replicate 81 .zero]).flatten = data at *
    have hdrop : data.drop spongeRate = [] := List.drop_eq_nil_of_le (by rw [hdata]; decide)
    have hunset : (List.replicate spongeWidth Trit.zero).getD (spongeRate + 1) .zero = .zero := by
      decide +kernel
    rw [spongeAbsorbn]
    simp only [hunset, ne_eq, not_true, if_false, hdrop, if_true]
    unfold spongeSetControl012
    rw [callsOf_set _ (by decide), callsOf_set _ (by decide), callsOf_set _ (by decide),
      callsOf_blit _ List.length_replicate]
    · decide +kernel
    · have hchunk : (data.take spongeRate).length = 327 := by
        rw [List.length_take, hdata]
        decide
      rw [List.length_append, length_padc, hchunk]
      decide
  obtain ⟨state₀, hlen₀, hcalls₀, habsorb⟩ := habsorb
  obtain ⟨-, state₁, hlen₁, hcalls₁, hsqueeze₀⟩ := spongeSqueeze_sample .pos hlen₀
  obtain ⟨-, state₂, hlen₂, hcalls₂, hsqueeze₁⟩ := spongeSqueeze_sample .pos hlen₁
  obtain ⟨-, state₃, hlen₃, hcalls₃, hsqueeze₂⟩ := spongeSqueeze_sample .pos hlen₂
  obtain ⟨-, state₄, hlen₄, hcalls₄, hsqueeze₃⟩ := spongeSqueeze_sample .pos hlen₃
  obtain ⟨hlast, -⟩ := spongeSqueeze_sample .pos hlen₄
  rw [hcalls₀] at hcalls₁ hsqueeze₀
  rw [hcalls₁] at hcalls₂ hsqueeze₁
  rw [hcalls₂] at hcalls₃ hsqueeze₂
  rw [hcalls₃] at hcalls₄ hsqueeze₃
  rw [hcalls₄] at hlast
  rw [prngGen5, habsorb, hsqueeze₀ _ (by decide), hsqueeze₁ _ (by decide), hsqueeze₂ _ (by decide),
    hsqueeze₃ _ (by decide), hlast _ (by decide)]
  decide +kernel

/-! ### That it is invertible -/

/-- One over the other points: the sum of the powers. -/
theorem sum_point {z : Coeff} (hz : z ^ polyN = -1) :
    (z - 1) * ∑ i ∈ Finset.range polyN, z ^ i = -2 := by
  rw [mul_geom_sum, hz]
  ring

theorem polySmallFromTrits_replicate {n i : ℕ} (hi : i < n) (t : Trit) (rest : List Trit) :
    polySmallFromTrits (List.replicate n t ++ rest) i = t.toInt := by
  rw [polySmallFromTrits, List.getD_eq_getElem?_getD, List.getElem?_append_left (by
    rwa [List.length_replicate]), List.getElem?_replicate, if_pos hi, Option.getD_some]

theorem take_sampleSecret :
    sampleSecret.take ntruSkSize = List.replicate 1023 .pos ++ [.neg] := by decide +kernel

theorem drop_sampleSecret : sampleSecret.drop ntruSkSize = List.replicate 1024 .pos ++ [] := by
  decide +kernel

theorem sampleF_apply {i : ℕ} (hi : i < polyN) :
    polySmallFromTrits (sampleSecret.take ntruSkSize) i = 1 + if i = 1023 then -2 else 0 := by
  rw [take_sampleSecret]
  rcases Nat.lt_or_ge i 1023 with hlt | hge
  · rw [polySmallFromTrits_replicate hlt, if_neg (by omega)]
    rfl
  · obtain rfl : i = 1023 := Nat.le_antisymm (Nat.le_of_lt_succ hi) hge
    decide +kernel

theorem sampleG_apply {i : ℕ} (hi : i < polyN) :
    polySmallFromTrits (sampleSecret.drop ntruSkSize) i = 1 := by
  rw [drop_sampleSecret, polySmallFromTrits_replicate (show i < 1024 from hi)]
  rfl

theorem eval_ones (z : Coeff) : eval polyN (fun _ => 1) z = ∑ i ∈ Finset.range polyN, z ^ i := by
  simp only [eval, one_mul]

/-- The values of `1 + 3 f` are zero nowhere: that would make the point 3 or -2. -/
theorem polyHasInv_sampleF : polyHasInv (ntruF sampleSecret) = true := by
  rw [polyHasInv_iff]
  intro b hb hzero
  have hval := @residue_ntruF sampleSecret b hb
  have hz := point_pow_polyN b
  generalize gamma ^ (2 * b + 1) = z at hval hz
  have hlast : eval polyN (fun i => if i = 1023 then (-2 : Coeff) else 0) z = -2 * z ^ 1023 := by
    rw [eval, Finset.sum_eq_single_of_mem 1023 (Finset.mem_range.mpr (by decide))]
    · rw [if_pos rfl]
    · intro i _ hne
      rw [if_neg hne, zero_mul]
  have hcoeff : ∀ i < polyN, residue (polySmallFromTrits (sampleSecret.take ntruSkSize)) i =
      1 + if i = 1023 then -2 else 0 := by
    intro i hi
    rw [residue, sampleF_apply hi]
    push_cast
    rfl
  rw [residue, hzero, Int.cast_zero, eval_congr hcoeff, eval_add, eval_ones, hlast] at hval
  have hpow : z * z ^ 1023 = -1 := by
    rw [← pow_succ', ← hz]
    rfl
  have hfactor : (z - 3) * (z + 2) = 0 := by
    linear_combination (-z * (z - 1)) * hval - 3 * z * sum_point hz + 6 * (z - 1) * hpow
  rcases mul_eq_zero.mp hfactor with h | h
  · rw [sub_eq_zero.mp h] at hz
    exact absurd hz (by decide +kernel)
  · rw [eq_neg_of_add_eq_zero_left h] at hz
    exact absurd hz (by decide +kernel)

theorem polyHasInv_sampleG : polyHasInv (ntruG sampleSecret) = true := by
  rw [polyHasInv_iff]
  intro b hb hzero
  have hz := point_pow_polyN b
  have hval : residue (ntruG sampleSecret) b = _ := residue_polyNtt _ hb
  have hcoeff : ∀ i < polyN, residue (polySmallFromTrits (sampleSecret.drop ntruSkSize)) i = 1 := by
    intro i hi
    rw [residue, sampleG_apply hi, Int.cast_one]
  rw [residue, hzero, Int.cast_zero, eval_congr hcoeff, eval_ones] at hval
  have hsum := sum_point hz
  rw [← hval, mul_zero] at hsum
  exact absurd hsum (by decide)

theorem ntruSecret_sample : ntruSecret sampleTroika samplePrng [] = sampleSecret := by
  unfold ntruSecret ntruSkGenFrom
  dsimp only
  rw [prngGen5_sample, polyHasInv_sampleF, polyHasInv_sampleG]
  exact if_pos rfl

/-! ### What the spongos gives -/

variable {F : Trit → Trit → Trit × Trit} {s : Spongos}

theorem callsOf_update (s : Spongos) (x : Trit) :
    callsOf (update sampleTroika s [x]).state =
      if s.pos + 1 < spongeRate then callsOf s.state else min (callsOf s.state + 1) 10 := by
  have hpos := s.pos_lt
  have hblit : callsOf (blit s.state s.pos [x]) = callsOf s.state := by
    refine callsOf_blit ?_ s.length_state
    rw [List.length_singleton]
    unfold spongeRate at hpos
    omega
  split_ifs with hlt
  · rw [update_one hlt, hblit]
  · unfold update
    simp only [take_one, List.length_singleton]
    rw [dif_neg hlt, callsOf_transform, hblit]

theorem callsOf_duplex (xs : List Trit) (hs : callsOf s.state ≤ 10) :
    callsOf (duplex sampleTroika F s xs).2.state =
      min (callsOf s.state + (s.pos + xs.length) / spongeRate) 10 := by
  induction xs generalizing s with
  | nil =>
    rw [duplex_nil, List.length_nil, Nat.add_zero, Nat.div_eq_of_lt s.pos_lt, Nat.add_zero,
      Nat.min_eq_left hs]
  | cons x xs ih =>
    have hpos := s.pos_lt
    rw [duplex_cons]
    dsimp only
    generalize (F x (s.state.getD s.pos .zero)).2 = z
    have hcalls := callsOf_update s z
    rw [ih (by rw [hcalls]; split_ifs <;> omega), hcalls, pos_update_one, List.length_cons]
    by_cases hlt : s.pos + 1 < spongeRate
    · rw [if_pos hlt, Nat.mod_eq_of_lt hlt, Nat.add_right_comm, Nat.add_assoc s.pos]
    · have hend : s.pos + (xs.length + 1) = spongeRate + xs.length := by omega
      rw [if_neg hlt, show s.pos + 1 = spongeRate by omega, Nat.mod_self, Nat.zero_add, hend,
        Nat.add_div_left _ (by decide)]
      generalize xs.length / spongeRate = rounds
      omega

/-- The spongos gives ones from now on. -/
def Ones (s : Spongos) : Prop :=
  3 ≤ callsOf s.state ∧ ∀ i, s.pos ≤ i → i < spongeRate → s.state[i]? = some .pos

theorem getElem?_transform {state : List Trit} (hcalls : 3 ≤ callsOf state) {i : ℕ}
    (hi : i < spongeRate) : (sampleTroika.transform state)[i]? = some .pos := by
  have houter : sampleOuter (callsOf state) = List.replicate 486 .pos := if_neg (by omega)
  rw [← List.getElem?_take_of_lt hi, take_transform, houter, List.getElem?_replicate]
  exact if_pos hi

theorem ones_commit (hcalls : 3 ≤ callsOf s.state) (hpos : s.pos ≠ 0) :
    Ones (commit sampleTroika s) := by
  unfold commit
  rw [if_pos hpos]
  refine ⟨?_, fun i _ hi => getElem?_transform hcalls hi⟩
  rw [callsOf_transform]
  omega

theorem Ones.update (hs : Ones s) (x : Trit) : Ones (update sampleTroika s [x]) := by
  obtain ⟨hcalls, hones⟩ := hs
  have hpos := s.pos_lt
  have hlen := s.length_state
  have hwidth : spongeRate ≤ spongeWidth := by decide
  refine ⟨?_, ?_⟩
  · rw [callsOf_update]
    split_ifs <;> omega
  · rcases Nat.lt_or_ge (s.pos + 1) spongeRate with hlt | hge
    · rw [update_one hlt]
      intro i hi hi'
      have hafter : ¬ (s.pos ≤ i ∧ i < s.pos + [x].length) := by
        rw [List.length_singleton]
        dsimp only at hi
        omega
      rw [getElem?_blit (by rw [List.length_singleton]; omega), if_neg hafter]
      exact hones i (by dsimp only at hi; omega) hi'
    · intro i _ hi
      have hblit : callsOf (blit s.state s.pos [x]) = callsOf s.state := by
        refine callsOf_blit ?_ hlen
        rw [List.length_singleton]
        unfold spongeRate at hpos
        omega
      unfold Spongos.update
      simp only [take_one, List.length_singleton]
      rw [dif_neg (by omega)]
      exact getElem?_transform (hblit.symm ▸ hcalls) hi

/-- **Ones go with whatever comes in.** -/
theorem Ones.duplex (hs : Ones s) (xs : List Trit) :
    (duplex sampleTroika F s xs).1 = xs.map (fun x => (F x .pos).1) ∧
      Ones (duplex sampleTroika F s xs).2 := by
  induction xs generalizing s with
  | nil => exact ⟨by rw [duplex_nil]; rfl, by rwa [duplex_nil]⟩
  | cons x xs ih =>
    have hfirst : s.state.getD s.pos .zero = .pos := by
      rw [List.getD_eq_getElem?_getD, hs.2 _ le_rfl s.pos_lt, Option.getD_some]
    obtain ⟨hrest, hones⟩ := ih (hs.update (F x .pos).2)
    rw [duplex_cons, hfirst]
    exact ⟨by rw [hrest, List.map_cons], hones⟩

theorem ones_start {rh : List Trit} (hrh : rh.length = 9 * polyN) :
    Ones (commit sampleTroika (absorb sampleTroika init rh)) := by
  have hinit : callsOf init.state = 0 := by decide +kernel
  have hcalls := callsOf_duplex (F := fun x _ => (x, x)) (s := init) rh (by rw [hinit]; decide)
  have hpos := pos_absorb (T := sampleTroika) init rh
  rw [hrh] at hcalls hpos
  refine ones_commit ?_ ?_
  · rw [absorb, hcalls, hinit]
    decide
  · rw [hpos]
    decide

theorem Ones.squeeze (hs : Ones s) (n : ℕ) :
    (squeeze sampleTroika s n).1 = List.replicate n .pos := by
  rw [Spongos.squeeze, (hs.duplex _).1, List.map_replicate]

/-! ### The run -/

/-- A session key that starts with a one. -/
def sampleKey : List Trit := .pos :: List.replicate 242 .zero

theorem length_sampleKey : sampleKey.length = ntruKeySize := by
  rw [sampleKey, List.length_cons, List.length_replicate]
  rfl

/-- What is sealed is a minus one and ones: `f` the other way round. -/
theorem ntruSeal_sample {rh : List Trit} (hrh : rh.length = 9 * polyN) :
    (ntruSeal sampleTroika rh sampleKey).1 = .neg :: List.replicate 1023 .pos := by
  have hones := ones_start hrh
  obtain ⟨hencr, hnext⟩ := hones.duplex (F := fun x y => (x.add y, x)) sampleKey
  rw [ntruSeal]
  dsimp only
  rw [encr, hencr, hnext.squeeze]
  decide +kernel

theorem ntruCoeff_sample :
    ntruCoeff (polySmallFromTrits (sampleSecret.take ntruSkSize))
      (polySmallFromTrits (sampleSecret.drop ntruSkSize))
      (polySmallFromTrits (List.replicate 1024 .pos))
      (polySmallFromTrits (.neg :: List.replicate 1023 .pos)) 1023 = 6145 := by
  have hr : ∀ i < polyN, polySmallFromTrits (List.replicate 1024 .pos) i = 1 := by
    intro i hi
    rw [← List.append_nil (List.replicate 1024 Trit.pos)]
    exact polySmallFromTrits_replicate (show i < 1024 from hi) _ _
  have hm : ∀ i < polyN, polySmallFromTrits (.neg :: List.replicate 1023 .pos) i =
      1 + if i = 0 then -2 else 0 := by
    intro i hi
    cases i with
    | zero => rfl
    | succ i =>
      rw [← List.append_nil (List.replicate 1023 Trit.pos), if_neg (Nat.succ_ne_zero i)]
      exact polySmallFromTrits_replicate (show i < 1023 from Nat.lt_of_succ_lt_succ hi) _ _
  have hrg : mul polyN (polySmallFromTrits (List.replicate 1024 .pos))
      (polySmallFromTrits (sampleSecret.drop ntruSkSize)) 1023 = 1024 := by
    rw [mul, Finset.sum_congr rfl fun i hi => by
      rw [hr i (Finset.mem_range.mp hi), if_pos (Nat.le_of_lt_succ (Finset.mem_range.mp hi)),
        sampleG_apply (Nat.lt_succ_of_le (Nat.sub_le 1023 i)), mul_one]]
    rw [Finset.sum_const, Finset.card_range]
    rfl
  have hmf : mul polyN (polySmallFromTrits (.neg :: List.replicate 1023 .pos))
      (polySmallFromTrits (sampleSecret.take ntruSkSize)) 1023 = 1024 := by
    have hterm : ∀ i ∈ Finset.range polyN,
        (polySmallFromTrits (.neg :: List.replicate 1023 .pos) i *
          if i ≤ 1023 then polySmallFromTrits (sampleSecret.take ntruSkSize) (1023 - i)
          else -polySmallFromTrits (sampleSecret.take ntruSkSize) (polyN + 1023 - i)) = 1 := by
      intro i hi
      have hlt : i < 1024 := Finset.mem_range.mp hi
      rw [if_pos (by omega), hm i hlt, sampleF_apply (Nat.lt_succ_of_le (Nat.sub_le 1023 i))]
      rcases Nat.eq_zero_or_pos i with rfl | hpos
      · rfl
      · rw [if_neg (by omega), if_neg (by omega)]
        rfl
    rw [mul, Finset.sum_congr rfl hterm, Finset.sum_const, Finset.card_range]
    rfl
  rw [ntruCoeff, hrg, hmf, hm 1023 (by decide)]
  rfl

/-- **One too much.** With these keys the last coefficient is 6145, its trit is lost, and what was
encrypted is not found authentic. -/
theorem not_ntruSkDecr_ntruPkEncrR :
    ¬ ∀ (T : Troika) (prng nonce r sessionKey : List Trit), prng.length = 243 →
      r.length = ntruSkSize → sessionKey.length = ntruKeySize →
      polyHasInv (ntruF (ntruSecret T prng nonce)) = true →
      polyHasInv (ntruG (ntruSecret T prng nonce)) = true →
      ∀ sk ekey s, ntruSkGen T prng nonce = some sk →
        ntruPkEncrR T sk.publicKey r sessionKey = some (ekey, s) → ∀ s' out,
          (ntruSkDecr T sk s' ekey out).1 = true ∧
            (ntruSkDecr T sk s' ekey out).2.1 = sessionKey := by
  intro h
  have hf : polyHasInv (ntruF (ntruSecret sampleTroika samplePrng [])) = true := by
    rw [ntruSecret_sample, polyHasInv_sampleF]
  have hg : polyHasInv (ntruG (ntruSecret sampleTroika samplePrng [])) = true := by
    rw [ntruSecret_sample, polyHasInv_sampleG]
  obtain ⟨sk, s, y, m, hsecret, he⟩ := exists_encrypted sampleTroika samplePrng []
    (List.replicate 1024 .pos) sampleKey hf
  have hm : m.1 = .neg :: List.replicate 1023 .pos := by
    rw [he.sealed, ntruSeal_sample (length_polyToTrits s)]
  have hcoeff := he.coeff 1023 (by decide)
  rw [hsecret, ntruSecret_sample, hm, ntruCoeff_sample] at hcoeff
  have hauthentic := (h sampleTroika samplePrng [] (List.replicate 1024 .pos) sampleKey
    List.length_replicate List.length_replicate length_sampleKey hf hg sk _ m.2 he.gen he.encr init []).1
  -- the trit that is lost
  obtain ⟨hlow, hhigh⟩ := he.reduced 1023
  obtain ⟨d, hd⟩ := (ZMod.intCast_eq_intCast_iff_dvd_sub _ _ 12289).mp hcoeff
  have hlost : (ntruRound sk y)[1023]? = some .zero := by
    rw [ntruRound, polyRoundToTrits, List.getElem?_map, List.getElem?_range (by decide),
      Option.map_some, round_eq (he.reduced 1023) (by decide) (t := 0)
        (d := polyIntt (polyConv (polyNtt y) sk.f) 1023 / 3) (by push_cast at hd; omega)]
    rfl
  -- the trit that is squeezed
  have hones := ones_start (length_polyToTrits (polySub y (polySmallFromTrits (ntruRound sk y))))
  have hnext := (hones.duplex (F := fun x y => (x.sub y, x.sub y))
    ((ntruRound sk y).take ntruKeySize)).2
  unfold ntruSkDecr at hauthentic
  rw [he.read] at hauthentic
  dsimp only at hauthentic
  rw [decr, hnext.squeeze, beq_iff_eq] at hauthentic
  have htrit := congrArg (fun l => l[780]?) hauthentic
  rw [List.getElem?_drop, show ntruKeySize + 780 = 1023 by rfl, hlost,
    List.getElem?_replicate] at htrit
  exact absurd htrit (by decide)

/-- With a blinding polynomial of zeros nothing is lost. -/
theorem ntruSkDecr_ntruPkEncrR_zeros :
    ∃ sk ekey s, ntruSkGen sampleTroika samplePrng [] = some sk ∧
      ntruPkEncrR sampleTroika sk.publicKey (List.replicate 1024 .zero) sampleKey =
        some (ekey, s) ∧
      ntruSkDecr sampleTroika sk init ekey [] = (true, sampleKey, s) := by
  obtain ⟨sk, s, ekey, y, hgen, hencr, -, hzero, -, -, hdecr⟩ :=
    ntruSkDecr_ntruPkEncrR sampleTroika samplePrng [] (List.replicate 1024 .zero) sampleKey
      length_sampleKey
      (by rw [ntruSecret_sample, polyHasInv_sampleF])
  have hr : polySmallFromTrits (List.replicate 1024 .zero) 0 = 0 := by decide +kernel
  exact ⟨sk, ekey, _, hgen, hencr, hdecr (hzero 0 (by decide) (.inr (.inr (.inl hr)))) init []⟩

end Mam

end Entangled
