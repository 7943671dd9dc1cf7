import Entangled.Mam.Coefficients
/-!
# The transforms in machine types

`poly_ntt`, `poly_intt` and what is computed place by place, with the tables and with coefficients of
either kind. They have no value where a number leaves its type or a place is not there. On polynomials
of coefficients they always have one, and what comes out stands for what comes out of the numbers.
-/

namespace Entangled

namespace Mam

open Negacyclic

namespace PolyCoeffs

variable (C : PolyCoeffs)

/-! ## Coefficients -/

/-- The loop of `poly_coeff_inv`, for so many rounds. -/
def polyCoeffInvFrom (a : ℤ) : ℕ → ℤ → Option ℤ
  | 0, e => some e
  | rounds + 1, e => do
    let t ← C.polyCoeffMul e e
    let e ← C.polyCoeffMul t a
    polyCoeffInvFrom a rounds e

/-- `poly_coeff_inv`, unless its assertion fails. -/
def polyCoeffInv (a : ℤ) : Option ℤ := do
  let e ← C.polyCoeffInvFrom a 11 a
  let t ← C.polyCoeffMul e a
  let t ← C.polyCoeffMul t t
  let e ← C.polyCoeffMul t e
  let one ← C.polyCoeffMul e a
  if one = C.polyCoeffOne then some e else none

/-! ## Polynomials -/

/-- A loop over the places, each with a value of its own. -/
def forPlaces (f : ℕ → Option ℤ) : Option Poly :=
  if (List.range polyN).all fun i => (f i).isSome then some fun i => (f i).getD 0 else none

/-- The first loop of `poly_ntt` and of `poly_intt`: `u`, which has nothing in it before. -/
def polyPermute (a : Poly) : Option Poly :=
  (List.range polyN).foldlM (fun (u : Poly) i => do
    let r ← polyIdxRevTable[i]?
    if r < polyN then some (Function.update u r (a i)) else none) fun _ => 0

/-- The loops over `j`: from `u` to `t`, and back into `u`. -/
def polyStage (twiddle : ℕ → Option ℤ) (i : ℕ) (u : Poly) : Option Poly :=
  forPlaces fun j =>
    if j < polyN / 2 then do
      let w ← twiddle (j - j % 2 ^ i)
      let d ← C.polyCoeffMul (u (2 * j + 1)) w
      C.polyCoeffAdd (u (2 * j)) d
    else do
      let j := j - polyN / 2
      let w ← twiddle (j - j % 2 ^ i)
      let d ← C.polyCoeffMul (u (2 * j + 1)) w
      C.polyCoeffSub (u (2 * j)) d

/-- The loop over `i`, downwards. -/
def polyStages (twiddle : ℕ → Option ℤ) : ℕ → Poly → Option Poly
  | 0, u => some u
  | i + 1, u => do
    let u ← C.polyStage twiddle i u
    polyStages twiddle i u

/-- `poly_ntt`. -/
def polyNtt (f : Poly) : Option Poly := do
  let a ← forPlaces fun i => do
    let g ← C.polyGammaExp[i]?
    C.polyCoeffMul g (f i)
  let u ← polyPermute a
  C.polyStages (fun r => C.polyGammaExp[r + r]?) polyNLog u

/-- `poly_intt`. -/
def polyIntt (t : Poly) : Option Poly := do
  let u ← polyPermute t
  let f ← C.polyStages (fun r => C.polyGammaExp[2 * polyN - (r + r)]?) polyNLog u
  forPlaces fun i => do
    let g ← C.polyGammaExp[2 * polyN - i]?
    let c ← C.polyCoeffMul C.polyCoeffNInv g
    C.polyCoeffMul c (f i)

/-- `poly_conv`. -/
def polyConv (tf tg : Poly) : Option Poly := forPlaces fun i => C.polyCoeffMul (tf i) (tg i)

/-- `poly_inv`, unless an assertion fails. -/
def polyInv (tf : Poly) : Option Poly := forPlaces fun i => C.polyCoeffInv (tf i)

/-- The coefficients stand for the numbers. -/
def Represents (u v : Poly) : Prop := ∀ i < polyN, C.Stands (u i) (v i)

/-- What is computed stays in its types, at every place, and stands for the numbers. -/
def Computes (o : Option Poly) (v : Poly) : Prop := ∃ u, o = some u ∧ C.Represents u v

variable {C}

theorem Computes.bind {o : Option Poly} {v w : Poly} {k : Poly → Option Poly} (ho : C.Computes o v)
    (hk : ∀ u, C.Represents u v → C.Computes (k u) w) : C.Computes (o >>= k) w := by
  obtain ⟨u, rfl, hu⟩ := ho
  exact hk u hu

theorem computes_forPlaces {f : ℕ → Option ℤ} {v : Poly} (h : ∀ i < polyN, C.Gives (f i) (v i)) :
    C.Computes (forPlaces f) v := by
  have hall : ((List.range polyN).all fun i => (f i).isSome) = true := by
    rw [List.all_eq_true]
    intro i hi
    obtain ⟨c, hc, -⟩ := h i (List.mem_range.mp hi)
    rw [hc]
    rfl
  refine ⟨_, if_pos hall, fun i hi => ?_⟩
  obtain ⟨c, hc, hstands⟩ := h i hi
  rw [hc]
  exact hstands

section Exact

variable (hC : C.Exact) {u v : Poly} {a x : ℤ}

include hC

theorem polyCoeffInvFrom_gives (ha : C.Stands a x) (rounds : ℕ) {e y : ℤ} (he : C.Stands e y) :
    C.Gives (C.polyCoeffInvFrom a rounds e) (Mam.polyCoeffInvFrom x rounds y) := by
  induction rounds generalizing e y with
  | zero => exact ⟨e, rfl, he⟩
  | succ rounds ih =>
    refine (hC.mul he he).bind fun t ht => ?_
    exact (hC.mul ht ha).bind fun e he => ih he

/-- **An inverse** stands for the inverse. -/
theorem polyCoeffInv_gives (ha : C.Stands a x) {y : ℤ} (hy : Mam.polyCoeffInv x = some y) :
    C.Gives (C.polyCoeffInv a) y := by
  unfold Mam.polyCoeffInv at hy
  dsimp only at hy
  split_ifs at hy with hone
  obtain rfl := Option.some.inj hy
  refine (polyCoeffInvFrom_gives hC ha 11 ha).bind fun e he => ?_
  refine (hC.mul he ha).bind fun t ht => ?_
  refine (hC.mul ht ht).bind fun t ht => ?_
  refine (hC.mul ht he).bind fun e he => ?_
  refine (hC.mul he ha).bind fun one hmul => ?_
  rw [hone] at hmul
  rw [if_pos (hC.injective hmul hC.one)]
  exact ⟨e, rfl, he⟩

theorem polyPermute_computes (hu : C.Represents u v) :
    C.Computes (polyPermute u) (Mam.polyPermute v) := by
  have hfold : ∀ (l : List ℕ), (∀ i ∈ l, i < polyN) → ∀ p q : Poly, C.Represents p q →
      C.Computes (l.foldlM (fun (p : Poly) i => do
          let r ← polyIdxRevTable[i]?
          if r < polyN then some (Function.update p r (u i)) else none) p)
        (l.foldl (fun q i => Function.update q (polyIdxRev i) (v i)) q) := by
    intro l
    induction l with
    | nil => exact fun _ p q hpq => ⟨p, rfl, hpq⟩
    | cons i l ih =>
      intro hl p q hpq
      have hi := hl i List.mem_cons_self
      rw [List.foldlM_cons, getElem?_polyIdxRevTable hi, Option.bind_eq_bind, Option.bind_eq_bind,
        Option.bind_some, if_pos (polyIdxRev_lt i), Option.bind_some, List.foldl_cons]
      refine ih (fun j hj => hl j (List.mem_cons_of_mem i hj)) _ _ fun j hj => ?_
      rw [Function.update_apply, Function.update_apply]
      split_ifs
      · exact hu i hi
      · exact hpq j hj
  exact hfold _ (fun i => List.mem_range.mp) _ _ fun _ _ => hC.zero

/-- **One stage** stays in its types. -/
theorem polyStage_computes {twiddle : ℕ → Option ℤ} {power : ℕ → ℤ}
    (htwiddle : ∀ r < polyN / 2, C.Gives (twiddle r) (power r)) (i : ℕ)
    (hu : C.Represents u v) : C.Computes (C.polyStage twiddle i u) (Mam.polyStage power i v) := by
  have hhalf : polyN / 2 + polyN / 2 = polyN := by decide
  refine computes_forPlaces fun j hj => ?_
  rw [Mam.polyStage]
  split_ifs with hlow
  · refine (htwiddle _ (by omega)).bind fun w hw => ?_
    exact (hC.mul (hu _ (by omega)) hw).bind fun d hd => hC.add (hu _ (by omega)) hd
  · dsimp only
    refine (htwiddle _ (by omega)).bind fun w hw => ?_
    exact (hC.mul (hu _ (by omega)) hw).bind fun d hd => hC.sub (hu _ (by omega)) hd

theorem polyStages_computes {twiddle : ℕ → Option ℤ} {power : ℕ → ℤ}
    (htwiddle : ∀ r < polyN / 2, C.Gives (twiddle r) (power r)) (i : ℕ)
    (hu : C.Represents u v) : C.Computes (C.polyStages twiddle i u) (Mam.polyStages power i v) := by
  induction i generalizing u v with
  | zero => exact ⟨u, rfl, hu⟩
  | succ i ih => exact (polyStage_computes hC htwiddle i hu).bind fun u hu => ih hu

theorem polyNtt_computes (hu : C.Represents u v) : C.Computes (C.polyNtt u) (Mam.polyNtt v) := by
  have hfirst : C.Computes (forPlaces fun i => do
      let g ← C.polyGammaExp[i]?
      C.polyCoeffMul g (u i)) fun i => Mam.polyCoeffMul (Mam.polyGammaExp i) (v i) :=
    computes_forPlaces fun i hi =>
      (hC.gamma_exp (by omega)).bind fun g hg => hC.mul hg (hu i hi)
  refine hfirst.bind fun a ha => (polyPermute_computes hC ha).bind fun u hu => ?_
  exact polyStages_computes hC (fun r hr => hC.gamma_exp (by omega)) polyNLog hu

theorem polyIntt_computes (hu : C.Represents u v) :
    C.Computes (C.polyIntt u) (Mam.polyIntt v) := by
  refine (polyPermute_computes hC hu).bind fun u hu => ?_
  refine (polyStages_computes hC (fun r _ => hC.gamma_exp (Nat.sub_le _ _)) polyNLog hu).bind
    fun f hf => computes_forPlaces fun i hi => ?_
  refine (hC.gamma_exp (Nat.sub_le _ _)).bind fun g hg => ?_
  exact (hC.mul hC.n_inv hg).bind fun c hc => hC.mul hc (hf i hi)

theorem polyConv_computes {u' v' : Poly} (hu : C.Represents u v) (hu' : C.Represents u' v') :
    C.Computes (C.polyConv u u') (Mam.polyConv v v') :=
  computes_forPlaces fun i hi => hC.mul (hu i hi) (hu' i hi)

/-- **Places without a zero** are all inverted. -/
theorem polyInv_computes (hu : C.Represents u v) (hne : ∀ i < polyN, v i ≠ 0) :
    ∃ w, C.Computes (C.polyInv u) w ∧ ∀ i < polyN, residue w i * residue v i = 1 := by
  have hplace : ∀ i < polyN, ∃ y, C.Gives (C.polyCoeffInv (u i)) y ∧ (y : Coeff) * v i = 1 := by
    intro i hi
    have hreduced := hC.reduced (hu i hi)
    obtain ⟨y, hy, -, hval⟩ := polyCoeffInv_spec hreduced (hne i hi)
    have hzero : (v i : Coeff) ≠ 0 := fun h =>
      hne i hi (hreduced.eq ⟨by decide, by decide⟩ (h.trans Int.cast_zero.symm))
    exact ⟨y, polyCoeffInv_gives hC (hu i hi) hy, by rw [hval, inv_mul_cancel₀ hzero]⟩
  choose! w hw using hplace
  exact ⟨w, computes_forPlaces fun i hi => (hw i hi).1, fun i hi => (hw i hi).2⟩

end Exact

/-! ## What comes out -/

variable (C)

/-- Every place has a coefficient. -/
def PolyInRange (f : Poly) : Prop := ∀ i < polyN, C.InRange (f i)

/-- What a coefficient stands for, modulo `q`. -/
def value (a : ℤ) : Coeff := ((C.polyCoeffToTrint9 a).getD 0 : ℤ)

/-- The transforms lead back, they multiply modulo `x ^ n + 1` and `q`, and coefficients are inverted.
No number leaves its type on the way. -/
structure TransformsExactly : Prop where
  inverse {f : Poly} : C.PolyInRange f →
    ∃ t h, C.polyNtt f = some t ∧ C.PolyInRange t ∧ C.polyIntt t = some h ∧ ∀ i < polyN, h i = f i
  product {f g : Poly} : C.PolyInRange f → C.PolyInRange g →
    ∃ tf tg th h, C.polyNtt f = some tf ∧ C.polyNtt g = some tg ∧ C.polyConv tf tg = some th ∧
      C.polyIntt th = some h ∧ C.PolyInRange h ∧
      IsProduct polyN (fun i => C.value (f i)) (fun i => C.value (g i)) fun i => C.value (h i)
  coeff_inv {a : ℤ} : C.InRange a → a ≠ 0 →
    ∃ e, C.polyCoeffInv a = some e ∧ C.InRange e ∧ C.polyCoeffMul e a = some C.polyCoeffOne ∧
      C.value e * C.value a = 1

variable {C} {f g u v : Poly}

theorem Stands.value {a x : ℤ} (h : C.Stands a x) : C.value a = x := by
  rw [PolyCoeffs.value, h.2, Option.getD_some]

theorem Represents.polyInRange (h : C.Represents u v) : C.PolyInRange u := fun i hi => (h i hi).1

theorem Exact.represents (hC : C.Exact) (hf : C.PolyInRange f) :
    C.Represents f fun i => (C.polyCoeffToTrint9 (f i)).getD 0 := by
  intro i hi
  obtain ⟨x, -, hx⟩ := hC.stands (hf i hi)
  refine ⟨hf i hi, ?_⟩
  dsimp only
  rw [hx.2, Option.getD_some]

theorem residue_polyIntt_polyConv (v w : Poly) {k : ℕ} (hk : k < polyN) :
    residue (Mam.polyIntt (Mam.polyConv (Mam.polyNtt v) (Mam.polyNtt w))) k =
      mul polyN (residue v) (residue w) k := by
  refine residue_polyIntt (fun b hb => ?_) hk
  have hroot : (gamma ^ (2 * b + 1)) ^ polyN = -1 := by
    rw [← pow_mul, Nat.mul_comm, pow_mul, gamma_pow_polyN]
    exact Odd.neg_one_pow ⟨b, rfl⟩
  rw [eval_mul hroot, residue, Mam.polyConv, cast_polyCoeffMul, ← residue_polyNtt v hb,
    ← residue_polyNtt w hb]
  rfl

/-- **Coefficients that are computed with as their numbers** make exact transforms. -/
theorem Exact.transforms (hC : C.Exact) : C.TransformsExactly where
  inverse {f} hf := by
    have hv := hC.represents hf
    obtain ⟨t, ht, hrep⟩ := polyNtt_computes hC hv
    obtain ⟨h, hh, hback⟩ := polyIntt_computes hC hrep
    refine ⟨t, h, ht, hrep.polyInRange, hh, fun i hi => ?_⟩
    refine hC.injective (hback i hi) ?_
    have heq := (hC.reduced (hback i hi)).eq (hC.reduced (hv i hi))
      (residue_polyIntt (fun b hb => residue_polyNtt _ hb) hi)
    rw [heq]
    exact hv i hi
  product {f g} hf hg := by
    have hv := hC.represents hf
    have hw := hC.represents hg
    obtain ⟨tf, htf, hrep⟩ := polyNtt_computes hC hv
    obtain ⟨tg, htg, hrep'⟩ := polyNtt_computes hC hw
    obtain ⟨th, hth, hconv⟩ := polyConv_computes hC hrep hrep'
    obtain ⟨h, hh, hback⟩ := polyIntt_computes hC hconv
    refine ⟨tf, tg, th, h, htf, htg, hth, hh, hback.polyInRange, ?_⟩
    refine isProduct_of_eq_mul fun i hi => ?_
    rw [(hback i hi).value]
    exact residue_polyIntt_polyConv _ _ hi
  coeff_inv {a} ha hne := by
    obtain ⟨x, hreduced, hx⟩ := hC.stands ha
    have hxne : x ≠ 0 := by
      rintro rfl
      exact hne (hC.injective hx hC.zero)
    obtain ⟨y, hy, hyr, hval⟩ := polyCoeffInv_spec hreduced hxne
    obtain ⟨e, he, hstands⟩ := polyCoeffInv_gives hC hx hy
    obtain ⟨one, hone, hmul⟩ := hC.mul hstands hx
    have hzero : (x : Coeff) ≠ 0 := fun h =>
      hxne (hreduced.eq ⟨by decide, by decide⟩ (h.trans Int.cast_zero.symm))
    have hinv : (y : Coeff) * x = 1 := by rw [hval, inv_mul_cancel₀ hzero]
    have hnum : Mam.polyCoeffMul y x = Mam.polyCoeffOne := by
      refine (reduced_polyCoeffMul hyr hreduced).eq ⟨by decide, by decide⟩ ?_
      rw [cast_polyCoeffMul, hinv, Mam.polyCoeffOne, Int.cast_one]
    rw [hnum] at hmul
    refine ⟨e, he, hstands.1, by rw [hone, hC.injective hmul hC.one], ?_⟩
    rw [hstands.value, hx.value, hinv]

end PolyCoeffs

/-- **The transforms are exact**, with either kind of coefficients. -/
theorem transformsExactly :
    signedCoeffs.TransformsExactly ∧ montgomeryCoeffs.TransformsExactly :=
  ⟨Signed.exact.transforms, Montgomery.exact.transforms⟩

end Mam

end Entangled
