import Entangled.Common.Ternary
import Mathlib.Data.List.GetD
/-!
# Trits in parallel

`ptrit.c` and `ptrit_incr.c`. A `ptrit_t` holds as many trits as a word has bits, each of them as one
bit of either of two words; bit by bit they are told apart by the table that the library is built
with. A *lane* is what stands at one place of the words.

An array of these is a function of the index. A write to one word is what the source writes through
64-bit parts of it.
-/

namespace Entangled

namespace Parallel

open Ternary

/-- `PTRIT_CVT_ANDN` and `PTRIT_CVT_ORN`. -/
inductive Cvt
  | andn
  | orn
  deriving DecidableEq

/-- `ptrit_t`, of `PTRIT_SIZE` trits. -/
@[ext]
structure Ptrit (n : ℕ) where
  low : BitVec n
  high : BitVec n
  deriving DecidableEq

/-- `NaT`. -/
def notATrit : ℤ := 2

/-- `cvt_te1_to_tep`. -/
def cvtTe1ToTep : Cvt → List (Bool × Bool)
  | .andn => [(true, true), (false, true), (false, false), (true, false)]
  | .orn => [(false, true), (true, true), (true, false), (false, false)]

/-- `cvt_tep_to_te1`. -/
def cvtTepToTe1 : Cvt → Bool → Bool → ℤ
  | .andn, false, false => notATrit
  | .andn, false, true => 1
  | .andn, true, false => -1
  | .andn, true, true => 0
  | .orn, false, false => -1
  | .orn, false, true => 0
  | .orn, true, false => notATrit
  | .orn, true, true => 1

/-- The bits for a trit, of which the last two bits count. -/
def bitsOf (C : Cvt) (t : ℤ) : Bool × Bool := (cvtTe1ToTep C).getD (t % 4).toNat (false, false)

section

variable {n : ℕ}

/-- A bit in every place. -/
def fillWord (b : Bool) : BitVec n := if b then BitVec.allOnes n else 0#n

/-- One bit is cleared and then set. -/
def setBit (w : BitVec n) (idx : ℕ) (b : Bool) : BitVec n :=
  (w &&& ~~~BitVec.twoPow n idx) ||| (if b then BitVec.twoPow n idx else 0#n)

/-- `ptrit_fill`. -/
def ptritFill (C : Cvt) (t : ℤ) : Ptrit n := ⟨fillWord (bitsOf C t).1, fillWord (bitsOf C t).2⟩

/-- `ptrit_set`. -/
def ptritSet (C : Cvt) (p : Ptrit n) (idx : ℕ) (t : ℤ) : Ptrit n :=
  ⟨setBit p.low idx (bitsOf C t).1, setBit p.high idx (bitsOf C t).2⟩

/-- `ptrit_get`. -/
def ptritGet (C : Cvt) (p : Ptrit n) (idx : ℕ) : ℤ :=
  cvtTepToTe1 C (p.low.getLsbD idx) (p.high.getLsbD idx)

/-- `ptrits_fill`, over all of `src`. -/
def ptritsFill (C : Cvt) (src : List ℤ) (dst : ℕ → Ptrit n) : ℕ → Ptrit n :=
  fun k => if k < src.length then ptritFill C (src.getD k 0) else dst k

/-- `ptrits_set_slice`, with all of `src`. -/
def ptritsSetSlice (C : Cvt) (dst : ℕ → Ptrit n) (idx : ℕ) (src : List ℤ) : ℕ → Ptrit n :=
  fun k => if k < src.length then ptritSet C (dst k) idx (src.getD k 0) else dst k

/-- `ptrits_get_slice`. -/
def ptritsGetSlice (C : Cvt) (count : ℕ) (src : ℕ → Ptrit n) (idx : ℕ) : List ℤ :=
  (List.range count).map fun k => ptritGet C (src k) idx

/-- `ptrits_sum_slice`. -/
def ptritsSumSlice (C : Cvt) (count : ℕ) (p : ℕ → Ptrit n) (idx : ℕ) : ℤ :=
  (ptritsGetSlice C count p idx).sum

/-! ## The trit in a lane -/

variable {C : Cvt} {p : Ptrit n} {i idx : ℕ} {t : ℤ}

/-- Three of the codes are trits. -/
theorem bits_of_isTrit (ht : IsTrit t) : cvtTepToTe1 C (bitsOf C t).1 (bitsOf C t).2 = t := by
  rcases ht with rfl | rfl | rfl <;> cases C <;> rfl

theorem getLsbD_fillWord (b : Bool) (hi : i < n) : (fillWord b : BitVec n).getLsbD i = b := by
  cases b
  · exact BitVec.getLsbD_zero
  · rw [fillWord, if_pos rfl, BitVec.getLsbD_allOnes, decide_eq_true hi]

theorem getLsbD_setBit (w : BitVec n) (b : Bool) (hidx : idx < n) (hi : i < n) :
    (setBit w idx b).getLsbD i = if i = idx then b else w.getLsbD i := by
  rw [setBit, BitVec.getLsbD_or, BitVec.getLsbD_and, BitVec.getLsbD_not, BitVec.getLsbD_twoPow,
    decide_eq_true hidx, decide_eq_true hi]
  by_cases heq : i = idx
  · subst heq
    cases b <;> simp [hidx]
  · have hne : idx ≠ i := fun h => heq h.symm
    cases b <;> simp [hne, heq]

theorem ptritGet_fill (ht : IsTrit t) (hi : i < n) : ptritGet C (ptritFill C t : Ptrit n) i = t := by
  rw [ptritGet, ptritFill, getLsbD_fillWord _ hi, getLsbD_fillWord _ hi, bits_of_isTrit ht]

/-- **Setting a lane** changes this lane. -/
theorem ptritGet_set (ht : IsTrit t) (hidx : idx < n) (hi : i < n) :
    ptritGet C (ptritSet C p idx t) i = if i = idx then t else ptritGet C p i := by
  rw [ptritGet, ptritSet, getLsbD_setBit _ _ hidx hi, getLsbD_setBit _ _ hidx hi]
  split_ifs
  · exact bits_of_isTrit ht
  · rfl

theorem length_ptritsGetSlice (count : ℕ) (src : ℕ → Ptrit n) (idx : ℕ) :
    (ptritsGetSlice C count src idx).length = count := by
  rw [ptritsGetSlice, List.length_map, List.length_range]

theorem getD_ptritsGetSlice {count k : ℕ} (src : ℕ → Ptrit n) (idx : ℕ) (hk : k < count) :
    (ptritsGetSlice C count src idx).getD k 0 = ptritGet C (src k) idx := by
  rw [List.getD_eq_getElem _ _ (by rwa [length_ptritsGetSlice])]
  simp only [ptritsGetSlice, List.getElem_map, List.getElem_range]

/-- A lane reads as a list. -/
theorem ptritsGetSlice_eq {src : ℕ → Ptrit n} {ts : List ℤ}
    (hlane : ∀ k < ts.length, ptritGet C (src k) i = ts.getD k 0) :
    ptritsGetSlice C ts.length src i = ts := by
  refine List.ext_getElem (length_ptritsGetSlice _ _ _) fun k h₁ h₂ => ?_
  rw [← List.getD_eq_getElem _ 0 h₁, getD_ptritsGetSlice _ _ h₂, hlane k h₂,
    List.getD_eq_getElem _ _ h₂]

theorem ptritGet_setSlice {dst : ℕ → Ptrit n} {src : List ℤ} (hsrc : Trits src) (hidx : idx < n)
    (hi : i < n) {k : ℕ} (hk : k < src.length) :
    ptritGet C (ptritsSetSlice C dst idx src k) i =
      if i = idx then src.getD k 0 else ptritGet C (dst k) i := by
  rw [ptritsSetSlice, if_pos hk, ptritGet_set (hsrc.getD k) hidx hi]

end

end Parallel

end Entangled
