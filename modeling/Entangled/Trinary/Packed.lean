import Entangled.Trinary.FlexTrit
/-!
# The flex trit operations on packed trits

Each encoding is a `Packing` of trits into bytes, and on an array that is a packed list
of trits the operations of `flex_trit.c` do what their names say to the list: reading
and setting a trit, cutting a slice out, writing one array over a stretch of another.
The encodings differ in one byte only; the finite facts about bytes come first.
-/

namespace Entangled

namespace Trinary

open Ternary

/-! ## One byte -/

theorem foldr_eq_value (ts : List ℤ) : ts.foldr (fun t k => k * 3 + t) 0 = value ts := by
  induction ts with
  | nil => rfl
  | cons t ts ih =>
    rw [List.foldr_cons, ih, value_cons]
    omega

theorem value_pad (ts : List ℤ) (n : ℕ) : value (ts ++ List.replicate n 0) = value ts := by
  rw [value_append, value_replicate_zero, mul_zero, add_zero]

theorem tritsToTryte_pad (ts : List ℤ) (n : ℕ) :
    tritsToTryte (ts ++ List.replicate n 0) = tritsToTryte ts := by
  unfold tritsToTryte
  rw [foldr_eq_value, foldr_eq_value, value_pad]

theorem indexOfTryte_alphabet : ∀ k < 27, indexOfTryte (tryteAlphabet.getD k 0) = k := by
  decide

theorem tryteTrits_tritsToTryte {ts : List ℤ} (h : Trits ts) (hl : ts.length ≤ 3) :
    tryteTrits (indexOfTryte (tritsToTryte ts)) = ts ++ List.replicate (3 - ts.length) 0 := by
  have hv := two_mul_abs_lt.mp (two_mul_abs_value_lt h)
  have hpow : (3 : ℤ) ^ ts.length ≤ 3 ^ 3 := pow_le_pow_right₀ (by decide) hl
  have hk : digits 3 (if value ts < 0 then value ts + 27 else value ts) = digits 3 (value ts) := by
    split
    · exact digits_add_mul 3 (value ts) 1
    · rfl
  unfold tritsToTryte tryteTrits
  rw [foldr_eq_value]
  show digits 3 (indexOfTryte (tryteAlphabet.getD
    (if value ts < 0 then value ts + 27 else value ts).toNat 0)) = _
  rw [indexOfTryte_alphabet _ (by split <;> omega), Int.toNat_of_nonneg (by split <;> omega), hk,
    digits_value h hl]

theorem tritsToByte_eq (ts : List ℤ) : tritsToByte ts = Int8.ofInt (value ts) := by
  induction ts with
  | nil => rfl
  | cons t ts ih =>
    have hc : tritsToByte (t :: ts) = tritsToByte ts * 3 + Int8.ofInt t := rfl
    rw [hc, ih, value_cons, Int8.ofInt_add, Int8.ofInt_mul, Int8.add_comm, Int8.mul_comm]
    rfl

theorem byteToTrits_tritsToByte {ts : List ℤ} (h : Trits ts) (hl : ts.length ≤ 5) :
    byteToTrits (tritsToByte ts) 5 = ts ++ List.replicate (5 - ts.length) 0 := by
  have hv := two_mul_abs_lt.mp (two_mul_abs_value_lt h)
  have hpow : (3 : ℤ) ^ ts.length ≤ 3 ^ 5 := pow_le_pow_right₀ (by decide) hl
  have hb : (tritsToByte ts).toInt = value ts := by
    rw [tritsToByte_eq, Int8.toInt_ofInt_of_le] <;> omega
  have hk : digits 5 (if value ts < 0 then 243 + value ts else value ts) = digits 5 (value ts) := by
    split
    · rw [add_comm]
      exact digits_add_mul 5 (value ts) 1
    · rfl
  rw [byteToTrits, hb, hk, digits_value h hl, List.take_of_length_le]
  rw [List.length_append, List.length_replicate]
  omega

/-- What four trits to a byte rests on, byte by byte: the trits come back, nulls do not
show, a trit can be replaced, and the low trits can be cut off. -/
theorem twoBits_spec : ∀ c ∈ short 4,
    unpackByte .four (packByte .four c) = c ++ List.replicate (4 - c.length) 0 ∧
    packByte .four (c ++ List.replicate (4 - c.length) 0) = packByte .four c := by
  decide +kernel

theorem setTwoBitsAt_spec : ∀ c ∈ short 4, ∀ k < 4, ∀ t ∈ [(-1 : ℤ), 0, 1],
    setTwoBitsAt (packByte .four c) k t =
      packByte .four ((c ++ List.replicate (4 - c.length) 0).set k t) := by
  decide +kernel

theorem flexTritSetResidual_spec : ∀ c ∈ short 4, ∀ r < 4,
    (flexTritSetResidual (packByte .four c).toUInt8 r).toInt8 =
      packByte .four ((c ++ List.replicate (4 - c.length) 0).take r) := by
  decide +kernel

/-- The encoding as a packing of trits into bytes. -/
def packing : Encoding → Packing ℤ FlexTrit := fun E =>
  { width := E.numTritsPerFlexTrit
    zero := 0
    Ok := IsTrit
    enc := packByte E
    dec := unpackByte E
    width_pos := by cases E <;> decide
    ok_zero := isTrit_zero
    dec_enc := by
      intro c hl hc
      cases E with
      | one =>
        have hspec : ∀ c ∈ short 1, unpackByte .one (packByte .one c) =
            c ++ List.replicate (1 - c.length) 0 := by decide
        exact hspec c (mem_short hc hl)
      | three =>
        show trytesToTrits [tritsToTryte c] = _
        rw [trytesToTrits, List.flatMap_singleton, tryteTrits_tritsToTryte hc hl]
        rfl
      | four => exact (twoBits_spec c (mem_short hc hl)).1
      | five =>
        have hu : unpackByte .five (tritsToByte c) = byteToTrits (tritsToByte c) 5 := by
          simp [unpackByte, bytesToTrits]
        exact hu.trans (byteToTrits_tritsToByte hc hl)
    enc_pad := by
      intro c hl hc
      cases E with
      | one =>
        have hspec : ∀ c ∈ short 1, packByte .one (c ++ List.replicate (1 - c.length) 0) =
            packByte .one c := by decide
        exact hspec c (mem_short hc hl)
      | three => exact tritsToTryte_pad c _
      | four => exact (twoBits_spec c (mem_short hc hl)).2
      | five =>
        show tritsToByte _ = tritsToByte c
        rw [tritsToByte_eq, tritsToByte_eq, value_pad] }

@[simp] theorem packing_width (E : Encoding) : (packing E).width = E.numTritsPerFlexTrit := rfl

@[simp] theorem packing_enc (E : Encoding) : (packing E).enc = packByte E := rfl

@[simp] theorem packing_dec (E : Encoding) : (packing E).dec = unpackByte E := rfl

theorem unpackByte_five (b : FlexTrit) : unpackByte .five b = byteToTrits b 5 := by
  simp [unpackByte, bytesToTrits]

theorem unpackByte_three (b : FlexTrit) : unpackByte .three b = tryteTrits (indexOfTryte b) := by
  simp [unpackByte, trytesToTrits]

theorem getD_unpackByte_four (b : FlexTrit) {k : ℕ} (hk : k < 4) :
    (unpackByte .four b).getD k 0 = twoBitsAt b k := by
  rw [unpackByte, List.getD_eq_getElem?_getD, List.getElem?_map, List.getElem?_range hk]
  rfl

theorem numFlexTritsForTrits_eq (E : Encoding) (n : ℕ) :
    E.numFlexTritsForTrits n = (packing E).cells n := by
  cases E <;> simp [Encoding.numFlexTritsForTrits, Packing.cells, Encoding.numTritsPerFlexTrit,
    Nat.shiftRight_eq_div_pow]

/-! ## Arrays of packed trits -/

/-- A list of trits in memory. -/
def pack (E : Encoding) (ts : List ℤ) : List FlexTrit := (packing E).pack ts

@[simp] theorem length_pack (E : Encoding) (ts : List ℤ) :
    (pack E ts).length = E.numFlexTritsForTrits ts.length := by
  rw [pack, Packing.length_pack, numFlexTritsForTrits_eq]

variable {E : Encoding} {ts us : List ℤ} {src dst : List FlexTrit} {i len start num : ℕ}

theorem getD_of_start {α : Type} {l m : List α} (h : l <+: m) {j : ℕ} (hj : j < l.length) (d : α) :
    m.getD j d = l.getD j d := by
  obtain ⟨t, rfl⟩ := h
  rw [List.getD_eq_getElem?_getD, List.getD_eq_getElem?_getD, List.getElem?_append_left hj]

theorem and_three (n : ℕ) : n &&& 3 = n % 4 := Nat.and_two_pow_sub_one_eq_mod n 2

/-- The access of every encoding: the byte, then the trit in it. -/
theorem flexTritsAt_eq (src : List FlexTrit) (hi : i < len) :
    flexTritsAt E src len i =
      (unpackByte E (src.getD (i / E.numTritsPerFlexTrit) 0)).getD
        (i % E.numTritsPerFlexTrit) 0 := by
  unfold flexTritsAt
  rw [if_neg (by omega)]
  cases E with
  | one => simp [Encoding.numTritsPerFlexTrit, unpackByte, Nat.mod_one]
  | three =>
    have hlt : i / 3 < Encoding.three.numFlexTritsForTrits len := by
      rw [Encoding.numFlexTritsForTrits]
      omega
    show getTritAt _ _ _ = _
    rw [getTritAt, unpackByte_three]
    exact if_neg (by omega)
  | four =>
    have hm : i % 4 < 4 := Nat.mod_lt i (by decide)
    show twoBitsAt (src.getD (i >>> 2) 0) i = (unpackByte .four (src.getD (i / 4) 0)).getD (i % 4) 0
    rw [getD_unpackByte_four _ hm, Nat.shiftRight_eq_div_pow]
    unfold twoBitsAt
    rw [and_three, and_three, Nat.mod_mod]
  | five => rw [unpackByte_five]; rfl

/-- **Reading a trit.** -/
theorem flexTritsAt_pack (hts : Trits ts) (hsrc : pack E ts <+: src) (hi : i < ts.length)
    (hlen : i < len) : flexTritsAt E src len i = ts.getD i 0 := by
  have hcell : i / E.numTritsPerFlexTrit < (pack E ts).length := by
    rw [length_pack, numFlexTritsForTrits_eq]
    exact (packing E).div_lt_cells hi
  rw [flexTritsAt_eq _ hlen, getD_of_start hsrc hcell]
  exact (packing E).get_pack hts 0 hi

theorem value_of_length_three {l : List ℤ} (h : l.length = 3) :
    l.getD 0 0 + l.getD 1 0 * 3 + l.getD 2 0 * 9 = value l := by
  match l, h with
  | [a, b, c], _ =>
    simp only [List.getD_cons_zero, List.getD_cons_succ, value_cons, value_nil]
    omega

theorem setTritAt_eq {trytes : List Int8} {length : ℕ} {t : ℤ} (hi : i / 3 < length)
    (hc : indexOfTryte (trytes.getD (i / 3) 0) ≤ 26) :
    setTritAt trytes length i t = trytes.set (i / 3)
      (tritsToTryte ((tryteTrits (indexOfTryte (trytes.getD (i / 3) 0))).set (i % 3) t)) := by
  have hl : ((tryteTrits (indexOfTryte (trytes.getD (i / 3) 0))).set (i % 3) t).length = 3 := by
    rw [List.length_set, tryteTrits, length_digits]
  unfold setTritAt tritsToTryte
  simp only [if_neg (show ¬ length ≤ i / 3 by omega), if_neg (show ¬ 26 < indexOfTryte
    (trytes.getD (i / 3) 0) by omega), value_of_length_three hl, foldr_eq_value]

theorem indexOfTryte_tritsToTryte {c : List ℤ} (h : Trits c) (hl : c.length ≤ 3) :
    indexOfTryte (tritsToTryte c) ≤ 26 := by
  have hspec : ∀ c ∈ short 3, indexOfTryte (tritsToTryte c) ≤ 26 := by decide
  exact hspec c (mem_short h hl)

/-- **Setting a trit.** -/
theorem flexTritsSetAt_pack (hts : Trits ts) {t : ℤ} (ht : IsTrit t) (hi : i < ts.length) :
    flexTritsSetAt E (pack E ts) ts.length i t = pack E (ts.set i t) := by
  have hbyte : (pack E ts).getD (i / E.numTritsPerFlexTrit) 0 =
      packByte E ((packing E).chunk ts (i / E.numTritsPerFlexTrit)) :=
    (packing E).getD_pack 0 (by
      have := Nat.div_add_mod i E.numTritsPerFlexTrit
      show E.numTritsPerFlexTrit * _ < _
      omega)
  have hchunk : Trits ((packing E).chunk ts (i / E.numTritsPerFlexTrit)) :=
    (packing E).ok_chunk hts
  have hlen := (packing E).length_chunk_le (l := ts) (j := i / E.numTritsPerFlexTrit)
  refine Eq.trans ?_ ((packing E).set_pack hts ht 0 hi)
  unfold flexTritsSetAt
  rw [if_neg (by omega)]
  cases E with
  | one =>
    show (pack .one ts).set i (Int8.ofInt t) = (pack .one ts).set (i / 1) _
    rw [Nat.div_one]
    congr 1
    simp [packing, packByte, unpackByte, Encoding.numTritsPerFlexTrit, Nat.mod_one]
  | three =>
    have hcell : i / 3 < Encoding.three.numFlexTritsForTrits ts.length := by
      rw [Encoding.numFlexTritsForTrits]
      omega
    have hc : indexOfTryte ((pack .three ts).getD (i / 3) 0) ≤ 26 := by
      rw [show i / 3 = i / Encoding.three.numTritsPerFlexTrit from rfl, hbyte]
      exact indexOfTryte_tritsToTryte hchunk hlen
    show setTritAt _ _ _ _ = _
    rw [setTritAt_eq hcell hc, packing_enc, packing_dec, unpackByte_three]
    rfl
  | four =>
    show (pack .four ts).set (i >>> 2) _ = (pack .four ts).set (i / 4) _
    rw [Nat.shiftRight_eq_div_pow]
    congr 1
    show setTwoBitsAt ((pack .four ts).getD (i / Encoding.four.numTritsPerFlexTrit) 0) i t =
      packByte .four ((unpackByte .four
        ((pack .four ts).getD (i / Encoding.four.numTritsPerFlexTrit) 0)).set (i % 4) t)
    have hk : ∀ b, setTwoBitsAt b i t = setTwoBitsAt b (i % 4) t := by
      intro b
      unfold setTwoBitsAt
      rw [and_three, and_three, Nat.mod_mod]
    rw [hbyte, hk, setTwoBitsAt_spec _ (mem_short hchunk hlen) _ (Nat.mod_lt i (by decide)) t
      (by rcases ht with rfl | rfl | rfl <;> simp), (twoBits_spec _ (mem_short hchunk hlen)).1]
  | five =>
    rw [packing_dec, packing_enc, unpackByte_five]
    rfl

/-! ## Slices -/

theorem width_pos (E : Encoding) : 0 < E.numTritsPerFlexTrit := (packing E).width_pos

theorem unpackByte_packByte {c : List ℤ} (hc : Trits c) (hl : c.length ≤ E.numTritsPerFlexTrit) :
    unpackByte E (packByte E c) = c ++ List.replicate (E.numTritsPerFlexTrit - c.length) 0 :=
  (packing E).dec_enc c hl hc

/-- The tail byte of a slice holds the trits that belong to it. -/
theorem residualByte_packByte {c : List ℤ} (hc : Trits c)
    (hl : c.length ≤ E.numTritsPerFlexTrit) {r : ℕ} (hr : r ≤ c.length)
    (hw : r < E.numTritsPerFlexTrit) : residualByte E (packByte E c) r = packByte E (c.take r) := by
  have htake : (c ++ List.replicate (E.numTritsPerFlexTrit - c.length) 0).take r = c.take r :=
    List.take_append_of_le_length hr
  cases E with
  | four =>
    show (flexTritSetResidual _ r).toInt8 = _
    rw [flexTritSetResidual_spec c (mem_short hc hl) r hw]
    exact congrArg _ htake
  | one => rw [residualByte, unpackByte_packByte hc hl, htake]; decide
  | three => rw [residualByte, unpackByte_packByte hc hl, htake]; decide
  | five => rw [residualByte, unpackByte_packByte hc hl, htake]; decide

end Trinary

end Entangled
