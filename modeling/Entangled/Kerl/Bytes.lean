import Entangled.Kerl.Stale
/-!
# Bytes to trits

`convert_bytes_to_trits`: the bytes are a number in two's complement, which is moved into the range
of 242 trits counted from zero and then divided by three, trit by trit. A negative number is moved
one of two ways, and the comparison that chooses leaves one number, `-(HALF_3 + 1)`, on the way
where it is subtracted from something smaller: there the assertion of `bigint_sub` fails.
-/

namespace Entangled

namespace Kerl

open Bigint
open Ternary (Trits trits_cons trits_append IsTrit)

/-- The inner loop of the division by three, from the highest word on: the words and the
remainder. -/
def divLoop : List ℕ → List ℕ × ℕ
  | [] => ([], 0)
  | w :: ws =>
    let r := divLoop ws
    let lhs := r.2 * 2 ^ 32 + w
    (lhs / 3 % 2 ^ 32 :: r.1, lhs % 3)

/-- The loop over `n` trits. -/
def tritLoop : ℕ → List ℕ → List ℤ
  | 0, _ => []
  | n + 1, base =>
    let r := divLoop base
    ((r.2 : ℤ) - 1) :: tritLoop n r.1

/-- `convert_bytes_to_trits`; `none` where an assertion of `bigint_sub` fails. -/
def convertBytesToTrits (bytes : List UInt8) : Option (List ℤ) :=
  if isNull (loadWords bytes) then some (List.replicate 243 0)
  else
    let base := loadWords bytes.reverse
    if base.getD 11 0 / 2 ^ 31 = 0 then some (tritLoop 242 (bigintAdd base half3) ++ [0])
    else
      let base := bigintNot base
      if 0 < bigintCmp base half3 then
        (bigintSubChecked base half3).map fun base => (tritLoop 242 base).map (- ·) ++ [0]
      else
        let base := (bigintAddSmall base 1).1
        (bigintSubChecked half3 base).map fun base => tritLoop 242 base ++ [0]

/-! ## Dividing by three -/

variable {ws : List ℕ} {bytes : List UInt8} {trits ts : List ℤ}

theorem divLoop_spec (h : Words ws) :
    Words (divLoop ws).1 ∧ (divLoop ws).2 < 3 ∧
      3 * value (divLoop ws).1 + (divLoop ws).2 = value ws := by
  induction ws with
  | nil => exact ⟨words_nil, by decide, rfl⟩
  | cons w ws ih =>
    obtain ⟨hw, hws⟩ := words_cons.mp h
    obtain ⟨hwords, hrem, hval⟩ := ih hws
    refine ⟨words_cons.mpr ⟨Nat.mod_lt _ (by decide), hwords⟩, Nat.mod_lt _ (by decide), ?_⟩
    have hfits : ((divLoop ws).2 * 2 ^ 32 + w) / 3 < 2 ^ 32 := by omega
    rw [divLoop]
    dsimp only
    rw [Nat.mod_eq_of_lt hfits, value_cons, value_cons]
    omega

@[simp] theorem length_tritLoop (n : ℕ) (base : List ℕ) : (tritLoop n base).length = n := by
  induction n generalizing base with
  | zero => rfl
  | succ n ih => rw [tritLoop, List.length_cons, ih]

/-- **The digits** are those of the number, as far as there are trits for them. -/
theorem tritLoop_spec (n : ℕ) (h : Words ws) :
    Trits (tritLoop n ws) ∧ shifted (tritLoop n ws) = value ws % 3 ^ n := by
  induction n generalizing ws with
  | zero => exact ⟨Ternary.trits_nil, (Nat.mod_one _).symm⟩
  | succ n ih =>
    obtain ⟨hwords, hrem, hval⟩ := divLoop_spec h
    obtain ⟨htrits, hshift⟩ := ih hwords
    have hdigit : digitOf (((divLoop ws).2 : ℤ) - 1) = (divLoop ws).2 := by
      unfold digitOf
      omega
    refine ⟨trits_cons.mpr ⟨?_, htrits⟩, ?_⟩
    · unfold IsTrit
      omega
    · rw [tritLoop, shifted_cons, hdigit, hshift, pow_succ', Nat.mod_mul,
        show value ws % 3 = (divLoop ws).2 by omega,
        show value ws / 3 = value (divLoop ws).1 by omega]
      omega

/-- So the number of the trits is the number less half of the range, modulo the range. -/
theorem value_tritLoop (h : Words ws) :
    Ternary.value (tritLoop 242 ws) = (value ws % 3 ^ 242 : ℕ) - (value half3 : ℤ) := by
  obtain ⟨htrits, hshift⟩ := tritLoop_spec 242 h
  have htwo := two_mul_shifted htrits
  have hhalf := value_half3
  rw [hshift, length_tritLoop] at htwo
  omega

/-! ## The sign -/

theorem value_half3_lt : value half3 < 2 ^ 31 * (2 ^ 32) ^ 11 := by decide

theorem room_eq : (2 ^ 32) ^ 12 = 2 * (2 ^ 31 * (2 ^ 32) ^ 11) := by decide

/-- The top bit is set where the number is in the upper half. -/
theorem topBit_eq_zero_iff (h : Words ws) (hl : ws.length = 12) :
    ws.getD 11 0 / 2 ^ 31 = 0 ↔ value ws < 2 ^ 31 * (2 ^ 32) ^ 11 := by
  have hsplit := value_take_succ (m := 11) (by omega : 11 < ws.length)
  have hlow := value_lt (h.take 11)
  rw [List.take_of_length_le hl.le] at hsplit
  rw [List.length_take, hl, Nat.min_eq_left (by decide)] at hlow
  rw [Nat.div_eq_zero_iff_lt (by decide), hsplit]
  generalize (2 ^ 32) ^ 11 = P at hlow ⊢
  constructor
  · intro htop
    have := Nat.mul_le_mul_left P (Nat.succ_le_of_lt htop)
    rw [Nat.mul_succ] at this
    omega
  · intro hval
    by_contra hge
    have := Nat.mul_le_mul_left P (Nat.le_of_not_lt hge)
    omega

theorem signed_of_lt (h : unsigned bytes < 2 ^ 31 * (2 ^ 32) ^ 11) :
    signed bytes = unsigned bytes := by
  have hroom := room_eq
  unfold signed
  generalize 2 ^ 31 * (2 ^ 32) ^ 11 = H at h hroom
  generalize (2 ^ 32) ^ 12 = M at hroom ⊢
  exact Int.bmod_eq_of_le_mul_two (by omega) (by omega)

theorem signed_of_ge (h : 2 ^ 31 * (2 ^ 32) ^ 11 ≤ unsigned bytes) (hb : bytes.length = 48) :
    signed bytes = unsigned bytes - ((2 ^ 32) ^ 12 : ℕ) := by
  have hlt := unsigned_lt hb
  have hroom := room_eq
  unfold signed
  generalize 2 ^ 31 * (2 ^ 32) ^ 11 = H at h hroom
  generalize (2 ^ 32) ^ 12 = M at hlt hroom ⊢
  rw [← Int.sub_bmod_right]
  exact Int.bmod_eq_of_le_mul_two (by omega) (by omega)

/-! ## The conversion -/

/-- What the trits of a string of bytes are: 243 of them, the last one zero, and a number that is
congruent to that of the bytes and in the range of 242 trits. -/
structure Decodes (bytes : List UInt8) (trits : List ℤ) : Prop where
  length : trits.length = 243
  balanced : Trits trits
  last : trits.getD 242 1 = 0
  congruent : (3 ^ 242 : ℤ) ∣ Ternary.value trits - signed bytes
  range : 2 * |Ternary.value trits| < 3 ^ 242

theorem value_append_zero (ts : List ℤ) : Ternary.value (ts ++ [0]) = Ternary.value ts := by
  rw [Ternary.value_append, Ternary.value_cons, Ternary.value_nil, Int.mul_zero, Int.add_zero,
    Int.mul_zero, Int.add_zero]

theorem decodes_append_zero (hts : Trits ts) (hl : ts.length = 242)
    (h : (3 ^ 242 : ℤ) ∣ Ternary.value ts - signed bytes) : Decodes bytes (ts ++ [0]) := by
  have hval := value_append_zero ts
  refine ⟨by rw [List.length_append, hl]; rfl, ?_, ?_, by rwa [hval], ?_⟩
  · exact trits_append.mpr ⟨hts, trits_cons.mpr ⟨Ternary.isTrit_zero, Ternary.trits_nil⟩⟩
  · rw [List.getD_eq_getElem?_getD, List.getElem?_append_right (by omega), hl]
    rfl
  · have habs := Ternary.two_mul_abs_value_lt hts
    rwa [hval, ← hl]

/-- Bytes that are all zero are the number zero. -/
theorem signed_of_isNull (hb : bytes.length = 48) (h : isNull (loadWords bytes) = true) :
    signed bytes = 0 := by
  have hzero := value_eq_zero_of_isNull h
  rw [value_loadWords (by rw [hb]; decide)] at hzero
  have hall := Nat.digits_zero_of_eq_zero (by decide) hzero
  have hrep : bytes.reverse.map UInt8.toNat = List.replicate 48 0 := by
    rw [List.eq_replicate_iff]
    refine ⟨by rw [List.length_map, List.length_reverse, hb], fun d hd => hall d ?_⟩
    rw [List.map_reverse, List.mem_reverse] at hd
    exact hd
  exact (signed_eq (n := 0) (by rw [unsigned, hrep]; rfl)).trans Int.zero_bmod

/-- A remainder is as far from the number as a multiple of the divisor. -/
theorem dvd_of_mod (x T : ℕ) : (T : ℤ) ∣ (x : ℤ) - (x % T : ℕ) := by
  rw [Int.natCast_mod]
  exact Int.dvd_self_sub_emod

theorem cast_three_pow : ((3 ^ 242 : ℕ) : ℤ) = 3 ^ 242 := Nat.cast_pow 3 242

theorem decodes_replicate (hb : bytes.length = 48) (hnull : isNull (loadWords bytes) = true) :
    Decodes bytes (List.replicate 243 0) := by
  have hzero := signed_of_isNull hb hnull
  have hdec : Decodes bytes (List.replicate 242 0 ++ [0]) :=
    decodes_append_zero (Ternary.trits_replicate 242) List.length_replicate
      (by rw [Ternary.value_replicate_zero, hzero]; exact dvd_zero _)
  rwa [← List.replicate_succ'] at hdec

/-- A number that is not negative is moved up by half of the range. -/
theorem decodes_of_lt (hb : bytes.length = 48) (h : unsigned bytes < 2 ^ 31 * (2 ^ 32) ^ 11) :
    Decodes bytes (tritLoop 242 (bigintAdd (loadWords bytes.reverse) half3) ++ [0]) := by
  have hw := words_loadWords bytes.reverse
  have hl : (loadWords bytes.reverse).length = half3.length := by
    rw [length_loadWords, List.length_reverse, hb]
    rfl
  obtain ⟨hw', -, hval⟩ := bigintAdd_spec hw words_half3 hl
  have hhalf := value_half3_lt
  have hroom := room_eq
  rw [hl, ← unsigned_eq hb, show half3.length = 12 from rfl, Nat.mod_eq_of_lt (by omega)] at hval
  refine decodes_append_zero (tritLoop_spec 242 hw').1 (length_tritLoop _ _) ?_
  have hdvd := dvd_of_mod (value (bigintAdd (loadWords bytes.reverse) half3)) (3 ^ 242)
  rw [value_tritLoop hw', signed_of_lt h, ← cast_three_pow]
  rw [← Int.dvd_neg] at hdvd
  generalize value (bigintAdd (loadWords bytes.reverse) half3) = x at hval hdvd ⊢
  generalize 3 ^ 242 = T at hdvd ⊢
  rwa [show ((x % T : ℕ) : ℤ) - value half3 - unsigned bytes = -((x : ℤ) - (x % T : ℕ)) by omega]

/-- The inverted words of a negative number count from -1 downwards. -/
theorem value_bigintNot (hb : bytes.length = 48) (h : 2 ^ 31 * (2 ^ 32) ^ 11 ≤ unsigned bytes) :
    Words (bigintNot (loadWords bytes.reverse)) ∧
      (bigintNot (loadWords bytes.reverse)).length = 12 ∧
      (value (bigintNot (loadWords bytes.reverse)) : ℤ) = -signed bytes - 1 := by
  have hl : (loadWords bytes.reverse).length = 12 := by
    rw [length_loadWords, List.length_reverse, hb]
  obtain ⟨hw, hval⟩ := bigintNot_spec (words_loadWords bytes.reverse)
  rw [hl, ← unsigned_eq hb] at hval
  refine ⟨hw, by rw [bigintNot, List.length_map, hl], ?_⟩
  rw [signed_of_ge h hb]
  generalize (2 ^ 32) ^ 12 = M at hval ⊢
  omega

/-- A number below those of 242 trits loses half of the range, and its trits change sign. -/
theorem decodes_of_flip (hb : bytes.length = 48) (h : 2 ^ 31 * (2 ^ 32) ^ 11 ≤ unsigned bytes)
    (hcmp : value half3 ≤ value (bigintNot (loadWords bytes.reverse))) :
    Decodes bytes ((tritLoop 242 (bigintSub (bigintNot (loadWords bytes.reverse)) half3)).map (- ·)
      ++ [0]) := by
  obtain ⟨hw, hl, hval⟩ := value_bigintNot hb h
  obtain ⟨hw', -, hsub⟩ := bigintSub_spec hw words_half3 hl hcmp
  have hhalf := value_half3
  have hdvd := dvd_of_mod (value (bigintSub (bigintNot (loadWords bytes.reverse)) half3)) (3 ^ 242)
  refine decodes_append_zero (Ternary.trits_map_neg (tritLoop_spec 242 hw').1)
    (by rw [List.length_map, length_tritLoop]) ?_
  rw [Ternary.value_map_neg, value_tritLoop hw', ← cast_three_pow]
  generalize value (bigintSub (bigintNot (loadWords bytes.reverse)) half3) = x at hsub hdvd ⊢
  generalize 3 ^ 242 = T at hhalf hdvd ⊢
  have hsum := dvd_add hdvd (dvd_refl (T : ℤ))
  rwa [show (x : ℤ) - (x % T : ℕ) + T =
    -((x % T : ℕ) - (value half3 : ℤ)) - signed bytes by omega] at hsum

/-- Any other negative number is taken from half of the range, if it is one of 242 trits. -/
theorem decodes_of_sub (hb : bytes.length = 48) (h : 2 ^ 31 * (2 ^ 32) ^ 11 ≤ unsigned bytes)
    (hcmp : value (bigintNot (loadWords bytes.reverse)) < value half3) :
    Decodes bytes (tritLoop 242
      (bigintSub half3 (bigintAddSmall (bigintNot (loadWords bytes.reverse)) 1).1) ++ [0]) := by
  obtain ⟨hw, hl, hval⟩ := value_bigintNot hb h
  obtain ⟨hadd, hw', hl'⟩ := value_bigintAddSmall (by decide : 1 < 2 ^ 32) hw
  have hhlt := value_half3_lt
  have hroom := room_eq
  have hhalf := value_half3
  rw [hl, Nat.mod_eq_of_lt (by omega)] at hadd
  obtain ⟨hw'', -, hsub⟩ := bigintSub_spec words_half3 hw' (hl'.trans hl).symm (by omega)
  refine decodes_append_zero (tritLoop_spec 242 hw'').1 (length_tritLoop _ _) ?_
  rw [value_tritLoop hw'', Nat.mod_eq_of_lt (by omega), hsub, hadd]
  rw [show ((value half3 - (value (bigintNot (loadWords bytes.reverse)) + 1) : ℕ) : ℤ) -
    value half3 - signed bytes = 0 by omega]
  exact dvd_zero _

/-- **What the conversion does**: it fails at one number, and elsewhere gives what the bytes
mean. -/
theorem convertBytesToTrits_spec (hb : bytes.length = 48) :
    (signed bytes = -(value half3 : ℤ) - 1 → convertBytesToTrits bytes = none) ∧
      (signed bytes ≠ -(value half3 : ℤ) - 1 →
        ∃ trits, convertBytesToTrits bytes = some trits ∧ Decodes bytes trits) := by
  have hw := words_loadWords bytes.reverse
  have hl : (loadWords bytes.reverse).length = 12 := by
    rw [length_loadWords, List.length_reverse, hb]
  have htop := topBit_eq_zero_iff hw hl
  rw [← unsigned_eq hb] at htop
  unfold convertBytesToTrits
  by_cases hnull : isNull (loadWords bytes) = true
  · have hzero := signed_of_isNull hb hnull
    rw [if_pos hnull]
    exact ⟨fun h => by omega, fun _ => ⟨_, rfl, decodes_replicate hb hnull⟩⟩
  rw [if_neg hnull]
  dsimp only
  rcases Nat.lt_or_ge (unsigned bytes) (2 ^ 31 * (2 ^ 32) ^ 11) with hlow | hhigh
  · have hpos := signed_of_lt hlow
    rw [if_pos (htop.mpr hlow)]
    exact ⟨fun h => by omega, fun _ => ⟨_, rfl, decodes_of_lt hb hlow⟩⟩
  rw [if_neg (fun h => absurd (htop.mp h) (Nat.not_lt.mpr hhigh))]
  obtain ⟨hwn, hln, hnot⟩ := value_bigintNot hb hhigh
  have hcmp := bigintCmp_le_zero_iff hwn words_half3 hln
  by_cases hle : bigintCmp (bigintNot (loadWords bytes.reverse)) half3 ≤ 0
  · -- the branch that negates the number, and finds it one too large
    have hle' := hcmp.mp hle
    obtain ⟨hadd, hw', hl'⟩ := value_bigintAddSmall (by decide : 1 < 2 ^ 32) hwn
    have hhlt := value_half3_lt
    have hroom := room_eq
    rw [hln, Nat.mod_eq_of_lt (by omega)] at hadd
    rw [if_neg (by omega), bigintSubChecked_eq words_half3 hw' (hl'.trans hln).symm, hadd]
    constructor
    · intro hs
      rw [if_neg (by omega)]
      rfl
    · intro hs
      rw [if_pos (by omega)]
      exact ⟨_, rfl, decodes_of_sub hb hhigh (by omega)⟩
  · have hgt : ¬ value (bigintNot (loadWords bytes.reverse)) ≤ value half3 := fun h => hle (hcmp.mpr h)
    rw [if_pos (by omega), bigintSubChecked_eq hwn words_half3 hln, if_pos (by omega)]
    exact ⟨fun h => by omega, fun _ => ⟨_, rfl, decodes_of_flip hb hhigh (by omega)⟩⟩

/-! ## There and back -/

theorem set_last (hl : trits.length = 243) : trits.set 242 0 = trits.take 242 ++ [0] := by
  rw [List.set_eq_take_append_cons_drop, if_pos (by omega), List.drop_eq_nil_of_le (by omega)]

/-- Trits are known by the number they decode to. -/
theorem Decodes.eq_of_signed (h : Decodes bytes ts) (hts : Trits trits) (hl : trits.length = 243)
    (hs : signed bytes = Ternary.value (trits.take 242)) : ts = trits.set 242 0 := by
  rw [set_last hl]
  have hlast : (trits.take 242 ++ [0]).length = 243 := by
    rw [List.length_append, List.length_take, hl]
    rfl
  have htrits : Trits (trits.take 242 ++ [0]) :=
    trits_append.mpr ⟨hts.take 242, trits_cons.mpr ⟨Ternary.isTrit_zero, Ternary.trits_nil⟩⟩
  refine Ternary.value_injective h.balanced htrits (h.length.trans hlast.symm) ?_
  have habs := Ternary.two_mul_abs_value_lt (hts.take 242)
  have hrange := h.range
  have hdvd := h.congruent
  rw [List.length_take, hl, Nat.min_eq_left (by decide)] at habs
  rw [hs] at hdvd
  rw [value_append_zero]
  have hzero : Ternary.value ts - Ternary.value (trits.take 242) = 0 := by
    refine Int.eq_zero_of_abs_lt_dvd hdvd ?_
    have htri := abs_sub (Ternary.value ts) (Ternary.value (trits.take 242))
    omega
  omega

theorem convertBytesToTrits_of_signed (hb : bytes.length = 48) (hts : Trits trits)
    (hl : trits.length = 243) (hs : signed bytes = Ternary.value (trits.take 242)) :
    convertBytesToTrits bytes = some (trits.set 242 0) := by
  have habs := Ternary.two_mul_abs_lt.mp (Ternary.two_mul_abs_value_lt (hts.take 242))
  have hhalf := value_half3
  rw [List.length_take, hl, Nat.min_eq_left (by decide)] at habs
  obtain ⟨out, hout, hdec⟩ := (convertBytesToTrits_spec hb).2 (by omega)
  rw [hout, hdec.eq_of_signed hts hl hs]

/-- **Bytes to trits, and there and back.** The conversion gives what the bytes mean but for one
number; the way back from the trits leads there whatever the buffer held exactly where every word
of it is overwritten, and from a buffer of zeros always. -/
theorem convertBytesToTrits_iff (hb : bytes.length = 48) (hts : Trits trits)
    (hl : trits.length = 243) :
    ((∃ out, convertBytesToTrits bytes = some out ∧ Decodes bytes out) ↔
      signed bytes ≠ -(value half3 : ℤ) - 1) ∧
    ((∀ buffer : List UInt8, buffer.length = 48 →
        convertBytesToTrits (convertTritsToBytes buffer trits) = some (trits.set 242 0)) ↔
      Determined trits) ∧
    convertBytesToTrits (convertTritsToBytes (List.replicate 48 0) trits) =
      some (trits.set 242 0) := by
  refine ⟨⟨fun hout hs => ?_, (convertBytesToTrits_spec hb).2⟩, ⟨fun hback => ?_, fun hdet => ?_⟩, ?_⟩
  · obtain ⟨out, hsome, -⟩ := hout
    rw [(convertBytesToTrits_spec hb).1 hs] at hsome
    cases hsome
  · by_contra hdet
    obtain ⟨buffer, hbuf, hlen, hwrong⟩ := exists_wrong_bytes hts hl hdet
    have hsome := hback buffer hbuf
    obtain ⟨hfail, hdec⟩ := convertBytesToTrits_spec hlen
    by_cases hs : signed (convertTritsToBytes buffer trits) = -(value half3 : ℤ) - 1
    · rw [hfail hs] at hsome
      cases hsome
    · -- what comes back is congruent to the bytes, and the bytes are not those of the trits
      obtain ⟨out, hout, hdecodes⟩ := hdec hs
      rw [hsome] at hout
      obtain rfl := Option.some.inj hout
      have hcong := hdecodes.congruent
      rw [set_last hl, value_append_zero, ← Int.dvd_neg, Int.neg_sub] at hcong
      exact hwrong hcong
  · intro buffer hbuf
    obtain ⟨hlen, hs⟩ := signed_convertTritsToBytes hbuf hts hl hdet
    exact convertBytesToTrits_of_signed hlen hts hl hs
  · obtain ⟨hlen, hs⟩ := signed_convertTritsToBytes_zeroed hts hl
    exact convertBytesToTrits_of_signed hlen hts hl hs

/-- The bytes 0xa1, 0x96, 0x14, ... of the number `-(HALF_3 + 1)`. -/
def belowHalf : List UInt8 := (storeWords (bigintNot half3)).reverse

/-- There the assertion of `bigint_sub` fails. -/
theorem convertBytesToTrits_belowHalf :
    belowHalf.length = 48 ∧
      ¬ ∃ out, convertBytesToTrits belowHalf = some out ∧ Decodes belowHalf out := by
  have hnone : convertBytesToTrits belowHalf = none := by decide +kernel
  refine ⟨by decide +kernel, fun ⟨out, hout, _⟩ => ?_⟩
  rw [hnone] at hout
  cases hout

/-- The number 1, and the trits that are all -1, come through. -/
theorem convertBytesToTrits_one :
    (∃ out, convertBytesToTrits (List.replicate 47 0 ++ [1]) = some out ∧
      Decodes (List.replicate 47 0 ++ [1]) out) ∧
    ∀ buffer : List UInt8, buffer.length = 48 →
      convertBytesToTrits (convertTritsToBytes buffer (List.replicate 243 (-1))) =
        some ((List.replicate 243 (-1)).set 242 0) := by
  have hone : signed (List.replicate 47 0 ++ [1]) = 1 := by decide +kernel
  have hlen : (List.replicate 47 0 ++ [1] : List UInt8).length = 48 := by decide
  have hminus : Trits (List.replicate 243 (-1)) := by
    intro t ht
    rw [List.eq_of_mem_replicate ht]
    decide
  have hiff := convertBytesToTrits_iff hlen hminus List.length_replicate
  refine ⟨hiff.1.mpr ?_, hiff.2.1.mpr (.inl (by decide))⟩
  rw [hone]
  omega

end Kerl

end Entangled
