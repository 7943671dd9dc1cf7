import Entangled.Mam.Trits
/-!
# A size in a buffer

`trits_encode_size_t` where it writes: into a buffer that holds something, behind what was written
before. It clears the whole rest of the buffer, writes the number of trytes and lets `long_to_trits`
write the trytes. `trits_decode_size_t` reads them back.

The reader takes the balanced trytes for a number with a sign and the number for a `size_t`, so
trytes of a negative number are a size near 2⁶⁴. Every other size it accepts can be written again.
-/

namespace Entangled

namespace Mam

open Ternary Trinary

/-- `trits_t`: the trits that were dropped and the trits that are left. -/
structure TritsT where
  dropped : List Trit
  rest : List Trit
  deriving DecidableEq

namespace TritsT

/-- The first trits that are left, overwritten by a function that is handed their address. -/
def write (x : TritsT) (ts : List Trit) : TritsT := { x with rest := blit x.rest 0 ts }

/-- `trits_set_zero`. -/
def setZero (x : TritsT) : TritsT := x.write (List.replicate x.rest.length .zero)

/-- `trits_advance`, whose assertion may fail. -/
def advance (x : TritsT) (n : ℕ) : Option TritsT :=
  if n ≤ x.rest.length then some ⟨x.dropped ++ x.rest.take n, x.rest.drop n⟩ else none

/-- `trits_encode_size_t`, or an assertion that fails. -/
def encodeSizeT (n : ℕ) (buffer : TritsT) : Option TritsT :=
  if n ≤ tritsSizeMax ∧ ¬buffer.rest.length < sizeofSizeT n then
    let buffer := buffer.setZero
    let d := sizeTrytes n
    ((buffer.write (put3 d)).advance 3).bind fun buffer =>
      if 0 < n then
        (buffer.write
          (Trit.ofInts (longToTrits (Int64.ofNat n) (Trit.toInts buffer.rest)).1)).advance (d * 3)
      else some buffer
  else none

/-! ## Writing -/

theorem setZero_eq (x : TritsT) :
    x.setZero = ⟨x.dropped, List.replicate x.rest.length .zero⟩ := by
  rw [setZero, write, blit_full List.length_replicate]

/-- Writing some trits and going on behind them. -/
theorem advance_write (x : TritsT) (ts : List Trit) :
    (x.write ts).advance ts.length = some ⟨x.dropped ++ ts, x.rest.drop ts.length⟩ := by
  have hblit : blit x.rest 0 ts = ts ++ x.rest.drop ts.length := by
    rw [blit, List.take_zero, List.nil_append, Nat.zero_add]
  rw [write, advance]
  dsimp only
  rw [hblit, if_pos (by rw [List.length_append]; omega), List.take_left, List.drop_left]

/-- The trytes of a size and the zeros behind them are what `long_to_trits` leaves in a cleared
buffer. -/
theorem longToTrits_cleared {n len : ℕ} (hn : n ≤ tritsSizeMax) (hpos : 0 < n)
    (hlen : 3 * sizeTrytes n ≤ len) :
    Trit.ofInts (longToTrits (Int64.ofNat n) (Trit.toInts (List.replicate len .zero))).1 =
      Trit.spell (3 * sizeTrytes n) n ++ List.replicate (len - 3 * sizeTrytes n) .zero := by
  obtain ⟨hle, hfits⟩ := sizeTrytes_spec hn
  have hone : 1 ≤ sizeTrytes n := by
    by_contra hlt
    rw [show sizeTrytes n = 0 by omega] at hfits
    omega
  have hint : (Int64.ofNat n).toInt = n :=
    Int64.toInt_ofNat_of_lt (by unfold tritsSizeMax at hn; omega)
  have hsize : minTrits (Int64.ofNat n) ≤ 3 * sizeTrytes n := by
    rw [minTrits, vAbs_eq, hint]
    exact minTritsFrom_le rfl (by omega) (by rw [pow_mul]; exact hfits)
  have hword : 2 * |(n : ℤ)| < 3 ^ (3 * sizeTrytes n) := by
    rw [Nat.abs_cast, pow_mul]
    exact_mod_cast hfits
  have hzeros : Trit.toInts (List.replicate len .zero) = List.replicate len 0 :=
    List.map_replicate
  rw [hzeros, longToTrits_zeros _ (by omega) (hsize.trans hlen), hint,
    digits_append_zeros hword hlen, Trit.ofInts, List.map_append, List.map_replicate]
  rfl

/-- What is in the buffer afterwards: the rest is cleared. -/
theorem encodeSizeT_eq {n : ℕ} {buffer : TritsT} (hn : n ≤ tritsSizeMax)
    (hsize : sizeofSizeT n ≤ buffer.rest.length) :
    buffer.encodeSizeT n = some ⟨buffer.dropped ++ Mam.encodeSizeT n,
      List.replicate (buffer.rest.length - sizeofSizeT n) .zero⟩ := by
  have hlen : 3 * sizeTrytes n ≤ buffer.rest.length - 3 := by
    rw [sizeofSizeT] at hsize
    omega
  have hrest : buffer.rest.length - sizeofSizeT n =
      buffer.rest.length - 3 - 3 * sizeTrytes n := by
    rw [sizeofSizeT]
    omega
  have hcount := advance_write ⟨buffer.dropped, List.replicate buffer.rest.length .zero⟩
    (put3 (sizeTrytes n))
  rw [length_put3, List.drop_replicate] at hcount
  rw [encodeSizeT, if_pos ⟨hn, Nat.not_lt.mpr hsize⟩, setZero_eq]
  dsimp only
  rw [hcount, Option.bind_some, hrest, Mam.encodeSizeT_eq hn, ← List.append_assoc]
  split_ifs with hpos
  · -- behind the trytes `long_to_trits` leaves the zeros as they are
    have hspell : (Trit.spell (3 * sizeTrytes n) (n : ℤ)).length = sizeTrytes n * 3 := by
      rw [Trit.length_spell, Nat.mul_comm]
    rw [longToTrits_cleared hn hpos hlen, write, blit_full (by
      rw [List.length_append, Trit.length_spell, List.length_replicate, List.length_replicate]
      omega), advance, if_pos (by
      rw [List.length_append, hspell]
      omega), ← hspell, List.take_left, List.drop_left]
  · obtain rfl : n = 0 := by omega
    have hzero : sizeTrytes 0 = 0 := rfl
    rw [hzero, Nat.mul_zero, Trit.spell, List.append_assoc]
    rfl

end TritsT

/-! ## What is read -/

/-- Trytes that are all there and that spell a negative number. -/
def NegativeSize (buffer : List Trit) : Prop :=
  3 ≤ buffer.length ∧ 0 ≤ get3 buffer ∧ 3 + 3 * (get3 buffer).toNat ≤ buffer.length ∧
    Trit.value ((buffer.drop 3).take (3 * (get3 buffer).toNat)) < 0

instance (buffer : List Trit) : Decidable (NegativeSize buffer) := by
  unfold NegativeSize
  infer_instance

/-- Thirteen trytes are far from the end of a word. -/
theorem two_mul_abs_value_lt_size (ts : List Trit) {d : ℕ} (hd : d ≤ 13) :
    2 * |Trit.value (ts.take (3 * d))| < 3 ^ 39 := by
  have hlen : (ts.take (3 * d)).length ≤ 39 := by
    rw [List.length_take]
    omega
  exact (Trit.two_mul_abs_value_lt _).trans_le (pow_le_pow_right₀ (by decide) hlen)

/-- A word that is read from the trytes of a size. -/
theorem toNat_tritsToLong (ts : List Trit) {d : ℕ} (hd : d ≤ 13) :
    ((tritsToLong (Trit.toInts ts) (3 * d)).toUInt64.toNat : ℤ) =
      if Trit.value (ts.take (3 * d)) < 0 then 2 ^ 64 + Trit.value (ts.take (3 * d))
      else Trit.value (ts.take (3 * d)) := by
  have hvalue : Ternary.value ((Trit.toInts ts).take (3 * d)) = Trit.value (ts.take (3 * d)) := by
    rw [Trit.value, Trit.toInts, Trit.toInts, List.map_take]
  have hword : (tritsToLong (Trit.toInts ts) (3 * d)).toUInt64.toNat =
      (Trit.value (ts.take (3 * d)) % (2 ^ 64 : ℕ)).toNat := by
    rw [tritsToLong_eq, hvalue]
    exact BitVec.toNat_ofInt _
  have hbound := two_mul_abs_lt.mp (two_mul_abs_value_lt_size ts hd)
  rw [hword]
  split_ifs with hneg
  · omega
  · omega

/-- When a size is accepted. -/
theorem decodeSizeT_eq_ok {buffer rest : List Trit} {n : ℕ} :
    decodeSizeT buffer = (.ok n, rest) ↔
      3 ≤ buffer.length ∧ 0 ≤ get3 buffer ∧ 3 + 3 * (get3 buffer).toNat ≤ buffer.length ∧
        n = (tritsToLong (Trit.toInts (buffer.drop 3)) (3 * (get3 buffer).toNat)).toUInt64.toNat ∧
        rest = (buffer.drop 3).drop (3 * (get3 buffer).toNat) := by
  have hget := get3_bound buffer
  rw [decodeSizeT]
  by_cases hshort : buffer.length < 3
  · rw [if_pos hshort]
    exact iff_of_false (by simp) (by omega)
  rw [if_neg hshort]
  by_cases hrange : get3 buffer < 0
  · rw [if_pos (.inl hrange)]
    exact iff_of_false (by simp) (by omega)
  rw [if_neg (by omega)]
  by_cases hlen : (buffer.drop 3).length < 3 * (get3 buffer).toNat
  · rw [if_pos hlen]
    rw [List.length_drop] at hlen
    exact iff_of_false (by simp) (by omega)
  rw [if_neg hlen]
  rw [List.length_drop] at hlen
  constructor
  · intro h
    obtain ⟨hn, hrest⟩ := Prod.mk.inj h
    exact ⟨by omega, by omega, by omega, (Except.ok.inj hn).symm, hrest.symm⟩
  · rintro ⟨-, -, -, rfl, rfl⟩
    rfl

/-- **What is accepted** is no larger than what can be written, unless the trytes are those of a
negative number. -/
theorem decodeSizeT_le_iff (buffer : List Trit) :
    (∀ n rest, decodeSizeT buffer = (.ok n, rest) → n ≤ tritsSizeMax ∧ 3 * n < 2 ^ 64) ↔
      ¬NegativeSize buffer := by
  have hle : (get3 buffer).toNat ≤ 13 := by
    have hget := get3_bound buffer
    omega
  have hvalue := toNat_tritsToLong (buffer.drop 3) hle
  have hbound := two_mul_abs_lt.mp (two_mul_abs_value_lt_size (buffer.drop 3) hle)
  constructor
  · rintro h ⟨hlen, hpos, hrest, hneg⟩
    -- the number is near the end of the words
    obtain ⟨hmax, -⟩ := h _ _ (decodeSizeT_eq_ok.mpr ⟨hlen, hpos, hrest, rfl, rfl⟩)
    rw [if_pos hneg] at hvalue
    unfold tritsSizeMax at hmax
    omega
  · intro h n rest hok
    obtain ⟨hlen, hpos, hrest, rfl, -⟩ := decodeSizeT_eq_ok.mp hok
    rw [if_neg fun hneg => h ⟨hlen, hpos, hrest, hneg⟩] at hvalue
    unfold tritsSizeMax
    omega

/-- **The size codec.** A size is written in its own number of trits, over whatever was there, and is
read from them; what lies behind is kept when it was clear. What is read can be written again
unless it was negative. -/
theorem sizeCodec_iff (trits : List Trit) :
    (∀ (n : ℕ) (buffer : TritsT), n ≤ tritsSizeMax → sizeofSizeT n ≤ buffer.rest.length →
      ∃ code rest, buffer.encodeSizeT n = some ⟨buffer.dropped ++ code, rest⟩ ∧
        code.length = sizeofSizeT n ∧ code.length + rest.length = buffer.rest.length ∧
        decodeSizeT (code ++ rest) = (.ok n, rest) ∧
        (rest = buffer.rest.drop (sizeofSizeT n) ↔
          ∀ t ∈ buffer.rest.drop (sizeofSizeT n), t = .zero)) ∧
    ((∀ n rest, decodeSizeT trits = (.ok n, rest) → n ≤ tritsSizeMax ∧ 3 * n < 2 ^ 64) ↔
      ¬NegativeSize trits) := by
  refine ⟨fun n buffer hn hsize => ?_, decodeSizeT_le_iff trits⟩
  refine ⟨_, _, TritsT.encodeSizeT_eq hn hsize, length_encodeSizeT hn, ?_,
    decodeSizeT_encodeSizeT hn _, ?_⟩
  · rw [length_encodeSizeT hn, List.length_replicate]
    omega
  · rw [eq_comm, List.eq_replicate_iff, List.length_drop]
    exact and_iff_right rfl

/-- A size written over a buffer that is not clear. -/
theorem sizeCodec_five :
    ∃ code rest, TritsT.encodeSizeT 5 ⟨[], List.replicate 9 .pos⟩ = some ⟨code, rest⟩ ∧
      code.length = 6 ∧ decodeSizeT (code ++ rest) = (.ok 5, rest) := by
  obtain ⟨code, rest, hwrite, hlen, -, hread, -⟩ :=
    (sizeCodec_iff []).1 5 ⟨[], List.replicate 9 .pos⟩ (by decide) (by decide)
  exact ⟨code, rest, hwrite, hlen, hread⟩

/-- Minus one, in one tryte, is read as a size. -/
theorem decodeSizeT_negative :
    decodeSizeT [.pos, .zero, .zero, .neg, .zero, .zero] = (.ok (2 ^ 64 - 1), []) ∧
      ¬2 ^ 64 - 1 ≤ tritsSizeMax := by
  decide

end Mam

end Entangled
