import Entangled.Mam.Spongos
import Entangled.Mam.Trits
/-!
# Wrapping and unwrapping

The primitives a message is made of. Each puts a value into the buffer and passes it through the
spongos, or takes one out of the buffer and passes it through the spongos in the same way.
-/

namespace Entangled

namespace Mam

open Spongos

/-- A spongos and a buffer, of which a writer has the part behind it and a reader the part before
it. -/
abbrev Wire := Tape Spongos Trit

abbrev Unwrap := TapeReader Error Spongos Trit

/-- `pb3_sizeof_ntrytes`. -/
def pb3SizeofNtrytes (n : ℕ) : ℕ := 3 * n % 2 ^ 64

/-- `pb3_decode_tryte`. -/
def pb3DecodeTryte (buffer : List Trit) : Except Error ℤ × List Trit :=
  if buffer.length < 3 then (.error .pb3Eof, buffer) else (.ok (get3 buffer), buffer.drop 3)

/-- `pb3_decode_trint`. -/
def pb3DecodeTrint (buffer : List Trit) : Except Error ℤ × List Trit :=
  if buffer.length < 9 then (.error .pb3Eof, buffer) else (.ok (get9 buffer), buffer.drop 9)

/-- `pb3_decode_ntrytes`, of so many trits. -/
def pb3DecodeNtrytes (n : ℕ) (buffer : List Trit) : Except Error (List Trit) × List Trit :=
  if buffer.length < n then (.error .pb3Eof, buffer) else (.ok (buffer.take n), buffer.drop n)

section

variable (T : Troika)

/-- What the `pb3_wrap_absorb` functions do with a value they have encoded. -/
def wrapAbsorb (out : List Trit) (t : Wire) : Wire := ⟨absorb T t.state out, t.cells ++ out⟩

/-- What the `pb3_unwrap_absorb` functions do with a decoder: what it has taken is absorbed. -/
def unwrapAbsorb {β : Type} (decode : List Trit → Except Error β × List Trit) : Unwrap β := fun t =>
  match decode t.cells with
  | (.ok b, buffer) =>
    (.ok b, ⟨absorb T t.state (t.cells.take (t.cells.length - buffer.length)), buffer⟩)
  | (.error e, buffer) => (.error e, ⟨t.state, buffer⟩)

/-- `pb3_wrap_absorb_tryte`. -/
def pb3WrapAbsorbTryte (tryte : ℤ) : Wire → Wire := wrapAbsorb T (put3 tryte)

/-- `pb3_unwrap_absorb_tryte`. -/
def pb3UnwrapAbsorbTryte : Unwrap ℤ := unwrapAbsorb T pb3DecodeTryte

/-- `pb3_wrap_absorb_trint`. -/
def pb3WrapAbsorbTrint (trint : ℤ) : Wire → Wire := wrapAbsorb T (put9 trint)

/-- `pb3_unwrap_absorb_trint`. -/
def pb3UnwrapAbsorbTrint : Unwrap ℤ := unwrapAbsorb T pb3DecodeTrint

/-- `pb3_wrap_absorb_size_t`. -/
def pb3WrapAbsorbSizeT (size : ℕ) : Wire → Wire := wrapAbsorb T (encodeSizeT size)

/-- `pb3_unwrap_absorb_size_t`. -/
def pb3UnwrapAbsorbSizeT : Unwrap ℕ := unwrapAbsorb T decodeSizeT

/-- `pb3_wrap_absorb_ntrytes`. -/
def pb3WrapAbsorbNtrytes (trits : List Trit) : Wire → Wire := wrapAbsorb T trits

/-- `pb3_unwrap_absorb_ntrytes`, of so many trits. -/
def pb3UnwrapAbsorbNtrytes (n : ℕ) : Unwrap (List Trit) := unwrapAbsorb T (pb3DecodeNtrytes n)

/-- `pb3_wrap_crypt_ntrytes`. -/
def pb3WrapCryptNtrytes (trits : List Trit) (t : Wire) : Wire :=
  let (ciphertext, s) := encr T t.state trits
  ⟨s, t.cells ++ ciphertext⟩

/-- `pb3_unwrap_crypt_ntrytes`, of so many trits. -/
def pb3UnwrapCryptNtrytes (n : ℕ) : Unwrap (List Trit) := fun t =>
  if t.cells.length < n then (.error .pb3Eof, t)
  else
    let (plaintext, s) := decr T t.state (t.cells.take n)
    (.ok plaintext, ⟨s, t.cells.drop n⟩)

/-- `pb3_wrap_squeeze_ntrytes`, of `n` trytes. -/
def pb3WrapSqueezeNtrytes (n : ℕ) (t : Wire) : Wire :=
  let (output, s) := squeeze T t.state (pb3SizeofNtrytes n)
  ⟨s, t.cells ++ output⟩

/-- `pb3_unwrap_squeeze_ntrytes`, of `n` trytes. -/
def pb3UnwrapSqueezeNtrytes (n : ℕ) : Unwrap Unit := fun t =>
  if t.cells.length < pb3SizeofNtrytes n then (.error .pb3Eof, t)
  else
    let (equal, s) := squeezeEq T t.state (t.cells.take (pb3SizeofNtrytes n))
    let t := ⟨s, t.cells.drop (pb3SizeofNtrytes n)⟩
    if equal then (.ok (), t) else (.error .pb3BadMac, t)

end

/-! ## The reader follows -/

section

variable {T : Troika}

/-- A decoder that knows the end of what was encoded. -/
theorem replays_absorb {β : Type} {decode : List Trit → Except Error β × List Trit}
    {out : List Trit} {b : β} (hdecode : ∀ rest, decode (out ++ rest) = (.ok b, rest)) :
    Replays (wrapAbsorb T out) (unwrapAbsorb T decode) b := by
  intro s written
  refine ⟨absorb T s out, out, rfl, fun rest => ?_⟩
  have htaken : (out ++ rest).take ((out ++ rest).length - rest.length) = out := by
    rw [List.length_append, Nat.add_sub_cancel, List.take_left]
  simp only [unwrapAbsorb, hdecode, htaken]

theorem replays_absorbTryte {tryte : ℤ} (htryte : 2 * |tryte| < 3 ^ 3) :
    Replays (pb3WrapAbsorbTryte T tryte) (pb3UnwrapAbsorbTryte T) tryte := by
  refine replays_absorb fun rest => ?_
  rw [pb3DecodeTryte, if_neg (by rw [List.length_append, length_put3]; omega), get3_put3 htryte,
    List.drop_left' (length_put3 _)]

theorem replays_absorbTrint {trint : ℤ} (htrint : 2 * |trint| < 3 ^ 9) :
    Replays (pb3WrapAbsorbTrint T trint) (pb3UnwrapAbsorbTrint T) trint := by
  refine replays_absorb fun rest => ?_
  rw [pb3DecodeTrint, if_neg (by rw [List.length_append, length_put9]; omega), get9_put9 htrint,
    List.drop_left' (length_put9 _)]

theorem replays_absorbSizeT {size : ℕ} (hsize : size ≤ tritsSizeMax) :
    Replays (pb3WrapAbsorbSizeT T size) (pb3UnwrapAbsorbSizeT T) size :=
  replays_absorb fun rest => decodeSizeT_encodeSizeT hsize rest

theorem replays_absorbNtrytes (trits : List Trit) {n : ℕ} (hn : trits.length = n) :
    Replays (pb3WrapAbsorbNtrytes T trits) (pb3UnwrapAbsorbNtrytes T n) trits := by
  refine replays_absorb fun rest => ?_
  rw [pb3DecodeNtrytes, if_neg (by rw [List.length_append]; omega), List.take_left' hn,
    List.drop_left' hn]

/-- **A ciphertext is decrypted** to what was encrypted. -/
theorem replays_crypt (trits : List Trit) {n : ℕ} (hn : trits.length = n) :
    Replays (pb3WrapCryptNtrytes T trits) (pb3UnwrapCryptNtrytes T n) trits := by
  intro s written
  have hlen : (encr T s trits).1.length = n := by rw [length_encr, hn]
  refine ⟨(encr T s trits).2, (encr T s trits).1, rfl, fun rest => ?_⟩
  simp only [pb3UnwrapCryptNtrytes]
  rw [if_neg (by rw [List.length_append]; omega), List.take_left' hlen, decr_encr,
    List.drop_left' hlen]

/-- **A checksum is the one** that was squeezed. -/
theorem replays_squeeze (n : ℕ) :
    Replays (pb3WrapSqueezeNtrytes T n) (pb3UnwrapSqueezeNtrytes T n) () := by
  intro s written
  have hlen := length_squeeze (T := T) s (pb3SizeofNtrytes n)
  refine ⟨(squeeze T s (pb3SizeofNtrytes n)).2, (squeeze T s (pb3SizeofNtrytes n)).1, rfl,
    fun rest => ?_⟩
  simp only [pb3UnwrapSqueezeNtrytes]
  rw [if_neg (by rw [List.length_append]; omega), List.take_left' hlen, squeezeEq_squeeze,
    List.drop_left' hlen]
  rfl

end

end Mam

end Entangled
