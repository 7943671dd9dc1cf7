import Entangled.Trinary.Slice
/-!
# Flex trits as bytes

`flex_trits_to_bytes` and `flex_trits_from_bytes`. Three and four trits to a byte go through a
staging buffer of eight trits, which a shift of the machine word over it empties from the front.
What the writer's loop leaves in the buffer when the flex trits are used up is not written.
-/

namespace Entangled

namespace Trinary

open Ternary

/-! ## The two directions -/

/-- `MIN_BYTES`. -/
def minBytes (numTrits : ℕ) : ℕ := (numTrits + 5 - 1) / 5

/-- The increment of an `int`, with no value where it overflows. -/
def intSucc (i : ℕ) : Option ℕ := if i + 1 < 2 ^ 31 then some (i + 1) else none

/-- The subtraction of two `size_t`. -/
def sizeSub (a b : ℕ) : ℕ := (a + (2 ^ 64 - b)) % 2 ^ 64

/-- The variables of the loops: `shifter.trits`, `offset`, `trits_counter` and `i`. -/
structure Staging where
  trits : List ℤ
  offset : ℕ
  counter : ℕ
  i : ℕ

/-- `shifter.val` shifted by so many trits. -/
def shiftOut (trits : List ℤ) (n : ℕ) : List ℤ := trits.drop n ++ List.replicate n 0

/-- The next flex trit unpacked behind what is staged. -/
def stage (E : Encoding) (flexTrits : List FlexTrit) (s : Staging) : Staging :=
  let maxTrits := min E.numTritsPerFlexTrit s.counter
  { trits := s.trits.take s.offset ++ (flexTritsToTrits E (s.trits.drop s.offset) maxTrits
      (flexTrits.drop s.i) maxTrits maxTrits).1
    offset := s.offset + maxTrits
    counter := s.counter - maxTrits
    i := s.i }

/-- A round of `flex_trits_to_bytes`, up to the `i++` at its end. -/
def toBytesRound (E : Encoding) (flexTrits : List FlexTrit) (j : ℕ) (s : Staging)
    (bytes : List Int8) : Option (Staging × List Int8) :=
  let s := stage E flexTrits s
  let refilled :=
    if s.offset < 5 ∧ s.counter ≠ 0 then
      (intSucc s.i).map fun i => stage E flexTrits { s with i := i }
    else some s
  refilled.bind fun s => (intSucc s.i).map fun i =>
    ({ s with trits := shiftOut s.trits 5, offset := sizeSub s.offset 5, i := i },
      bytes.set j (tritsToByte (s.trits.take (min 5 s.offset))))

/-- The loop of `flex_trits_to_bytes`, for so many rounds. -/
def toBytesLoop (E : Encoding) (flexTrits : List FlexTrit) :
    ℕ → ℕ → Staging → List Int8 → Option (List Int8)
  | fuel, j, s, bytes =>
    if s.counter = 0 then some bytes
    else
      match fuel with
      | 0 => none
      | fuel + 1 =>
        (toBytesRound E flexTrits j s bytes).bind fun p =>
          (intSucc j).bind fun j => toBytesLoop E flexTrits fuel j p.1 p.2

/-- Five trits to a byte: whole bytes are copied, and of the last one the trits asked for. -/
def copyBytes (dst src : List Int8) (numTrits : ℕ) : List Int8 :=
  let numBytes := minBytes numTrits
  let residual := numTrits % 5
  if residual ≠ 0 then
    let lastByte := byteToTrits (src.getD (numBytes - 1) 0) 5
    blit (dst.set (numBytes - 1) (tritsToByte (lastByte.take residual))) 0
      (src.take (numBytes - 1))
  else blit dst 0 (src.take numBytes)

/-- `flex_trits_to_bytes`: the bytes and the number of trits. -/
def flexTritsToBytes (E : Encoding) (bytes : List Int8) (toLen : ℕ) (flexTrits : List FlexTrit)
    (len numTrits : ℕ) : Option (List Int8 × ℕ) :=
  if len < numTrits ∨ toLen < numTrits then some (bytes, 0)
  else
    let bytes := memset bytes 0 (minBytes toLen)
    let bytes := match E with
      | .one => some (blit bytes 0 (tritsToBytes ((flexTrits.take numTrits).map Int8.toInt)))
      | .five => some (copyBytes bytes flexTrits numTrits)
      | _ => toBytesLoop E flexTrits numTrits 0 ⟨List.replicate 8 0, 0, numTrits, 0⟩ bytes
    bytes.map fun bytes => (bytes, numTrits)

/-- A round of `flex_trits_from_bytes`. -/
def fromBytesRound (E : Encoding) (bytes : List Int8) (j : ℕ) (s : Staging)
    (dst : List FlexTrit) : Option (Staging × List FlexTrit) :=
  let maxTrits := min 5 s.counter
  let refilled :=
    if s.offset < E.numTritsPerFlexTrit ∧ s.offset < s.counter then
      (intSucc s.i).map fun i =>
        { s with
          trits := blit s.trits s.offset (byteToTrits (bytes.getD s.i 0) maxTrits)
          offset := s.offset + maxTrits
          i := i }
    else some s
  refilled.map fun s =>
    let tritsForByte := min maxTrits E.numTritsPerFlexTrit
    ({ s with
        trits := shiftOut s.trits tritsForByte
        offset := sizeSub s.offset tritsForByte
        counter := s.counter - tritsForByte },
      dst.take j ++
        (flexTritsFromTrits E (dst.drop j) s.counter s.trits tritsForByte tritsForByte).1)

/-- The loop of `flex_trits_from_bytes`, for so many rounds. -/
def fromBytesLoop (E : Encoding) (bytes : List Int8) :
    ℕ → ℕ → Staging → List FlexTrit → Option (List FlexTrit)
  | fuel, j, s, dst =>
    if s.counter = 0 then some dst
    else
      match fuel with
      | 0 => none
      | fuel + 1 =>
        (fromBytesRound E bytes j s dst).bind fun p =>
          (intSucc j).bind fun j => fromBytesLoop E bytes fuel j p.1 p.2

/-- `flex_trits_from_bytes`: the flex trits and the number of trits. -/
def flexTritsFromBytes (E : Encoding) (dst : List FlexTrit) (toLen : ℕ) (bytes : List Int8)
    (len numTrits : ℕ) : Option (List FlexTrit × ℕ) :=
  if len < numTrits ∨ toLen < numTrits then some (dst, 0)
  else
    let dst := memset dst E.nullValue (E.numFlexTritsForTrits toLen)
    let dst := match E with
      | .one =>
        some (blit dst 0
          ((bytesToTrits (bytes.take (minBytes numTrits)) numTrits).map Int8.ofInt))
      | .five => some (copyBytes dst bytes numTrits)
      | _ => fromBytesLoop E bytes numTrits 0 ⟨List.replicate 8 0, 0, numTrits, 0⟩ dst
    dst.map fun dst => (dst, numTrits)

end Trinary

end Entangled
