import Entangled.Common.Packing
import Entangled.Common.Ternary
/-!
# Flex trits

The four ways the library keeps trits in memory, chosen when it is built: one, three,
four or five trits to a byte. Three is the tryte alphabet, four two bits a trit, five
the balanced value of the byte. The functions below are those of `flex_trit.c` with the
tryte and byte conversions under them; where the source has a branch of `#if`, they
match on the encoding.

An array of flex trits is the list of its bytes, a buffer written through a pointer is
returned, and `trit_t` is an integer. A write behind the end of a buffer is undefined in
the source; here it extends the list.
-/

namespace Entangled

namespace Trinary

open Ternary

/-- `flex_trit_t`, an `int8_t`. -/
abbrev FlexTrit := Int8

/-- `FLEX_TRIT_ENCODING_n_TRITS_PER_BYTE`. -/
inductive Encoding
  | one
  | three
  | four
  | five
  deriving DecidableEq, Repr

namespace Encoding

/-- `NUM_TRITS_PER_FLEX_TRIT`. -/
def numTritsPerFlexTrit : Encoding → ℕ
  | one => 1
  | three => 3
  | four => 4
  | five => 5

/-- `FLEX_TRIT_NULL_VALUE`; the null of the tryte alphabet is `'9'`. -/
def nullValue : Encoding → FlexTrit
  | three => 57
  | _ => 0

/-- `NUM_FLEX_TRITS_FOR_TRITS`. -/
def numFlexTritsForTrits : Encoding → ℕ → ℕ
  | one, n => n
  | three, n => (n + 3 - 1) / 3
  | four, n => (n + 3) >>> 2
  | five, n => (n + 5 - 1) / 5

end Encoding

/-- `memset` over the first `n` bytes. -/
def memset {α : Type} (dst : List α) (v : α) (n : ℕ) : List α := blit dst 0 (List.replicate n v)

/-! ## Trytes -/

/-- `TRYTE_ALPHABET`: `9` and the letters. -/
def tryteAlphabet : List Int8 :=
  [57, 65, 66, 67, 68, 69, 70, 71, 72, 73, 74, 75, 76, 77, 78, 79, 80, 81, 82, 83, 84, 85, 86, 87,
    88, 89, 90]

/-- `INDEX_OF_TRYTE`, as the `size_t` it is used as. -/
def indexOfTryte (tryte : Int8) : ℕ :=
  if tryte = 57 then 0 else ((tryte.toInt - 65 + 1) % 2 ^ 64).toNat

/-- A row of `TRYTES_TRITS_LUT`: row `k` spells `k` for `k ≤ 13` and `k - 27` above, which
are the lowest three trits of `k` either way. -/
def tryteTrits (k : ℕ) : List ℤ := digits 3 k

/-- `get_trit_at`. -/
def getTritAt (trytes : List Int8) (length index : ℕ) : ℤ :=
  let tindex := index / 3
  if length ≤ tindex then 0
  else (tryteTrits (indexOfTryte (trytes.getD tindex 0))).getD (index % 3) 0

/-- `set_trit_at`, which takes what is no tryte for a null. -/
def setTritAt (trytes : List Int8) (length index : ℕ) (trit : ℤ) : List Int8 :=
  let tindex := index / 3
  if length ≤ tindex then trytes
  else
    let cindex := indexOfTryte (trytes.getD tindex 0)
    let trits := (if 26 < cindex then tryteTrits 0 else tryteTrits cindex).set (index % 3) trit
    let tryte := trits.getD 0 0 + trits.getD 1 0 * 3 + trits.getD 2 0 * 9
    let tryte := if tryte < 0 then tryte + 27 else tryte
    trytes.set tindex (tryteAlphabet.getD tryte.toNat 0)

/-- One round of the loop of `trits_to_trytes`: the tryte of up to three trits. -/
def tritsToTryte (trits : List ℤ) : Int8 :=
  let k := trits.foldr (fun t k => k * 3 + t) 0
  let k := if k < 0 then k + 27 else k
  tryteAlphabet.getD k.toNat 0

/-- `trits_to_trytes`, the trytes it writes. -/
def tritsToTrytes (trits : List ℤ) : List Int8 :=
  (List.range ((trits.length + 2) / 3)).map fun j => tritsToTryte ((trits.drop (3 * j)).take 3)

/-- `trytes_to_trits`, the trits it writes. -/
def trytesToTrits (trytes : List Int8) : List ℤ :=
  trytes.flatMap fun tryte => tryteTrits (indexOfTryte tryte)

/-! ## Bytes -/

/-- `trits_to_byte`, from the highest trit down. -/
def tritsToByte (trits : List ℤ) : Int8 := trits.foldr (fun t byte => byte * 3 + Int8.ofInt t) 0

/-- `trits_to_bytes`, the bytes it writes. -/
def tritsToBytes (trits : List ℤ) : List Int8 :=
  (List.range ((trits.length + 4) / 5)).map fun j => tritsToByte ((trits.drop (5 * j)).take 5)

/-- `byte_to_trits`. Row `k` of `BYTES_TRITS_LUT` spells `k` for `k ≤ 121` and `k - 243`
above. -/
def byteToTrits (byte : Int8) (numTrits : ℕ) : List ℤ :=
  (digits 5 (if byte.toInt < 0 then 243 + byte.toInt else byte.toInt)).take numTrits

/-- `bytes_to_trits`, the trits it writes. -/
def bytesToTrits (bytes : List Int8) (numTrits : ℕ) : List ℤ :=
  (List.range bytes.length).flatMap fun j =>
    byteToTrits (bytes.getD j 0) (min (numTrits - 5 * j) 5)

/-! ## Four trits to a byte -/

/-- A trit of a byte that holds four: its two bits, moved to the top and sign-extended. -/
def twoBitsAt (b : FlexTrit) (k : ℕ) : ℤ :=
  let mshift := (k &&& 3) <<< 1
  let tshift := 6 - mshift
  ((b <<< Int8.ofNat tshift) >>> 6).toInt

/-- The two bits of a trit written into a byte that holds four. -/
def setTwoBitsAt (b : FlexTrit) (k : ℕ) (trit : ℤ) : FlexTrit :=
  let shift := Int8.ofNat ((k &&& 3) <<< 1)
  let mask := ~~~((3 : Int8) <<< shift)
  (b &&& mask) ||| ((Int8.ofInt trit &&& 3) <<< shift)

/-- `flex_trit_set_residual`: only the lowest trits of a byte that holds four. -/
def flexTritSetResidual (flexTrit : UInt8) (residual : ℕ) : UInt8 :=
  let shift := (4 - residual) <<< 1
  let flexTrit := UInt8.ofNat (flexTrit.toNat <<< shift)
  UInt8.ofNat (flexTrit.toNat >>> shift)

/-! ## One trit of an array -/

/-- `flex_trits_at`. -/
def flexTritsAt (E : Encoding) (flexTrits : List FlexTrit) (len index : ℕ) : ℤ :=
  if len ≤ index then 0
  else match E with
    | .one => (flexTrits.getD index 0).toInt
    | .three => getTritAt flexTrits (E.numFlexTritsForTrits len) index
    | .four => twoBitsAt (flexTrits.getD (index >>> 2) 0) index
    | .five => (byteToTrits (flexTrits.getD (index / 5) 0) 5).getD (index % 5) 0

/-- `flex_trits_set_at`. -/
def flexTritsSetAt (E : Encoding) (flexTrits : List FlexTrit) (len index : ℕ) (trit : ℤ) :
    List FlexTrit :=
  if len ≤ index then flexTrits
  else match E with
    | .one => flexTrits.set index (Int8.ofInt trit)
    | .three => setTritAt flexTrits (E.numFlexTritsForTrits len) index trit
    | .four =>
      flexTrits.set (index >>> 2) (setTwoBitsAt (flexTrits.getD (index >>> 2) 0) index trit)
    | .five =>
      flexTrits.set (index / 5)
        (tritsToByte ((byteToTrits (flexTrits.getD (index / 5) 0) 5).set (index % 5) trit))

/-! ## Slices -/

/-- The trits of one byte, as the slice of its encoding takes them out. -/
def unpackByte : Encoding → FlexTrit → List ℤ
  | .one, b => [b.toInt]
  | .three, b => trytesToTrits [b]
  | .four, b => (List.range 4).map (twoBitsAt b)
  | .five, b => bytesToTrits [b] 5

/-- One byte from up to `NUM_TRITS_PER_FLEX_TRIT` trits. -/
def packByte : Encoding → List ℤ → FlexTrit
  | .one, ts => Int8.ofInt (ts.getD 0 0)
  | .three, ts => tritsToTryte ts
  | .four, ts => (List.range ts.length).foldl (fun b k => setTwoBitsAt b k (ts.getD k 0)) 0
  | .five, ts => tritsToByte ts

/-- The last byte of a slice, of which only `residual` trits belong to it. -/
def residualByte : Encoding → FlexTrit → ℕ → FlexTrit
  | .four, b, residual => (flexTritSetResidual b.toUInt8 residual).toInt8
  | E, b, residual => packByte E ((unpackByte E b).take residual)

/-- A slice that starts on a byte: whole bytes, then the tail. -/
def sliceAligned (E : Encoding) (dst flexTrits : List FlexTrit) (start numTrits : ℕ) :
    List FlexTrit :=
  let w := E.numTritsPerFlexTrit
  let dst := blit dst 0 ((flexTrits.drop (start / w)).take (numTrits / w))
  if numTrits % w ≠ 0 then
    dst.set (numTrits / w)
      (residualByte E (flexTrits.getD ((start + numTrits) / w) 0) (numTrits % w))
  else dst

/-- One round of the loop that shifts a slice down, three or five trits to a byte: the
window of two bytes is filled, but for its upper half behind the last byte, where it keeps
what it held. -/
def shiftTrits (E : Encoding) (flexTrits : List FlexTrit) (index offset endIndex : ℕ)
    (s : List ℤ × List FlexTrit) (j : ℕ) : List ℤ × List FlexTrit :=
  let w := E.numTritsPerFlexTrit
  let i := index + j
  let high := if offset ≠ 0 ∧ i < endIndex then unpackByte E (flexTrits.getD (i + 1) 0)
    else s.1.drop w
  let trits := unpackByte E (flexTrits.getD i 0) ++ high
  (trits, s.2.set j (packByte E ((trits.drop offset).take w)))

/-- A slice that starts inside a byte, three or five trits to a byte. -/
def sliceTrits (E : Encoding) (dst flexTrits : List FlexTrit) (len start numTrits : ℕ) :
    List FlexTrit :=
  let w := E.numTritsPerFlexTrit
  let offset := start % w
  let numBytes := E.numFlexTritsForTrits numTrits
  let endIndex := E.numFlexTritsForTrits len - 1
  let s := (List.range numBytes).foldl (shiftTrits E flexTrits (start / w) offset endIndex)
    (List.replicate (2 * w) 0, dst)
  let residual := numTrits % w
  if residual ≠ 0 then s.2.set (numBytes - 1) (packByte E ((s.1.drop offset).take residual))
  else s.2

/-- One round of the loop that shifts a slice down, four trits to a byte. -/
def shiftBits (flexTrits : List FlexTrit) (index : ℕ) (tshift rshift : UInt8) (endIndex : ℕ)
    (s : UInt8 × List FlexTrit) (j : ℕ) : UInt8 × List FlexTrit :=
  let i := index + j
  let buffer := (flexTrits.getD i 0).toUInt8 >>> tshift
  let buffer := if rshift ≠ 0 ∧ i < endIndex then
      buffer ||| ((flexTrits.getD (i + 1) 0).toUInt8 <<< rshift)
    else buffer
  (buffer, s.2.set j buffer.toInt8)

/-- How far a slice from `start` shifts a byte down, four trits to a byte. -/
def tshift (start : ℕ) : UInt8 := UInt8.ofNat ((start &&& 3) <<< 1)

/-- How far it shifts the next byte up. -/
def rshift (start : ℕ) : UInt8 := (8 - tshift start) &&& 7

/-- A slice that starts inside a byte, four trits to a byte. -/
def sliceBits (dst flexTrits : List FlexTrit) (len start numTrits : ℕ) : List FlexTrit :=
  let numBytes := Encoding.four.numFlexTritsForTrits numTrits
  let endIndex := Encoding.four.numFlexTritsForTrits len - 1
  let s := (List.range numBytes).foldl
    (shiftBits flexTrits (start >>> 2) (tshift start) (rshift start) endIndex) (0, dst)
  let residual := numTrits &&& 3
  if residual ≠ 0 then s.2.set (numBytes - 1) (flexTritSetResidual s.1 residual).toInt8 else s.2

/-- `flex_trits_slice`: the destination and the number of bytes. -/
def flexTritsSlice (E : Encoding) (dst : List FlexTrit) (toLen : ℕ) (flexTrits : List FlexTrit)
    (len start numTrits : ℕ) : List FlexTrit × ℕ :=
  if numTrits = 0 ∨ toLen < numTrits ∨ len < start + numTrits then (dst, 0)
  else
    let numBytes := E.numFlexTritsForTrits numTrits
    let dst := memset dst E.nullValue (E.numFlexTritsForTrits toLen)
    let dst := match E with
      | .one => blit dst 0 ((flexTrits.drop start).take numBytes)
      | .four =>
        if start % 4 = 0 then sliceAligned E dst flexTrits start numTrits
        else sliceBits dst flexTrits len start numTrits
      | _ =>
        if start % E.numTritsPerFlexTrit = 0 then sliceAligned E dst flexTrits start numTrits
        else sliceTrits E dst flexTrits len start numTrits
    (dst, numBytes)

/-! ## Insertion and conversion -/

/-- The loop of `flex_trits_insert` over the trits `first` to `numTrits`. -/
def insertTrits (E : Encoding) (dst : List FlexTrit) (toLen : ℕ) (flexTrits : List FlexTrit)
    (len start first numTrits : ℕ) : List FlexTrit :=
  (List.range' first (numTrits - first)).foldl
    (fun dst i => flexTritsSetAt E dst toLen (start + i) (flexTritsAt E flexTrits len i)) dst

/-- `flex_trits_insert`: the destination and the number of trits. -/
def flexTritsInsert (E : Encoding) (dst : List FlexTrit) (toLen : ℕ) (flexTrits : List FlexTrit)
    (len start numTrits : ℕ) : List FlexTrit × ℕ :=
  if numTrits = 0 ∨ len < numTrits ∨ toLen < numTrits ∨ toLen ≤ start ∨
      toLen < start + numTrits then (dst, 0)
  else
    let w := E.numTritsPerFlexTrit
    let dst := match E with
      | .one => blit dst start (flexTrits.take numTrits)
      | _ =>
        if start % w = 0 then
          let dst := blit dst (start / w) (flexTrits.take (numTrits / w))
          insertTrits E dst toLen flexTrits len start (numTrits / w * w) numTrits
        else insertTrits E dst toLen flexTrits len start 0 numTrits
    (dst, numTrits)

/-- `flex_trits_to_trits`: the trits and the number of bytes they took. -/
def flexTritsToTrits (E : Encoding) (trits : List ℤ) (toLen : ℕ) (flexTrits : List FlexTrit)
    (len numTrits : ℕ) : List ℤ × ℕ :=
  if numTrits = 0 ∨ len < numTrits ∨ toLen < numTrits then (trits, 0)
  else
    let numBytes := E.numFlexTritsForTrits numTrits
    let trits := memset trits 0 toLen
    let trits := match E with
      | .one => blit trits 0 ((flexTrits.take numBytes).map Int8.toInt)
      | .three => blit trits 0 (trytesToTrits (flexTrits.take numBytes))
      | .four =>
        (List.range numTrits).foldl (fun trits i => trits.set i (flexTritsAt E flexTrits len i))
          trits
      | .five => blit trits 0 (bytesToTrits (flexTrits.take numBytes) numTrits)
    (trits, numBytes)

/-- `flex_trits_from_trits`: the flex trits and the number of trits. -/
def flexTritsFromTrits (E : Encoding) (dst : List FlexTrit) (toLen : ℕ) (trits : List ℤ)
    (len numTrits : ℕ) : List FlexTrit × ℕ :=
  if len < numTrits ∨ toLen < numTrits ∨ numTrits = 0 then (dst, 0)
  else
    let dst := memset dst E.nullValue (E.numFlexTritsForTrits toLen)
    let dst := match E with
      | .one => blit dst 0 ((trits.take numTrits).map Int8.ofInt)
      | .three => blit dst 0 (tritsToTrytes (trits.take numTrits))
      | .four =>
        (List.range numTrits).foldl (fun dst i => flexTritsSetAt E dst toLen i (trits.getD i 0)) dst
      | .five => blit dst 0 (tritsToBytes (trits.take numTrits))
    (dst, numTrits)

end Trinary

end Entangled
