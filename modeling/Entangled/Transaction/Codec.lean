import Entangled.Trinary.Long
/-!
# Transactions on the wire

`transaction_serialize_on_flex_trits` and `transaction_deserialize_from_trits`. A
serialized transaction is 8019 trits, its fields laid end to end; the code inserts and
slices them at running offsets, and most of these lie inside a byte. Integers pass
through 81 trits of scratch memory, of which the time stamps and indexes use 27.

The layout is said once, in trits (`Fields.wire`): `transactionSerialize_pack` puts the
code above it on the way out, `transactionDeserialize_pack` on the way in, and the round
trips are facts about the layout.
-/

namespace Entangled

namespace Codec

open Ternary Trinary

/-- `NUM_TRITS_SERIALIZED_TRANSACTION`. -/
def numTritsSerializedTransaction : ℕ := 8019

/-- `iota_transaction_t`, less the metadata and the mask of loaded columns. -/
structure IotaTransaction where
  address : List FlexTrit
  value : Int64
  obsoleteTag : List FlexTrit
  timestamp : UInt64
  currentIndex : UInt64
  lastIndex : UInt64
  bundle : List FlexTrit
  trunk : List FlexTrit
  branch : List FlexTrit
  attachmentTimestamp : UInt64
  attachmentTimestampLower : UInt64
  attachmentTimestampUpper : UInt64
  nonce : List FlexTrit
  tag : List FlexTrit
  hash : List FlexTrit
  signatureOrMessage : List FlexTrit
  deriving DecidableEq, Repr

/-- Curl as it is used here: a digest of 243 trits. -/
structure Curl where
  digest : List ℤ → List ℤ
  trits_digest : ∀ ts, Trits (digest ts)
  length_digest : ∀ ts, (digest ts).length = 243

/-! ## Reading -/

/-- The locals of `transaction_deserialize_trits`: the offset, and the scratch memory for a
number, packed and not. -/
structure Reader where
  offset : ℕ
  partialTrits : List FlexTrit
  buffer : List ℤ

/-- A field cut out of the serialized trits, and the offset moved behind it. -/
def readField (E : Encoding) (trits field : List FlexTrit) (numTrits : ℕ) (r : Reader) :
    List FlexTrit × Reader :=
  ((flexTritsSlice E field numTrits trits numTritsSerializedTransaction r.offset numTrits).1,
    { r with offset := r.offset + numTrits })

/-- A number cut out of the serialized trits, and the offset moved behind it. -/
def readLong (E : Encoding) (trits : List FlexTrit) (numTrits : ℕ) (r : Reader) :
    Int64 × Reader :=
  let partialTrits :=
    (flexTritsSlice E r.partialTrits numTrits trits numTritsSerializedTransaction r.offset
      numTrits).1
  let buffer := (flexTritsToTrits E r.buffer numTrits partialTrits numTrits numTrits).1
  (tritsToLong buffer numTrits, ⟨r.offset + numTrits, partialTrits, buffer⟩)

/-- `transaction_deserialize_trits`: the transaction filled in and the number of trits read.
`r` is the locals as they are found. -/
def transactionDeserializeTrits (E : Encoding) (curl : Curl) (r : Reader) (tx : IotaTransaction)
    (trits : List FlexTrit) (computeHash : Bool) : IotaTransaction × ℕ :=
  let r := { r with offset := 0 }
  let (signatureOrMessage, r) := readField E trits tx.signatureOrMessage 6561 r
  let (address, r) := readField E trits tx.address 243 r
  let (value, r) := readLong E trits 81 r
  let (obsoleteTag, r) := readField E trits tx.obsoleteTag 81 r
  let (timestamp, r) := readLong E trits 27 r
  let (currentIndex, r) := readLong E trits 27 r
  let (lastIndex, r) := readLong E trits 27 r
  let (bundle, r) := readField E trits tx.bundle 243 r
  let (trunk, r) := readField E trits tx.trunk 243 r
  let (branch, r) := readField E trits tx.branch 243 r
  let (tag, r) := readField E trits tx.tag 81 r
  let (attachmentTimestamp, r) := readLong E trits 27 r
  let (attachmentTimestampLower, r) := readLong E trits 27 r
  let (attachmentTimestampUpper, r) := readLong E trits 27 r
  let (nonce, r) := readField E trits tx.nonce 81 r
  let hash :=
    if computeHash then
      let txTrits := (flexTritsToTrits E (List.replicate numTritsSerializedTransaction 0)
        numTritsSerializedTransaction trits r.offset r.offset).1
      (flexTritsFromTrits E tx.hash 243 (curl.digest txTrits) 243 243).1
    else tx.hash
  ({ address, value, obsoleteTag, timestamp := timestamp.toUInt64,
     currentIndex := currentIndex.toUInt64, lastIndex := lastIndex.toUInt64, bundle, trunk,
     branch, attachmentTimestamp := attachmentTimestamp.toUInt64,
     attachmentTimestampLower := attachmentTimestampLower.toUInt64,
     attachmentTimestampUpper := attachmentTimestampUpper.toUInt64, nonce, tag, hash,
     signatureOrMessage }, r.offset)

/-! ## Writing -/

/-- The locals of `transaction_serialize_to_flex_trits`: the trits written so far, the offset
and the scratch memory for a number. -/
structure Writer where
  trits : List FlexTrit
  offset : ℕ
  partialTrits : List FlexTrit

/-- A field inserted into the serialized trits, and the offset moved behind it. -/
def writeField (E : Encoding) (field : List FlexTrit) (numTrits : ℕ) (w : Writer) : Writer :=
  { w with
    trits := (flexTritsInsert E w.trits numTritsSerializedTransaction field numTrits w.offset
      numTrits).1
    offset := w.offset + numTrits }

/-- `_long_to_flex_trit`: the flex trits and the number of trits the value takes. -/
def longToFlexTrit (E : Encoding) (value : Int64) (trits : List FlexTrit) : List FlexTrit × ℕ :=
  let buffer := List.replicate 81 0
  let (buffer, longSize) := longToTrits value buffer
  ((flexTritsFromTrits E trits 81 buffer 81 81).1, longSize)

/-- A number inserted into the serialized trits, and the offset moved behind it. -/
def writeLong (E : Encoding) (value : Int64) (numTrits : ℕ) (w : Writer) : Writer :=
  let partialTrits := (longToFlexTrit E value w.partialTrits).1
  writeField E partialTrits numTrits { w with partialTrits }

/-- `transaction_serialize_to_flex_trits`: the serialized trits and their number. `w` is the
destination and the locals as they are found. -/
def transactionSerializeToFlexTrits (E : Encoding) (w : Writer) (tx : IotaTransaction) :
    List FlexTrit × ℕ :=
  let w := { w with
    trits := memset w.trits E.nullValue (E.numFlexTritsForTrits numTritsSerializedTransaction)
    offset := 0 }
  let w := writeField E tx.signatureOrMessage 6561 w
  let w := writeField E tx.address 243 w
  let w := writeLong E tx.value 81 w
  let w := writeField E tx.obsoleteTag 81 w
  let w := writeLong E tx.timestamp.toInt64 27 w
  let w := writeLong E tx.currentIndex.toInt64 27 w
  let w := writeLong E tx.lastIndex.toInt64 27 w
  let w := writeField E tx.bundle 243 w
  let w := writeField E tx.trunk 243 w
  let w := writeField E tx.branch 243 w
  let w := writeField E tx.tag 81 w
  let w := writeLong E tx.attachmentTimestamp.toInt64 27 w
  let w := writeLong E tx.attachmentTimestampLower.toInt64 27 w
  let w := writeLong E tx.attachmentTimestampUpper.toInt64 27 w
  let w := writeField E tx.nonce 81 w
  (w.trits, w.offset)

/-- `transaction_reset`. -/
def transactionReset (E : Encoding) : IotaTransaction :=
  let null (n : ℕ) := List.replicate (E.numFlexTritsForTrits n) E.nullValue
  { address := null 243, value := 0, obsoleteTag := null 81, timestamp := 0, currentIndex := 0,
    lastIndex := 0, bundle := null 243, trunk := null 243, branch := null 243,
    attachmentTimestamp := 0, attachmentTimestampLower := 0, attachmentTimestampUpper := 0,
    nonce := null 81, tag := null 81, hash := null 243, signatureOrMessage := null 6561 }

/-- `transaction_deserialize`, when there is memory for the transaction. -/
def transactionDeserialize (E : Encoding) (curl : Curl) (r : Reader) (trits : List FlexTrit)
    (computeHash : Bool) : Option IotaTransaction :=
  let (tx, offset) := transactionDeserializeTrits E curl r (transactionReset E) trits computeHash
  if offset = 0 then none else some tx

/-! ## The layout -/

/-- The fields of a transaction as trits and integers. -/
structure Fields where
  signatureOrMessage : List ℤ
  address : List ℤ
  value : ℤ
  obsoleteTag : List ℤ
  timestamp : ℤ
  currentIndex : ℤ
  lastIndex : ℤ
  bundle : List ℤ
  trunk : List ℤ
  branch : List ℤ
  tag : List ℤ
  attachmentTimestamp : ℤ
  attachmentTimestampLower : ℤ
  attachmentTimestampUpper : ℤ
  nonce : List ℤ

namespace Fields

/-- The lengths of the fields, in the order they are laid out. -/
def layout : List ℕ := [6561, 243, 81, 81, 27, 27, 27, 243, 243, 243, 81, 27, 27, 27, 81]

/-- The trits of the fields, in that order. -/
def segments (f : Fields) : List (List ℤ) :=
  [f.signatureOrMessage, f.address, digits 81 f.value, f.obsoleteTag, digits 27 f.timestamp,
    digits 27 f.currentIndex, digits 27 f.lastIndex, f.bundle, f.trunk, f.branch, f.tag,
    digits 27 f.attachmentTimestamp, digits 27 f.attachmentTimestampLower,
    digits 27 f.attachmentTimestampUpper, f.nonce]

/-- The serialized transaction. -/
def wire (f : Fields) : List ℤ := f.segments.flatten

/-- The fields spelled by a list of segments. -/
def ofSegments (s : List (List ℤ)) : Fields where
  signatureOrMessage := s.getD 0 []
  address := s.getD 1 []
  value := Ternary.value (s.getD 2 [])
  obsoleteTag := s.getD 3 []
  timestamp := Ternary.value (s.getD 4 [])
  currentIndex := Ternary.value (s.getD 5 [])
  lastIndex := Ternary.value (s.getD 6 [])
  bundle := s.getD 7 []
  trunk := s.getD 8 []
  branch := s.getD 9 []
  tag := s.getD 10 []
  attachmentTimestamp := Ternary.value (s.getD 11 [])
  attachmentTimestampLower := Ternary.value (s.getD 12 [])
  attachmentTimestampUpper := Ternary.value (s.getD 13 [])
  nonce := s.getD 14 []

/-- A list cut into pieces of given lengths. -/
def cut : List ℕ → List ℤ → List (List ℤ)
  | [], _ => []
  | n :: ns, ts => ts.take n :: cut ns (ts.drop n)

/-- The fields of a serialized transaction. -/
def read (ts : List ℤ) : Fields := ofSegments (cut layout ts)

/-- Fields that can be laid out: trits of the right number, and integers in reach of the trits
they get. -/
structure Valid (f : Fields) : Prop where
  lengths : f.segments.map List.length = layout
  trits : ∀ s ∈ f.segments, Trits s
  value : 2 * |f.value| < 3 ^ 81
  timestamp : 2 * |f.timestamp| < 3 ^ 27
  currentIndex : 2 * |f.currentIndex| < 3 ^ 27
  lastIndex : 2 * |f.lastIndex| < 3 ^ 27
  attachmentTimestamp : 2 * |f.attachmentTimestamp| < 3 ^ 27
  attachmentTimestampLower : 2 * |f.attachmentTimestampLower| < 3 ^ 27
  attachmentTimestampUpper : 2 * |f.attachmentTimestampUpper| < 3 ^ 27

theorem cut_flatten (segs : List (List ℤ)) : cut (segs.map List.length) segs.flatten = segs := by
  induction segs with
  | nil => rfl
  | cons s segs ih =>
    rw [List.map_cons, List.flatten_cons, cut, List.take_left, List.drop_left, ih]

theorem flatten_cut {ns : List ℕ} {ts : List ℤ} (h : ts.length = ns.sum) :
    (cut ns ts).flatten = ts := by
  induction ns generalizing ts with
  | nil => rw [List.length_eq_zero_iff.mp h]; rfl
  | cons n ns ih =>
    rw [List.sum_cons] at h
    rw [cut, List.flatten_cons, ih (by rw [List.length_drop]; omega), List.take_append_drop]

theorem length_wire {f : Fields} (h : f.Valid) : f.wire.length = 8019 := by
  rw [wire, List.length_flatten, h.lengths]
  rfl

theorem trits_wire {f : Fields} (h : f.Valid) : Trits f.wire := by
  intro t ht
  obtain ⟨s, hs, hts⟩ := List.mem_flatten.mp ht
  exact h.trits s hs t hts

/-- **Fields laid out are read back.** -/
theorem read_wire {f : Fields} (h : f.Valid) : read f.wire = f := by
  have hcut : cut layout f.wire = f.segments := by
    rw [← h.lengths]
    exact cut_flatten _
  rw [read, hcut]
  cases f
  simp only [ofSegments, segments, List.getD_cons_zero, List.getD_cons_succ,
    value_digits h.value, value_digits h.timestamp, value_digits h.currentIndex,
    value_digits h.lastIndex, value_digits h.attachmentTimestamp,
    value_digits h.attachmentTimestampLower, value_digits h.attachmentTimestampUpper]

theorem digits_value_take {ts : List ℤ} {n : ℕ} (hts : Trits ts) (h : n ≤ ts.length) :
    digits n (Ternary.value (ts.take n)) = ts.take n := by
  have hl : (ts.take n).length = n := by
    rw [List.length_take]
    omega
  have h := digits_value_length (hts.take n)
  rwa [hl] at h

theorem two_mul_abs_value_take {ts : List ℤ} {n : ℕ} (hts : Trits ts) :
    2 * |Ternary.value (ts.take n)| < 3 ^ n := by
  have h := two_mul_abs_value_lt (hts.take n)
  have hpow : (3 : ℤ) ^ (ts.take n).length ≤ 3 ^ n :=
    pow_le_pow_right₀ (by decide) (List.length_take_le n ts)
  omega

theorem segments_read {ts : List ℤ} (hts : Trits ts) (hl : ts.length = 8019) :
    (read ts).segments = cut layout ts := by
  simp only [segments, read, ofSegments, layout, cut, List.getD_cons_zero, List.getD_cons_succ,
    List.drop_drop]
  simp only [digits_value_take (hts.drop _), List.length_drop, hl, Nat.reduceAdd,
    Nat.reduceSub, Nat.reduceLeDiff]

/-- **Trits read are laid out again.** -/
theorem wire_read {ts : List ℤ} (hts : Trits ts) (hl : ts.length = 8019) : (read ts).wire = ts := by
  rw [wire, segments_read hts hl, flatten_cut hl]

theorem map_length_cut {ns : List ℕ} {ts : List ℤ} (h : ts.length = ns.sum) :
    (cut ns ts).map List.length = ns := by
  induction ns generalizing ts with
  | nil => rfl
  | cons n ns ih =>
    rw [List.sum_cons] at h
    rw [cut, List.map_cons, ih (by rw [List.length_drop]; omega), List.length_take,
      Nat.min_eq_left (by omega)]

theorem trits_cut {ns : List ℕ} {ts : List ℤ} (hts : Trits ts) : ∀ s ∈ cut ns ts, Trits s := by
  induction ns generalizing ts with
  | nil => simp [cut]
  | cons n ns ih =>
    rw [cut]
    intro s hs
    rcases List.mem_cons.mp hs with rfl | hs
    · exact hts.take n
    · exact ih (hts.drop n) s hs

theorem valid_read {ts : List ℤ} (hts : Trits ts) (hl : ts.length = 8019) : (read ts).Valid where
  lengths := by rw [segments_read hts hl, map_length_cut hl]
  trits := by
    rw [segments_read hts hl]
    exact trits_cut hts
  value := two_mul_abs_value_take ((hts.drop _).drop _)
  timestamp := two_mul_abs_value_take ((((hts.drop _).drop _).drop _).drop _)
  currentIndex := two_mul_abs_value_take (((((hts.drop _).drop _).drop _).drop _).drop _)
  lastIndex := two_mul_abs_value_take ((((((hts.drop _).drop _).drop _).drop _).drop _).drop _)
  attachmentTimestamp := by
    simp only [read, ofSegments, layout, cut, List.getD_cons_zero, List.getD_cons_succ,
      List.drop_drop]
    exact two_mul_abs_value_take (hts.drop _)
  attachmentTimestampLower := by
    simp only [read, ofSegments, layout, cut, List.getD_cons_zero, List.getD_cons_succ,
      List.drop_drop]
    exact two_mul_abs_value_take (hts.drop _)
  attachmentTimestampUpper := by
    simp only [read, ofSegments, layout, cut, List.getD_cons_zero, List.getD_cons_succ,
      List.drop_drop]
    exact two_mul_abs_value_take (hts.drop _)

/-- The transaction in memory. -/
def transaction (E : Encoding) (hash : List FlexTrit) (f : Fields) : IotaTransaction where
  address := pack E f.address
  value := Int64.ofInt f.value
  obsoleteTag := pack E f.obsoleteTag
  timestamp := (Int64.ofInt f.timestamp).toUInt64
  currentIndex := (Int64.ofInt f.currentIndex).toUInt64
  lastIndex := (Int64.ofInt f.lastIndex).toUInt64
  bundle := pack E f.bundle
  trunk := pack E f.trunk
  branch := pack E f.branch
  attachmentTimestamp := (Int64.ofInt f.attachmentTimestamp).toUInt64
  attachmentTimestampLower := (Int64.ofInt f.attachmentTimestampLower).toUInt64
  attachmentTimestampUpper := (Int64.ofInt f.attachmentTimestampUpper).toUInt64
  nonce := pack E f.nonce
  tag := pack E f.tag
  hash := hash
  signatureOrMessage := pack E f.signatureOrMessage

end Fields

/-! ## Deserialization reads the layout -/

variable {E : Encoding} {ts : List ℤ}

/-- The scratch memory has its size. -/
structure Reader.Sized (E : Encoding) (r : Reader) : Prop where
  partialTrits : r.partialTrits.length = E.numFlexTritsForTrits 81
  buffer : r.buffer.length = 81

theorem readField_pack {field : List FlexTrit} {n o : ℕ} {r : Reader} (hts : Trits ts)
    (hl : ts.length = 8019) (hr : r.Sized E) (ho : r.offset = o)
    (hf : field.length = E.numFlexTritsForTrits n) (h0 : n ≠ 0) (hn : o + n ≤ 8019) :
    ∃ r' : Reader, readField E (pack E ts) field n r = (pack E ((ts.drop o).take n), r') ∧
      r'.Sized E ∧ r'.offset = o + n := by
  subst ho
  have h := flexTritsSlice_field (E := E) r.offset hts h0 (by omega) hf
  rw [hl] at h
  refine ⟨_, Prod.ext ?_ rfl, ⟨hr.partialTrits, hr.buffer⟩, rfl⟩
  rw [readField, numTritsSerializedTransaction, h]

theorem readLong_pack {n o : ℕ} {r : Reader} (hts : Trits ts) (hl : ts.length = 8019)
    (hr : r.Sized E) (ho : r.offset = o) (h0 : n ≠ 0) (h3 : 3 ∣ n) (h81 : n ≤ 81)
    (hn : o + n ≤ 8019) :
    ∃ r' : Reader, readLong E (pack E ts) n r =
        (Int64.ofInt (value ((ts.drop o).take n)), r') ∧ r'.Sized E ∧ r'.offset = o + n := by
  subst ho
  have hn' : r.offset + n ≤ ts.length := by omega
  have hlen := length_take_drop hn'
  have hd : E.numFlexTritsForTrits n ≤ r.partialTrits.length := by
    rw [hr.partialTrits]
    exact numFlexTritsForTrits_mono h81
  have hslice := flexTritsSlice_pack (E := E) hts h0 le_rfl hn' hd
  have hpre := flexTritsSlice_start (E := E) hts h0 hn' hd
  have htrits := flexTritsToTrits_pack (E := E) r.buffer n
    ((hts.drop r.offset).take n) hpre (by omega) (fun _ => by rw [hlen]; exact h3) hlen.le
    (by rw [hlen, hr.buffer]; exact h81)
  rw [hlen] at htrits
  rw [hl] at hslice htrits
  refine ⟨_, Prod.ext ?_ rfl, ⟨?_, ?_⟩, rfl⟩
  · show tritsToLong (flexTritsToTrits _ _ _ _ _ _).1 n = _
    rw [numTritsSerializedTransaction, htrits, tritsToLong_eq, blit, List.take_zero,
      List.nil_append, List.take_left' hlen]
  · show (flexTritsSlice _ _ _ _ _ _ _).1.length = _
    have hm : (memset r.partialTrits E.nullValue (E.numFlexTritsForTrits n)).length =
        r.partialTrits.length := length_memset hd
    rw [numTritsSerializedTransaction, hslice, length_blit, hm, hr.partialTrits]
    rw [length_pack, hlen, hm, Nat.zero_add]
    exact hd
  · show (flexTritsToTrits _ _ _ _ _ _).1.length = _
    rw [numTritsSerializedTransaction, htrits, length_blit, hr.buffer]
    rw [hlen, hr.buffer, Nat.zero_add]
    exact h81

/-- The arrays of a transaction have their sizes. -/
structure IotaTransaction.Sized (E : Encoding) (tx : IotaTransaction) : Prop where
  signatureOrMessage : tx.signatureOrMessage.length = E.numFlexTritsForTrits 6561
  address : tx.address.length = E.numFlexTritsForTrits 243
  obsoleteTag : tx.obsoleteTag.length = E.numFlexTritsForTrits 81
  bundle : tx.bundle.length = E.numFlexTritsForTrits 243
  trunk : tx.trunk.length = E.numFlexTritsForTrits 243
  branch : tx.branch.length = E.numFlexTritsForTrits 243
  tag : tx.tag.length = E.numFlexTritsForTrits 81
  nonce : tx.nonce.length = E.numFlexTritsForTrits 81
  hash : tx.hash.length = E.numFlexTritsForTrits 243

/-- The hash a transaction gets when its serialized trits are `ts`. -/
def deserializedHash (E : Encoding) (curl : Curl) (tx : IotaTransaction) (ts : List ℤ)
    (computeHash : Bool) : List FlexTrit :=
  if computeHash then pack E (curl.digest ts) else tx.hash

theorem computedHash_pack {curl : Curl} {tx : IotaTransaction} (hts : Trits ts)
    (hl : ts.length = 8019) (hhash : tx.hash.length = E.numFlexTritsForTrits 243) (computeHash : Bool) :
    (if computeHash = true then
      (flexTritsFromTrits E tx.hash 243 (curl.digest (flexTritsToTrits E
        (List.replicate numTritsSerializedTransaction 0) numTritsSerializedTransaction (pack E ts)
        8019 8019).1) 243 243).1 else tx.hash) =
      deserializedHash E curl tx ts computeHash := by
  have htrits := flexTritsToTrits_pack (E := E)
    (List.replicate numTritsSerializedTransaction 0) 8019 hts
    (List.prefix_refl _) (by rw [hl]; decide) (fun _ => by rw [hl]; decide) hl.le
    (by rw [hl, List.length_replicate]; decide)
  rw [blit_full (by rw [hl, List.length_replicate]; rfl), hl] at htrits
  have hdig := curl.length_digest ts
  have hfrom := flexTritsFromTrits_pack (E := E) tx.hash (curl.digest ts) 243 (curl.trits_digest ts)
    List.take_length (by rw [hdig]; decide) hdig.le (by rw [hdig, hhash])
  rw [blit_full (by rw [length_pack, hdig, hhash]), hdig] at hfrom
  rw [deserializedHash, show numTritsSerializedTransaction = 8019 from rfl] at *
  rw [htrits, hfrom]

/-- **Deserialization of packed trits**: the fields of the layout, in memory. -/
theorem transactionDeserializeTrits_pack {curl : Curl} {r : Reader} {tx : IotaTransaction}
    (hts : Trits ts) (hl : ts.length = 8019) (htx : tx.Sized E) (hr : r.Sized E)
    (computeHash : Bool) :
    transactionDeserializeTrits E curl r tx (pack E ts) computeHash =
      ((Fields.read ts).transaction E (deserializedHash E curl tx ts computeHash), 8019) := by
  have hr₀ : Reader.Sized E { r with offset := 0 } := ⟨hr.partialTrits, hr.buffer⟩
  obtain ⟨r₁, h₁, hr₁, o₁⟩ := readField_pack (o := 0) hts hl hr₀ rfl htx.signatureOrMessage
    (by decide) (by decide)
  obtain ⟨r₂, h₂, hr₂, o₂⟩ := readField_pack hts hl hr₁ o₁ htx.address (by decide) (by decide)
  obtain ⟨r₃, h₃, hr₃, o₃⟩ := readLong_pack (n := 81) hts hl hr₂ o₂ (by decide) (by decide)
    (by decide) (by decide)
  obtain ⟨r₄, h₄, hr₄, o₄⟩ := readField_pack hts hl hr₃ o₃ htx.obsoleteTag (by decide) (by decide)
  obtain ⟨r₅, h₅, hr₅, o₅⟩ := readLong_pack (n := 27) hts hl hr₄ o₄ (by decide) (by decide)
    (by decide) (by decide)
  obtain ⟨r₆, h₆, hr₆, o₆⟩ := readLong_pack (n := 27) hts hl hr₅ o₅ (by decide) (by decide)
    (by decide) (by decide)
  obtain ⟨r₇, h₇, hr₇, o₇⟩ := readLong_pack (n := 27) hts hl hr₆ o₆ (by decide) (by decide)
    (by decide) (by decide)
  obtain ⟨r₈, h₈, hr₈, o₈⟩ := readField_pack hts hl hr₇ o₇ htx.bundle (by decide) (by decide)
  obtain ⟨r₉, h₉, hr₉, o₉⟩ := readField_pack hts hl hr₈ o₈ htx.trunk (by decide) (by decide)
  obtain ⟨s₁, k₁, hs₁, p₁⟩ := readField_pack hts hl hr₉ o₉ htx.branch (by decide) (by decide)
  obtain ⟨s₂, k₂, hs₂, p₂⟩ := readField_pack hts hl hs₁ p₁ htx.tag (by decide) (by decide)
  obtain ⟨s₃, k₃, hs₃, p₃⟩ := readLong_pack (n := 27) hts hl hs₂ p₂ (by decide) (by decide)
    (by decide) (by decide)
  obtain ⟨s₄, k₄, hs₄, p₄⟩ := readLong_pack (n := 27) hts hl hs₃ p₃ (by decide) (by decide)
    (by decide) (by decide)
  obtain ⟨s₅, k₅, hs₅, p₅⟩ := readLong_pack (n := 27) hts hl hs₄ p₄ (by decide) (by decide)
    (by decide) (by decide)
  obtain ⟨s₆, k₆, -, p₆⟩ := readField_pack hts hl hs₅ p₅ htx.nonce (by decide) (by decide)
  unfold transactionDeserializeTrits
  simp only [h₁, h₂, h₃, h₄, h₅, h₆, h₇, h₈, h₉, k₁, k₂, k₃, k₄, k₅, k₆, p₆]
  simp only [Fields.transaction, Fields.read, Fields.ofSegments, Fields.layout, Fields.cut,
    List.getD_cons_zero, List.getD_cons_succ, List.drop_drop, Nat.reduceAdd, List.drop_zero,
    computedHash_pack hts hl htx.hash computeHash]

/-! ## Serialization writes the layout -/

variable {pre us : List ℤ} {w : Writer} {k n : ℕ}

/-- The writer after it has written the `k` trits `pre`: nulls stand behind. -/
structure Writer.Wrote (E : Encoding) (w : Writer) (pre : List ℤ) (k : ℕ) : Prop where
  trits : Trits pre
  length : pre.length = k
  written : w.trits = pack E (pre ++ List.replicate (8019 - k) 0)
  offset : w.offset = k
  partialTrits : w.partialTrits.length = E.numFlexTritsForTrits 81

theorem Writer.Wrote.writeField {field : List FlexTrit} (h : w.Wrote E pre k) (hus : Trits us)
    (hf : pack E us <+: field) (hn : n ≤ us.length) (h0 : n ≠ 0) (hle : k + n ≤ 8019) :
    (writeField E field n w).Wrote E (pre ++ us.take n) (k + n) := by
  have hpre := h.length
  have htake : (us.take n).length = n := by
    rw [List.length_take]
    omega
  have hlen : (pre ++ List.replicate (8019 - k) (0 : ℤ)).length = 8019 := by
    rw [List.length_append, List.length_replicate]
    omega
  have hins := flexTritsInsert_pack (E := E) n k
    (trits_append.mpr ⟨h.trits, trits_replicate (8019 - k)⟩) hus hf h0 le_rfl hn (by omega)
  have hblit : blit (pre ++ List.replicate (8019 - k) 0) k (us.take n) =
      pre ++ us.take n ++ List.replicate (8019 - (k + n)) 0 := by
    rw [blit, List.take_left' hpre, List.drop_append, List.drop_replicate, htake,
      List.drop_of_length_le (by omega), List.nil_append]
    congr 2
    omega
  rw [hlen, hblit] at hins
  refine ⟨trits_append.mpr ⟨h.trits, hus.take n⟩, ?_, ?_, ?_, h.partialTrits⟩
  · rw [List.length_append, htake, hpre]
  · show (flexTritsInsert E w.trits 8019 field n w.offset n).1 = _
    rw [h.written, h.offset, hins]
  · show w.offset + n = _
    rw [h.offset]

theorem longToFlexTrit_pack {v : Int64} {trits : List FlexTrit}
    (h : trits.length = E.numFlexTritsForTrits 81) :
    (longToFlexTrit E v trits).1 = pack E (digits 81 v.toInt) := by
  have hl := length_digits 81 v.toInt
  have hlong := longToTrits_eq v (n := 81) (by decide)
  have hfrom := flexTritsFromTrits_pack (E := E) trits (digits 81 v.toInt) 81
    (trits_digits 81 v.toInt) List.take_length (by rw [hl]; decide) hl.le
    (by rw [hl, h])
  rw [blit_full (by rw [length_pack, hl, h]), hl] at hfrom
  show (flexTritsFromTrits E trits 81 (longToTrits v (List.replicate 81 0)).1 81 81).1 = _
  rw [hlong, hfrom]

theorem Writer.Wrote.writeLong {v : Int64} (h : w.Wrote E pre k) (hn : n ≤ 81) (h0 : n ≠ 0)
    (hle : k + n ≤ 8019) : (writeLong E v n w).Wrote E (pre ++ digits n v.toInt) (k + n) := by
  have hpack := longToFlexTrit_pack (E := E) (v := v) h.partialTrits
  have h' : Writer.Wrote E { w with partialTrits := (longToFlexTrit E v w.partialTrits).1 } pre k :=
    ⟨h.trits, h.length, h.written, h.offset, by rw [hpack, length_pack, length_digits]⟩
  have hpre : pack E (digits 81 v.toInt) <+: (longToFlexTrit E v w.partialTrits).1 :=
    hpack ▸ List.prefix_rfl
  have hw := h'.writeField (trits_digits 81 v.toInt) hpre (by rw [length_digits]; exact hn) h0 hle
  rwa [digits_take hn] at hw

/-- A whole field. -/
theorem Writer.Wrote.writeWhole (h : w.Wrote E pre k) (hus : Trits us) (hn : us.length = n)
    (h0 : n ≠ 0) (hle : k + n ≤ 8019) :
    (Codec.writeField E (pack E us) n w).Wrote E (pre ++ us) (k + n) := by
  subst hn
  have hw := h.writeField hus (List.prefix_refl _) le_rfl h0 hle
  rwa [List.take_length] at hw

/-- A number of 27 trits fits a word. -/
theorem fits_of_reach {v : ℤ} (h : 2 * |v| < 3 ^ 27) : Word.Fits v := by
  have hb := two_mul_abs_lt.mp h
  unfold Word.Fits
  omega

/-- The memory `transaction_serialize_to_flex_trits` writes to. -/
structure Writer.Sized (E : Encoding) (w : Writer) : Prop where
  trits : w.trits.length = E.numFlexTritsForTrits 8019
  partialTrits : w.partialTrits.length = E.numFlexTritsForTrits 81

theorem Writer.Sized.wrote_nil (h : w.Sized E) :
    Writer.Wrote E { w with
      trits := memset w.trits E.nullValue (E.numFlexTritsForTrits numTritsSerializedTransaction)
      offset := 0 } [] 0 where
  trits := trits_nil
  length := rfl
  written := by
    have hnull := replicate_null E numTritsSerializedTransaction
    show memset _ _ _ = _
    rw [memset, hnull, blit_full (by rw [length_pack, List.length_replicate, h.trits]; rfl)]
    rfl
  offset := rfl
  partialTrits := h.partialTrits

/-- **Serialization of a transaction**: its layout, packed. -/
theorem transactionSerialize_pack {f : Fields} (hf : f.Valid) (hv : Word.Fits f.value)
    (hw : w.Sized E) (hash : List FlexTrit) :
    transactionSerializeToFlexTrits E w (f.transaction E hash) = (pack E f.wire, 8019) := by
  have hl := hf.lengths
  have ht := hf.trits
  simp only [Fields.segments, Fields.layout, List.map_cons, List.map_nil, List.cons.injEq,
    length_digits, true_and, and_true] at hl
  simp only [Fields.segments, List.forall_mem_cons, List.not_mem_nil, false_implies, implies_true,
    and_true] at ht
  obtain ⟨l₁, l₂, l₃, l₄, l₅, l₆, l₇, l₈⟩ := hl
  obtain ⟨t₁, t₂, -, t₃, -, -, -, t₄, t₅, t₆, t₇, -, -, -, t₈⟩ := ht
  have w₁ := hw.wrote_nil.writeWhole t₁ l₁ (by decide) (by decide)
  have w₂ := w₁.writeWhole t₂ l₂ (by decide) (by decide)
  have w₃ := w₂.writeLong (v := Int64.ofInt f.value) (n := 81) (by decide) (by decide) (by decide)
  have w₄ := w₃.writeWhole t₃ l₃ (by decide) (by decide)
  have w₅ := w₄.writeLong (v := Int64.ofInt f.timestamp) (n := 27) (by decide) (by decide)
    (by decide)
  have w₆ := w₅.writeLong (v := Int64.ofInt f.currentIndex) (n := 27) (by decide) (by decide)
    (by decide)
  have w₇ := w₆.writeLong (v := Int64.ofInt f.lastIndex) (n := 27) (by decide) (by decide)
    (by decide)
  have w₈ := w₇.writeWhole t₄ l₄ (by decide) (by decide)
  have w₉ := w₈.writeWhole t₅ l₅ (by decide) (by decide)
  have v₁ := w₉.writeWhole t₆ l₆ (by decide) (by decide)
  have v₂ := v₁.writeWhole t₇ l₇ (by decide) (by decide)
  have v₃ := v₂.writeLong (v := Int64.ofInt f.attachmentTimestamp) (n := 27) (by decide) (by decide)
    (by decide)
  have v₄ := v₃.writeLong (v := Int64.ofInt f.attachmentTimestampLower) (n := 27) (by decide)
    (by decide) (by decide)
  have v₅ := v₄.writeLong (v := Int64.ofInt f.attachmentTimestampUpper) (n := 27) (by decide)
    (by decide) (by decide)
  have v₆ := v₅.writeWhole t₈ l₈ (by decide) (by decide)
  have hwritten := v₆.written
  simp only [Word.toInt_ofInt hv, Word.toInt_ofInt (fits_of_reach hf.timestamp),
    Word.toInt_ofInt (fits_of_reach hf.currentIndex), Word.toInt_ofInt (fits_of_reach hf.lastIndex),
    Word.toInt_ofInt (fits_of_reach hf.attachmentTimestamp),
    Word.toInt_ofInt (fits_of_reach hf.attachmentTimestampLower),
    Word.toInt_ofInt (fits_of_reach hf.attachmentTimestampUpper), List.nil_append, Nat.reduceAdd,
    Nat.sub_self, List.replicate_zero, List.append_nil] at hwritten
  simp only [Fields.wire, Fields.segments, List.flatten_cons, List.flatten_nil, List.append_nil,
    ← List.append_assoc]
  simp only [transactionSerializeToFlexTrits, Fields.transaction, Int64.toInt64_toUInt64, hwritten,
    v₆.offset, Nat.reduceAdd]

theorem transactionReset_sized (E : Encoding) : (transactionReset E).Sized E := by
  constructor <;> exact List.length_replicate

/-- `transaction_deserialize` succeeds on packed trits. -/
theorem transactionDeserialize_pack {curl : Curl} {r : Reader} (hts : Trits ts)
    (hl : ts.length = 8019) (hr : r.Sized E) (computeHash : Bool) :
    transactionDeserialize E curl r (pack E ts) computeHash =
      some ((Fields.read ts).transaction E
        (deserializedHash E curl (transactionReset E) ts computeHash)) := by
  rw [transactionDeserialize,
    transactionDeserializeTrits_pack hts hl (transactionReset_sized E) hr computeHash]
  exact if_neg (by decide)

/-! ## Round trips -/

/-- An array that holds `n` trits, packed. -/
def IsPacked (E : Encoding) (n : ℕ) (b : List FlexTrit) : Prop :=
  ∃ ts, Trits ts ∧ ts.length = n ∧ b = pack E ts

/-- The trit fields of a transaction hold trits, any trits. -/
structure IotaTransaction.Packed (E : Encoding) (tx : IotaTransaction) : Prop where
  signatureOrMessage : IsPacked E 6561 tx.signatureOrMessage
  address : IsPacked E 243 tx.address
  obsoleteTag : IsPacked E 81 tx.obsoleteTag
  bundle : IsPacked E 243 tx.bundle
  trunk : IsPacked E 243 tx.trunk
  branch : IsPacked E 243 tx.branch
  tag : IsPacked E 81 tx.tag
  nonce : IsPacked E 81 tx.nonce

/-- A number 27 trits can hold. -/
def InReach (v : UInt64) : Prop := 2 * |v.toInt64.toInt| < 3 ^ 27

instance (v : UInt64) : Decidable (InReach v) := inferInstanceAs (Decidable (_ < _))

/-- The 27-trit numbers of a transaction are in the range of 27 trits. -/
structure IotaTransaction.InRange (tx : IotaTransaction) : Prop where
  timestamp : InReach tx.timestamp
  currentIndex : InReach tx.currentIndex
  lastIndex : InReach tx.lastIndex
  attachmentTimestamp : InReach tx.attachmentTimestamp
  attachmentTimestampLower : InReach tx.attachmentTimestampLower
  attachmentTimestampUpper : InReach tx.attachmentTimestampUpper

theorem fields_of_packed {tx : IotaTransaction} (hp : tx.Packed E) (hr : tx.InRange) :
    ∃ f : Fields, f.Valid ∧ Word.Fits f.value ∧ ∀ hash, f.transaction E hash = { tx with hash } := by
  obtain ⟨sig, t₁, l₁, e₁⟩ := hp.signatureOrMessage
  obtain ⟨addr, t₂, l₂, e₂⟩ := hp.address
  obtain ⟨otag, t₃, l₃, e₃⟩ := hp.obsoleteTag
  obtain ⟨bundle, t₄, l₄, e₄⟩ := hp.bundle
  obtain ⟨trunk, t₅, l₅, e₅⟩ := hp.trunk
  obtain ⟨branch, t₆, l₆, e₆⟩ := hp.branch
  obtain ⟨tag, t₇, l₇, e₇⟩ := hp.tag
  obtain ⟨nonce, t₈, l₈, e₈⟩ := hp.nonce
  refine ⟨⟨sig, addr, tx.value.toInt, otag, tx.timestamp.toInt64.toInt, tx.currentIndex.toInt64.toInt,
    tx.lastIndex.toInt64.toInt, bundle, trunk, branch, tag, tx.attachmentTimestamp.toInt64.toInt,
    tx.attachmentTimestampLower.toInt64.toInt, tx.attachmentTimestampUpper.toInt64.toInt, nonce⟩,
    ⟨?_, ?_, ?_, hr.timestamp, hr.currentIndex, hr.lastIndex, hr.attachmentTimestamp,
      hr.attachmentTimestampLower, hr.attachmentTimestampUpper⟩, Word.fits_toInt _, ?_⟩
  · simp only [Fields.segments, Fields.layout, List.map_cons, List.map_nil, length_digits, l₁, l₂, l₃,
      l₄, l₅, l₆, l₇, l₈]
  · simp only [Fields.segments, List.forall_mem_cons, List.not_mem_nil, false_implies, implies_true,
      and_true, trits_digits, true_and]
    exact ⟨t₁, t₂, t₃, t₄, t₅, t₆, t₇, t₈⟩
  · have h₁ := tx.value.le_toInt
    have h₂ := tx.value.toInt_lt
    rw [two_mul_abs_lt]
    show -3 ^ 81 < 2 * tx.value.toInt ∧ 2 * tx.value.toInt < 3 ^ 81
    omega
  · intro hash
    simp only [Fields.transaction, ← e₁, ← e₂, ← e₃, ← e₄, ← e₅, ← e₆, ← e₇, ← e₈,
      Int64.ofInt_toInt, UInt64.toUInt64_toInt64]

/-- **The codec round trips.** In every encoding, and whatever the destination and the
scratch memory held: a transaction with any trits in its trit fields, any value and numbers in
the range of their trits comes back from its serialization, but for the hash, which is not part
of it; and packed trits come back from the transaction they deserialize to, when the number in
the value field is one an `int64_t` holds. -/
theorem transaction_round_trip (E : Encoding) (curl : Curl) (r : Reader) (w : Writer)
    (tx₀ : IotaTransaction) (computeHash : Bool) (hr : r.Sized E) (hw : w.Sized E)
    (htx₀ : tx₀.Sized E) :
    (∀ tx : IotaTransaction, tx.Packed E → tx.InRange →
      ∃ hash, transactionDeserializeTrits E curl r tx₀
        (transactionSerializeToFlexTrits E w tx).1 computeHash = ({ tx with hash }, 8019)) ∧
    ∀ ts, Trits ts → ts.length = 8019 → Word.Fits (value ((ts.drop 6804).take 81)) →
      transactionSerializeToFlexTrits E w
        (transactionDeserializeTrits E curl r tx₀ (pack E ts) computeHash).1 =
          (pack E ts, 8019) := by
  constructor
  · intro tx hp hrange
    obtain ⟨f, hf, hv, htx⟩ := fields_of_packed hp hrange
    have hser := transactionSerialize_pack hf hv hw tx.hash
    rw [htx] at hser
    refine ⟨deserializedHash E curl tx₀ f.wire computeHash, ?_⟩
    rw [show transactionSerializeToFlexTrits E w tx = _ from hser,
      transactionDeserializeTrits_pack (Fields.trits_wire hf) (Fields.length_wire hf) htx₀ hr,
      Fields.read_wire hf, htx]
  · intro ts hts hl hv
    have hv' : Word.Fits (Fields.read ts).value := by
      have hdrop : (ts.drop 6561).drop 243 = ts.drop 6804 := by rw [List.drop_drop]
      show Word.Fits (value (((ts.drop 6561).drop 243).take 81))
      rw [hdrop]
      exact hv
    rw [transactionDeserializeTrits_pack hts hl htx₀ hr,
      transactionSerialize_pack (Fields.valid_read hts hl) hv' hw, Fields.wire_read hts hl]

theorem isPacked_null (E : Encoding) (n : ℕ) :
    IsPacked E n (List.replicate (E.numFlexTritsForTrits n) E.nullValue) :=
  ⟨List.replicate n 0, trits_replicate n, List.length_replicate, replicate_null E n⟩

theorem transactionReset_packed (E : Encoding) : (transactionReset E).Packed E := by
  constructor <;> exact isPacked_null E _

/-- A digest that is always null. -/
def nullCurl : Curl :=
  ⟨fun _ => List.replicate 243 0, fun _ => trits_replicate 243, fun _ => List.length_replicate⟩

/-- A transfer of one token, and trits with a signature of ones, in four trits to a byte. -/
theorem transaction_round_trip_four :
    (∃ hash, transactionDeserializeTrits .four nullCurl
      ⟨0, List.replicate 21 1, List.replicate 81 1⟩ (transactionReset .four)
      (transactionSerializeToFlexTrits .four ⟨List.replicate 2005 1, 0, List.replicate 21 1⟩
        { transactionReset .four with value := -1, timestamp := 1500000000 }).1 true =
      ({ transactionReset .four with value := -1, timestamp := 1500000000, hash }, 8019)) ∧
    transactionSerializeToFlexTrits .four ⟨List.replicate 2005 1, 0, List.replicate 21 1⟩
      (transactionDeserializeTrits .four nullCurl ⟨0, List.replicate 21 1, List.replicate 81 1⟩
        (transactionReset .four) (pack .four (List.replicate 6561 1 ++ List.replicate 1458 0))
        true).1 =
      (pack .four (List.replicate 6561 1 ++ List.replicate 1458 0), 8019) := by
  have hall := transaction_round_trip .four nullCurl ⟨0, List.replicate 21 1, List.replicate 81 1⟩
    ⟨List.replicate 2005 1, 0, List.replicate 21 1⟩ (transactionReset .four) true
    ⟨List.length_replicate, List.length_replicate⟩ ⟨List.length_replicate, List.length_replicate⟩
    (transactionReset_sized .four)
  have hp := transactionReset_packed .four
  have hone : Trits (List.replicate 6561 1) := by
    intro t ht
    rw [List.eq_of_mem_replicate ht]
    decide
  refine ⟨hall.1 { transactionReset .four with value := -1, timestamp := 1500000000 }
      ⟨hp.1, hp.2, hp.3, hp.4, hp.5, hp.6, hp.7, hp.8⟩
      ⟨by decide, by decide, by decide, by decide, by decide, by decide⟩,
    hall.2 _ (trits_append.mpr ⟨hone, trits_replicate 1458⟩) ?_ ?_⟩
  · rw [List.length_append, List.length_replicate, List.length_replicate]
  · rw [List.drop_append, List.length_replicate,
      List.drop_of_length_le (by rw [List.length_replicate]; omega),
      List.nil_append, List.drop_replicate, List.take_replicate, value_replicate_zero]
    decide

end Codec

end Entangled
