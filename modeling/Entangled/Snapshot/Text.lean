import Entangled.Common.Decimal
import Entangled.Model.Types
import Entangled.Trinary.Conversions
/-!
# Snapshots as text

A line of a snapshot file is a hash in trytes, a semicolon, and a number in
decimal. `state_delta_serialize_str` and `iota_snapshot_metadata_serialize_str`
write such lines into a buffer of the caller, and the readers cut them off the
text with `strtok`, which writes NUL where a token ends. A write outside the
buffer or a read behind the text is undefined, and so is a character that the
table of trytes has no row for: these are `none`.
-/

namespace Entangled

/-- What the readers and writers of snapshot text return. -/
inductive TextRetcode
  | of (e : Retcode)
  | snapshotInvalidFile
  | snapshotInvalidSupply
  | snapshotInconsistentSnapshot
  | snapshotMetadataFailedDeserializing
  | snapshotMetadataFailedSerializing
  | snapshotStateDeltaFailedDeserializing
  deriving DecidableEq, Repr

namespace Snapshot

open Trinary Ternary Tokens Decimal

variable {E : Encoding} {ts : List ℤ} {a : List FlexTrit} {digits front tail rest mem : List Int8}
variable {n : ℕ}

/-! ## Writing -/

/-- Write to an offset of a buffer. -/
def put (str : List Int8) (offset : ℕ) (cs : List Int8) : Option (List Int8) :=
  if offset + cs.length ≤ str.length then some (blit str offset cs) else none

/-- `flex_trits_to_trytes` of a hash to an offset of a buffer. -/
def putTrytes (E : Encoding) (str : List Int8) (offset : ℕ) (hash : List FlexTrit) :
    Option (List Int8 × ℕ) :=
  if offset + 81 ≤ str.length then
    (flexTritsToTrytes E (str.drop offset) 81 hash 243 243).map fun p =>
      (str.take offset ++ p.1, p.2)
  else none

/-- Write a line: whether the hash was converted, the offset and the buffer. The offset is kept in
a type of so many values. -/
def putLine (E : Encoding) (values : ℕ) (hash : List FlexTrit) (digits : List Int8) (offset : ℕ)
    (str : List Int8) : Option (Bool × ℕ × List Int8) :=
  (putTrytes E str offset hash).bind fun (str, numTrits) =>
    if numTrits ≠ 243 then some (false, offset, str)
    else
      let offset := (offset + 81) % values
      (put str offset [59]).bind fun str =>
        let offset := (offset + 1) % values
        -- `sprintf` ends what it writes with a NUL it does not count
        (put str offset (digits ++ [10, 0])).map fun str =>
          (true, (offset + (digits.length + 1)) % values, str)

/-- Write lines, as long as the hashes are converted. -/
def putLines (E : Encoding) (values : ℕ) :
    List (List FlexTrit × List Int8) → ℕ → List Int8 → Option (Bool × ℕ × List Int8)
  | [], offset, str => some (true, offset, str)
  | l :: ls, offset, str =>
    (putLine E values l.1 l.2 offset str).bind fun (converted, offset, str) =>
      if converted then putLines E values ls offset str else some (false, offset, str)

/-- The string at the head of a buffer. -/
def stringOf (str : List Int8) : List Int8 := str.takeWhile (· != 0)

/-! ## Reading -/

/-- What a reader sees from a key on: the separator behind it is NUL now. -/
def keyMemory (r : Record Int8) : List Int8 :=
  r.key ++ 0 :: r.behind.elim [] fun text => text ++ [0]

/-- `flex_trits_from_trytes` of a hash at the head of what can be read. -/
def readTrytes (E : Encoding) (mem : List Int8) : Option (List FlexTrit × ℕ) :=
  if mem.length < 81 ∨ E ≠ .three ∧ ∃ c ∈ mem.take 81, c ∉ tryteAlphabet then none
  else
    flexTritsFromTrytes E (List.replicate (E.numFlexTritsForTrits 243) 0) 243 mem 81 81

/-! ## Hashes -/

/-- A hash: the flex trits of 243 trits. -/
def IsHash (E : Encoding) (a : List FlexTrit) : Prop :=
  ∃ ts, Trits ts ∧ ts.length = 243 ∧ a = pack E ts

theorem isHash_pack (hts : Trits ts) (hlen : ts.length = 243) : IsHash E (pack E ts) :=
  ⟨ts, hts, hlen, rfl⟩

theorem isHash_zeros (E : Encoding) : IsHash E (pack E (List.replicate 243 0)) :=
  isHash_pack (trits_replicate 243) List.length_replicate

/-- The trytes of a hash. -/
def trytesOf (E : Encoding) (a : List FlexTrit) : List Int8 := tritsToTrytes (decoded E 243 a)

theorem trytesOf_pack (hts : Trits ts) (hlen : ts.length = 243) :
    trytesOf E (pack E ts) = tritsToTrytes ts := by
  rw [trytesOf, decoded_pack hts hlen.ge, List.take_of_length_le hlen.le]

theorem IsHash.length_trytesOf (h : IsHash E a) : (trytesOf E a).length = 81 := by
  obtain ⟨ts, hts, hlen, rfl⟩ := h
  rw [trytesOf_pack hts hlen, length_tritsToTrytes, hlen]

theorem IsHash.mem_alphabet (h : IsHash E a) {c : Int8} (hc : c ∈ trytesOf E a) :
    c ∈ tryteAlphabet := by
  obtain ⟨ts, hts, hlen, rfl⟩ := h
  rw [trytesOf_pack hts hlen] at hc
  exact mem_tryteAlphabet hts hc

theorem countable_hash (E : Encoding) : 81 + drained E 81 < 2 ^ 31 := by
  cases E <;> decide

/-- Where there is room for it a hash is written. -/
theorem IsHash.putTrytes_eq (h : IsHash E a) (front : List Int8) (htail : 81 ≤ tail.length) :
    putTrytes E (front ++ tail) front.length a =
      some (front ++ trytesOf E a ++ tail.drop 81, 243) := by
  obtain ⟨ts, hts, hlen, rfl⟩ := h
  have hwrite : flexTritsToTrytes E tail 81 (pack E ts) 243 243 =
      some (tritsToTrytes (ts.take 243) ++ List.replicate (81 - (243 + 2) / 3) 57 ++ tail.drop 81,
        243) :=
    flexTritsToTrytes_eq (fun _ => countable_hash E) hts List.prefix_rfl hlen.ge le_rfl (by decide)
      htail
  rw [putTrytes, if_pos (by rw [List.length_append]; omega), List.drop_left, hwrite,
    List.take_left, trytesOf_pack hts hlen, List.take_of_length_le hlen.le]
  simp

/-- A hash is read as it was written. -/
theorem IsHash.readTrytes_eq (h : IsHash E a) : readTrytes E (trytesOf E a ++ rest) = some (a, 81) := by
  have hlen81 := h.length_trytesOf
  have htake : (trytesOf E a ++ rest).take 81 = trytesOf E a := List.take_left' hlen81
  have halphabet : ∀ c ∈ (trytesOf E a ++ rest).take 81, c ∈ tryteAlphabet := by
    intro c hc
    rw [htake] at hc
    exact h.mem_alphabet hc
  have hguard : ¬ ((trytesOf E a ++ rest).length < 81 ∨
      E ≠ .three ∧ ∃ c ∈ (trytesOf E a ++ rest).take 81, c ∉ tryteAlphabet) := by
    rintro (hshort | ⟨-, c, hc, hbad⟩)
    · rw [List.length_append] at hshort
      omega
    · exact hbad (halphabet c hc)
  have hd : E.numFlexTritsForTrits 243 ≤
      (List.replicate (E.numFlexTritsForTrits 243) (0 : FlexTrit)).length :=
    List.length_replicate.ge
  rw [readTrytes, if_neg hguard]
  rcases flexTritsFromTrytes_array (show 81 ≤ (trytesOf E a ++ rest).length by
      rw [List.length_append]; omega) (le_refl 81) (show 81 * 3 ≤ 243 by decide) hd halphabet with
    ⟨-, hlong, -⟩ | ⟨-, hsome⟩
  · have := countable_hash E
    omega
  · rw [hsome, htake]
    obtain ⟨ts, hts, hlen, rfl⟩ := h
    rw [trytesOf_pack hts hlen, trytesToTrits_tritsToTrytes hts, hlen,
      List.drop_of_length_le List.length_replicate.le, List.append_nil]
    have hfill := pack_fill (E := E) hts
    rw [hlen] at hfill
    rw [show 3 * ((243 + 2) / 3) - 243 = 0 from rfl, List.replicate_zero, List.append_nil, filledUp,
      hlen, hfill]

theorem readTrytes_count (h : readTrytes E mem = some (a, n)) : n = 81 := by
  unfold readTrytes at h
  split at h
  · contradiction
  · unfold flexTritsFromTrytes at h
    rw [if_neg (by decide)] at h
    obtain ⟨_, -, heq⟩ := Option.map_eq_some_iff.mp h
    exact (Prod.mk.inj heq).2.symm

/-- **Where a hash is read there are its trytes.** -/
theorem IsHash.of_readTrytes (h : IsHash E a) (hread : readTrytes E mem = some (a, n)) :
    81 ≤ mem.length ∧ ∀ c ∈ mem.take 81, c ∈ tryteAlphabet := by
  unfold readTrytes at hread
  split at hread
  · contradiction
  · next hguard =>
    rw [not_or, Nat.not_lt] at hguard
    refine ⟨hguard.1, ?_⟩
    by_contra hbad
    have hthree : E = .three := by
      by_contra hE
      exact hguard.2 ⟨hE, by simpa using hbad⟩
    subst hthree
    -- three trits to a byte: the characters are copied as they are
    have hcopy : blit (memset (List.replicate 81 (0 : FlexTrit)) 57 81) 0 (mem.take 81) = a :=
      (Prod.mk.inj (Option.some.inj hread)).1
    have hlen : (mem.take 81).length = 81 := by
      rw [List.length_take]
      omega
    rw [memset_all (List.length_replicate), blit, hlen, List.take_zero, List.nil_append,
      List.drop_of_length_le (List.length_replicate).le, List.append_nil] at hcopy
    obtain ⟨ts, hts, -, rfl⟩ := h
    refine hbad fun c hc => ?_
    rw [hcopy] at hc
    exact mem_tryteAlphabet hts hc

theorem zero_not_mem_alphabet : (0 : Int8) ∉ tryteAlphabet := by decide

/-- The trytes of a hash that is read at a key are all of the key. -/
theorem IsHash.length_key (h : IsHash E a) {r : Record Int8}
    (hread : readTrytes E (keyMemory r) = some (a, n)) : 81 ≤ r.key.length := by
  obtain ⟨hlen, halphabet⟩ := h.of_readTrytes hread
  by_contra hshort
  refine zero_not_mem_alphabet (halphabet 0 ?_)
  rw [keyMemory, List.take_append, List.mem_append]
  obtain ⟨k, hk⟩ := Nat.exists_eq_add_of_lt (Nat.not_le.mp hshort)
  rw [show 81 - r.key.length = k + 1 by omega, List.take_succ_cons]
  exact Or.inr List.mem_cons_self

/-! ## Lines -/

/-- A line of a snapshot file. -/
def line (E : Encoding) (hash : List FlexTrit) (digits : List Int8) : List Int8 :=
  trytesOf E hash ++ 59 :: (digits ++ [10])

/-- The text of lines. -/
def text (E : Encoding) (ls : List (List FlexTrit × List Int8)) : List Int8 :=
  ls.flatMap fun l => line E l.1 l.2

theorem length_line (h : IsHash E a) : (line E a digits).length = digits.length + 83 := by
  rw [line, List.length_append, h.length_trytesOf, List.length_cons, List.length_append,
    List.length_singleton]
  omega

theorem text_cons {l : List FlexTrit × List Int8} {ls : List (List FlexTrit × List Int8)} :
    text E (l :: ls) = line E l.1 l.2 ++ text E ls := List.flatMap_cons

theorem length_text_cons {l : List FlexTrit × List Int8} (ls : List (List FlexTrit × List Int8))
    (h : IsHash E l.1) : (text E (l :: ls)).length = l.2.length + 83 + (text E ls).length := by
  rw [text_cons, List.length_append, length_line h]

theorem put_append (front : List Int8) {tail cs : List Int8} (h : cs.length ≤ tail.length) :
    put (front ++ tail) front.length cs = some (front ++ cs ++ tail.drop cs.length) := by
  rw [put, if_pos (by rw [List.length_append]; omega), blit, List.take_left, List.drop_append,
    List.drop_of_length_le (by omega), List.nil_append, Nat.add_sub_cancel_left]

/-- A line is written where there is room for it and the NUL behind it. -/
theorem IsHash.putLine_eq (h : IsHash E a) {values : ℕ}
    (hvalues : front.length + (digits.length + 83) < values)
    (htail : digits.length + 83 < tail.length) :
    putLine E values a digits front.length (front ++ tail) =
      some (true, front.length + (digits.length + 83),
        front ++ line E a digits ++ 0 :: tail.drop (digits.length + 84)) := by
  have hlen := h.length_trytesOf
  have hsemicolon := put_append (front ++ trytesOf E a)
    (show [(59 : Int8)].length ≤ (tail.drop 81).length by
      rw [List.length_drop, List.length_singleton]; omega)
  have hnumber := put_append (front ++ trytesOf E a ++ [59])
    (show (digits ++ [10, 0]).length ≤ ((tail.drop 81).drop 1).length by
      simp only [List.length_drop, List.length_append, List.length_cons, List.length_nil]; omega)
  rw [List.length_append, hlen] at hsemicolon
  rw [List.length_append, List.length_append, hlen, List.length_singleton, List.drop_drop,
    List.drop_drop] at hnumber
  rw [putLine, h.putTrytes_eq front (by omega), Option.bind_some]
  dsimp only
  rw [if_neg (not_not.mpr rfl), Nat.mod_eq_of_lt (show front.length + 81 < values by omega),
    hsemicolon, Option.bind_some, Nat.mod_eq_of_lt (show front.length + 81 + 1 < values by omega),
    Nat.mod_eq_of_lt (show front.length + 81 + 1 + (digits.length + 1) < values by omega),
    List.length_singleton, List.drop_drop, hnumber, Option.map_some]
  simp only [List.length_append, List.length_cons, List.length_nil, line, List.append_assoc,
    List.cons_append, List.nil_append]
  rw [show front.length + 81 + 1 + (digits.length + 1) = front.length + (digits.length + 83) by omega,
    show 81 + 1 + (digits.length + (0 + 1 + 1)) = digits.length + 84 by omega]

/-- **Lines are written** one behind the other, where there is room for them and a NUL. -/
theorem putLines_eq {values : ℕ} {ls : List (List FlexTrit × List Int8)} (front : List Int8)
    {tail : List Int8}
    (hls : ∀ l ∈ ls, IsHash E l.1) (hvalues : front.length + (text E ls).length < values)
    (htail : (text E ls).length < tail.length) :
    ∃ tail', tail'.length + (text E ls).length = tail.length ∧
      putLines E values ls front.length (front ++ tail) =
        some (true, front.length + (text E ls).length, front ++ text E ls ++ tail') := by
  induction ls generalizing front tail with
  | nil => exact ⟨tail, rfl, by simp [putLines, text]⟩
  | cons l ls ih =>
    have hl := hls l List.mem_cons_self
    have hlen := length_text_cons ls hl
    have hfront : (front ++ line E l.1 l.2).length = front.length + (l.2.length + 83) := by
      rw [List.length_append, length_line hl]
    obtain ⟨tail', htail', hput⟩ := @ih (front ++ line E l.1 l.2)
      (0 :: tail.drop (l.2.length + 84)) (fun l' hl' => hls l' (List.mem_cons_of_mem _ hl'))
      (by omega) (by rw [List.length_cons, List.length_drop]; omega)
    rw [List.length_cons, List.length_drop] at htail'
    rw [hfront] at hput
    refine ⟨tail', by omega, ?_⟩
    rw [putLines, hl.putLine_eq (by omega) (by omega), Option.bind_some]
    dsimp only
    rw [if_pos rfl, hput, hlen, text_cons, List.append_assoc front, Nat.add_assoc front.length]

theorem put_length {str str' cs : List Int8} {offset : ℕ} (h : put str offset cs = some str') :
    offset + cs.length ≤ str.length ∧ str'.length = str.length := by
  unfold put at h
  split at h
  · next hfit =>
    refine ⟨hfit, ?_⟩
    rw [← Option.some.inj h, blit, List.length_append, List.length_append, List.length_take,
      List.length_drop]
    omega
  · contradiction

theorem IsHash.putTrytes_length (h : IsHash E a) {str str' : List Int8} {offset : ℕ}
    (hput : putTrytes E str offset a = some (str', n)) :
    n = 243 ∧ offset + 81 ≤ str.length ∧ str'.length = str.length := by
  have hfit : offset + 81 ≤ str.length := by
    by_contra hfit
    rw [putTrytes, if_neg hfit] at hput
    contradiction
  have hfront : (str.take offset).length = offset := by
    rw [List.length_take]
    omega
  have htail : 81 ≤ (str.drop offset).length := by
    rw [List.length_drop]
    omega
  have heq := h.putTrytes_eq (str.take offset) htail
  rw [List.take_append_drop, hfront, hput] at heq
  obtain ⟨rfl, rfl⟩ := Prod.mk.inj (Option.some.inj heq)
  refine ⟨rfl, hfit, ?_⟩
  rw [List.length_append, List.length_append, hfront, h.length_trytesOf, List.length_drop,
    List.length_drop]
  omega

/-- Where a line ends that is written, if the offset wraps or not. It does not in a buffer that it
can count. -/
theorem IsHash.putLine_offset (h : IsHash E a) {values offset offset' : ℕ} {str str' : List Int8}
    {converted : Bool}
    (hput : putLine E values a digits offset str = some (converted, offset', str')) :
    converted = true ∧ str'.length = str.length ∧
      offset' = (offset + (digits.length + 83)) % values ∧
      (str.length < values → offset' = offset + (digits.length + 83)) := by
  obtain ⟨⟨str₁, n⟩, htrytes, hput⟩ := Option.bind_eq_some_iff.mp hput
  obtain ⟨rfl, hfit₁, hlen₁⟩ := h.putTrytes_length htrytes
  dsimp only at hput
  rw [if_neg (not_not.mpr rfl)] at hput
  obtain ⟨str₂, hsemicolon, hput⟩ := Option.bind_eq_some_iff.mp hput
  obtain ⟨hfit₂, hlen₂⟩ := put_length hsemicolon
  obtain ⟨str₃, hnumber, heq⟩ := Option.map_eq_some_iff.mp hput
  obtain ⟨hfit₃, hlen₃⟩ := put_length hnumber
  obtain ⟨hconverted, heq⟩ := Prod.mk.inj heq
  obtain ⟨rfl, rfl⟩ := Prod.mk.inj heq
  refine ⟨hconverted.symm, by rw [hlen₃, hlen₂, hlen₁], ?_, fun hvalues => ?_⟩
  · rw [Nat.mod_add_mod, Nat.add_assoc, Nat.mod_add_mod]
    congr 1
    omega
  · rw [List.length_singleton] at hfit₂
    rw [List.length_append, List.length_cons, List.length_singleton] at hfit₃
    rw [Nat.mod_eq_of_lt (show offset + 81 < values by omega)] at hfit₂ hfit₃ ⊢
    rw [Nat.mod_eq_of_lt (show offset + 81 + 1 < values by omega)] at hfit₃ ⊢
    rw [Nat.mod_eq_of_lt (by omega)]
    omega

/-- Where the lines end that are written, if the offset wraps or not. -/
theorem putLines_offset {values offset offset' : ℕ} {ls : List (List FlexTrit × List Int8)}
    {str str' : List Int8} {converted : Bool} (hls : ∀ l ∈ ls, IsHash E l.1)
    (hput : putLines E values ls offset str = some (converted, offset', str')) :
    converted = true ∧ str'.length = str.length ∧
      (offset < values → offset' = (offset + (text E ls).length) % values) ∧
      (str.length < values → offset' = offset + (text E ls).length) := by
  induction ls generalizing offset str with
  | nil =>
    obtain ⟨rfl, heq⟩ := Prod.mk.inj (Option.some.inj hput)
    obtain ⟨rfl, rfl⟩ := Prod.mk.inj heq
    exact ⟨rfl, rfl, fun hoffset => (Nat.mod_eq_of_lt hoffset).symm, fun _ => rfl⟩
  | cons l ls ih =>
    have hl := hls l List.mem_cons_self
    obtain ⟨⟨converted₁, offset₁, str₁⟩, hline, hput⟩ := Option.bind_eq_some_iff.mp hput
    obtain ⟨rfl, hlen₁, hwraps₁, hfits₁⟩ := hl.putLine_offset hline
    dsimp only at hput
    rw [if_pos rfl] at hput
    obtain ⟨hconverted, hlen, hwraps, hfits⟩ :=
      ih (fun l' hl' => hls l' (List.mem_cons_of_mem _ hl')) hput
    refine ⟨hconverted, hlen.trans hlen₁, fun hoffset => ?_, fun hvalues => ?_⟩
    · have hlt : offset₁ < values := hwraps₁ ▸ Nat.mod_lt _ (Nat.zero_lt_of_lt hoffset)
      rw [hwraps hlt, hwraps₁, Nat.mod_add_mod, length_text_cons ls hl]
      congr 1
      omega
    · rw [hfits (hlen₁ ▸ hvalues), hfits₁ hvalues, length_text_cons ls hl]
      omega

/-! ## Cutting the text -/

theorem separators_not_mem (h : IsHash E a) : 59 ∉ trytesOf E a ∧ trytesOf E a ≠ [] := by
  refine ⟨fun hmem => ?_, fun hnil => ?_⟩
  · exact (show (59 : Int8) ∉ tryteAlphabet by decide) (h.mem_alphabet hmem)
  · have := h.length_trytesOf
    rw [hnil, List.length_nil] at this
    omega

/-- The record of a line with a number, and more text behind it. -/
def recordOf (E : Encoding) (hash : List FlexTrit) (digits rest : List Int8) : Record Int8 :=
  ⟨trytesOf E hash, some (digits ++ 10 :: rest), some digits⟩

/-- **A line is cut off the text.** -/
theorem records_line (h : IsHash E a) (rest : List Int8) (hdigits : 10 ∉ digits) (h0 : digits ≠ []) :
    records 59 10 (line E a digits ++ rest) = recordOf E a digits rest :: records 59 10 rest := by
  obtain ⟨hsemicolon, hkey⟩ := separators_not_mem h
  have hsplit : line E a digits ++ rest = trytesOf E a ++ 59 :: (digits ++ 10 :: rest) := by
    simp [line]
  rw [hsplit, Tokens.records_line rest hsemicolon hdigits hkey h0]
  rfl

/-- What is read at the record of a line. -/
theorem readTrytes_recordOf (h : IsHash E a) :
    readTrytes E (keyMemory (recordOf E a digits rest)) = some (a, 81) := h.readTrytes_eq

/-- Digits are no line end and no NUL. -/
theorem decimal_not_mem (n : ℕ) : 10 ∉ decimal n ∧ 0 ∉ decimal n := by
  constructor
  · intro hmem
    exact absurd (isDigit_of_mem hmem) (by decide)
  · intro hmem
    exact absurd (isDigit_of_mem hmem) (by decide)

/-- A string ends at its first NUL. -/
theorem stringOf_append (h : 0 ∉ front) : stringOf (front ++ 0 :: tail) = front :=
  (span_of_boundary (p := (· != 0)) front (0 :: tail) (fun c hc => bne_iff_ne.mpr fun h0 : c = 0 => h (h0 ▸ hc))
    (by simp)).1

/-- A string is not longer than where a NUL is put. -/
theorem length_stringOf_put {str str' : List Int8} {offset : ℕ}
    (h : put str offset [0] = some str') : (stringOf str').length ≤ offset := by
  have hfit := (put_length h).1
  rw [put, if_pos hfit] at h
  rw [List.length_singleton] at hfit
  rw [← Option.some.inj h, blit, stringOf, List.append_assoc, List.takeWhile_append]
  split
  · rw [List.cons_append, List.takeWhile_cons_of_neg (by simp), List.append_nil, List.length_take]
    omega
  · exact (List.takeWhile_prefix _).length_le.trans (List.length_take_le _ _)

theorem zero_not_mem_text {ls : List (List FlexTrit × List Int8)} (hls : ∀ l ∈ ls, IsHash E l.1)
    (hdigits : ∀ l ∈ ls, 0 ∉ l.2) : 0 ∉ text E ls := by
  intro hmem
  obtain ⟨l, hl, hmem⟩ := List.mem_flatMap.mp hmem
  rcases List.mem_append.mp hmem with htryte | hrest
  · exact zero_not_mem_alphabet ((hls l hl).mem_alphabet htryte)
  · simp only [List.mem_cons, List.mem_append, List.not_mem_nil, or_false] at hrest
    rcases hrest with h | h | h
    · exact absurd h (by decide)
    · exact hdigits l hl h
    · exact absurd h (by decide)

end Snapshot

end Entangled
