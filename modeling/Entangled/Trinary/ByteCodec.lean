import Entangled.Common.Blocks
import Entangled.Trinary.Regroup
/-!
# The byte codec

When `flex_trits_to_bytes` gives the bytes of the trits, and `flex_trits_from_bytes` the trits of
these bytes: always with one or five trits to a byte; with three or four, when the last flex trit
starts no earlier than the last byte, or nothing but zeros is in that byte (`byteCodec_iff`).
-/

namespace Entangled

namespace Trinary

open Ternary

variable {E : Encoding} {ts : List ℤ} {src dst : List FlexTrit} {bytes : List Int8} {n toLen : ℕ}

/-- The bytes written are those of the trits, and read back they are the trits again. -/
def ByteCodec (E : Encoding) (ts : List ℤ) : Prop :=
  ∀ (flexTrits dst : List FlexTrit) (bytes : List Int8) (len toLen : ℕ),
    pack E ts <+: flexTrits → ts.length ≤ len → ts.length ≤ toLen →
    bytes.length = minBytes toLen → dst.length = E.numFlexTritsForTrits len →
    ∃ bytes' dst', flexTritsToBytes E bytes toLen flexTrits len ts.length =
        some (bytes', ts.length) ∧
      bytes' = tritsToBytes ts ++ List.replicate (minBytes toLen - minBytes ts.length) 0 ∧
      flexTritsFromBytes E dst len bytes' toLen ts.length = some (dst', ts.length) ∧
      pack E ts <+: dst'

/-- The flex trits that pass through the buffer are counted with an `int`. -/
def Countable (E : Encoding) (n : ℕ) : Prop := E.Buffered → E.numFlexTritsForTrits n < 2 ^ 31

/-- The last byte starts no later than the last flex trit, or holds nothing. -/
def Drained (E : Encoding) (ts : List ℤ) : Prop :=
  5 * ((ts.length - 1) / 5) ≤
      E.numTritsPerFlexTrit * ((ts.length - 1) / E.numTritsPerFlexTrit) ∨
    ∀ t ∈ ts.drop (5 * ((ts.length - 1) / 5)), t = 0

instance (E : Encoding) (ts : List ℤ) : Decidable (Drained E ts) :=
  inferInstanceAs (Decidable (_ ∨ _))

/-! ## Five trits to a byte, and one -/

theorem tritsToBytes_eq_pack (ts : List ℤ) : tritsToBytes ts = pack .five ts := rfl

theorem minBytes_eq_cells (n : ℕ) : minBytes n = (packing .five).cells n := rfl

theorem prefix_blit {α : Type} {l src : List α} : src <+: blit l 0 src := by
  rw [blit, List.take_zero, List.nil_append]
  exact List.prefix_append _ _

theorem blit_set {α : Type} {l src : List α} {a : α} (hl : src.length = n) :
    blit (l.set n a) 0 src = (blit l 0 src).set n a := by
  rw [blit, blit, List.take_zero, List.take_zero, List.nil_append, Nat.zero_add, hl,
    List.set_append_right _ _ hl.le, hl, Nat.sub_self, List.drop_set, if_neg (Nat.lt_irrefl n),
    Nat.sub_self]

/-- The bytes are copied; the last one is spelled again, with the trits it holds. -/
theorem copyBytes_pack (dst : List Int8) (hts : Trits ts) (hsrc : pack .five ts <+: src)
    (hroom : minBytes ts.length ≤ dst.length) :
    copyBytes dst src ts.length = blit dst 0 (pack .five ts) := by
  have hlength : (pack .five ts).length = minBytes ts.length := length_pack .five ts
  have htake := take_of_start hsrc
  rw [hlength] at htake
  simp only [copyBytes]
  split_ifs with hres
  · have hcells : minBytes ts.length = ts.length / 5 + 1 := by
      rw [minBytes]
      omega
    have hlt : 5 * (ts.length / 5) < ts.length := by omega
    have hcell : ts.length / 5 < (pack .five ts).length := by omega
    have hchunk : ((packing .five).chunk ts (ts.length / 5)).length = ts.length % 5 := by
      rw [Packing.length_chunk]
      show min 5 (ts.length - 5 * _) = _
      omega
    have hlast := getD_pack (E := .five) hlt
    have hsame : (pack .five ts)[ts.length / 5] =
        tritsToByte ((packing .five).chunk ts (ts.length / 5)) := by
      rwa [List.getD_eq_getElem?_getD, List.getElem?_eq_getElem hcell, Option.getD_some] at hlast
    have hcopied : src.take (ts.length / 5) = (pack .five ts).take (ts.length / 5) := by
      rw [← htake, List.take_take, Nat.min_eq_left (by omega)]
    have hfront : (src.take (ts.length / 5)).length = ts.length / 5 := by
      rw [hcopied, List.length_take]
      omega
    rw [hcells, Nat.add_sub_cancel, getD_of_start hsrc hcell, hlast, ← unpackByte_five,
      unpackByte_packByte (trits_chunk hts _) (packing .five).length_chunk_le,
      List.take_append_of_le_length hchunk.ge, List.take_of_length_le hchunk.le, ← hsame,
      blit_set hfront, set_blit_length hfront (by omega), hcopied, List.take_append_getElem,
      List.take_of_length_le (by omega)]
  · rw [htake]

/-! ## What is left in the buffer -/

theorem tritsToByte_eq_zero {c : List ℤ} (hc : Trits c) (hl : c.length ≤ 5) :
    tritsToByte c = 0 ↔ ∀ t ∈ c, t = 0 := by
  constructor
  · intro hzero
    have hread := byteToTrits_tritsToByte hc hl
    rw [hzero, show byteToTrits 0 5 = List.replicate 5 0 by decide] at hread
    intro t ht
    exact List.eq_of_mem_replicate (show t ∈ List.replicate 5 (0 : ℤ) by
      rw [hread]
      exact List.mem_append_left _ ht)
  · intro hall
    rw [List.eq_replicate_of_mem hall, tritsToByte_eq, value_replicate_zero]
    rfl

/-- The bytes written are those of the trits exactly when nothing is left behind. -/
theorem filled_iff (hE : E.Buffered) (hts : Trits ts) (hlen : ts.length ≤ toLen) :
    blit (List.replicate (minBytes toLen) 0) 0 ((tritsToBytes ts).take (filled E ts.length)) =
      tritsToBytes ts ++ List.replicate (minBytes toLen - minBytes ts.length) 0 ↔
      Drained E ts := by
  have hw := Buffered.width hE
  have hlength := length_tritsToBytes ts
  have hle : minBytes ts.length ≤ minBytes toLen := by
    rw [minBytes, minBytes]
    omega
  have hdiv := Nat.div_add_mod (ts.length - 1) E.numTritsPerFlexTrit
  have hmod := Nat.mod_lt (ts.length - 1) (show 0 < E.numTritsPerFlexTrit by omega)
  have hblit : blit (List.replicate (minBytes toLen) 0) 0
      ((tritsToBytes ts).take (filled E ts.length)) =
        (tritsToBytes ts).take (filled E ts.length) ++
          List.replicate (minBytes toLen - min (filled E ts.length) (minBytes ts.length)) 0 := by
    rw [blit, List.take_zero, List.nil_append, Nat.zero_add, List.drop_replicate, List.length_take,
      hlength]
  rw [hblit]
  by_cases hfull : 5 * ((ts.length - 1) / 5) ≤
      E.numTritsPerFlexTrit * ((ts.length - 1) / E.numTritsPerFlexTrit)
  · have hall : minBytes ts.length ≤ filled E ts.length := by
      rw [minBytes, filled]
      omega
    rw [List.take_of_length_le (by omega), Nat.min_eq_right hall]
    exact ⟨fun _ => Or.inl hfull, fun _ => rfl⟩
  · have hfilled : filled E ts.length = (ts.length - 1) / 5 := by
      rw [filled]
      omega
    have hcells : minBytes ts.length = (ts.length - 1) / 5 + 1 := by
      rw [minBytes]
      omega
    have hlt : (ts.length - 1) / 5 < (tritsToBytes ts).length := by omega
    have hlast : (tritsToBytes ts)[(ts.length - 1) / 5] =
        tritsToByte (ts.drop (5 * ((ts.length - 1) / 5))) := by
      rw [List.getElem_of_eq (show tritsToBytes ts = List.map _ _ from rfl), List.getElem_map,
        List.getElem_range, List.take_of_length_le (by rw [List.length_drop]; omega)]
    have hsplit : tritsToBytes ts = (tritsToBytes ts).take ((ts.length - 1) / 5) ++
        [tritsToByte (ts.drop (5 * ((ts.length - 1) / 5)))] := by
      rw [← hlast, List.take_append_getElem, List.take_of_length_le (by omega)]
    have hzero := tritsToByte_eq_zero (hts.drop (5 * ((ts.length - 1) / 5)))
      (by rw [List.length_drop]; omega)
    rw [hfilled, Nat.min_eq_left (by omega), show minBytes toLen - (ts.length - 1) / 5 =
      minBytes toLen - minBytes ts.length + 1 by omega, List.replicate_succ]
    conv_lhs => rw [hsplit, List.take_append_of_le_length (by rw [List.length_take]; omega),
      List.take_take, Nat.min_self, List.append_assoc, List.append_cancel_left_eq,
      List.singleton_append, List.cons.injEq]
    rw [Drained, ← hzero]
    constructor
    · exact fun heq => Or.inr heq.1.symm
    · rintro (hle | heq)
      · exact absurd hle hfull
      · exact ⟨heq.symm, rfl⟩

/-! ## The two directions together -/

theorem memset_all {α : Type} {l : List α} {v : α} (h : l.length = n) :
    memset l v n = List.replicate n v := by
  rw [memset, blit_full (by rw [List.length_replicate, h])]

/-- The head of the first round of the writer. -/
theorem writing_start (out : List Int8) (h0 : ts.length ≠ 0) (hE : E.Buffered) :
    Writing E ts out 0 ⟨List.replicate 8 0, 0, ts.length, 0⟩ out := by
  have hw := Buffered.width hE
  refine ⟨⟨rfl, by simp, by simp, rfl⟩, ?_, ?_, Nat.two_pow_pos 31, by simp⟩
  · show E.numTritsPerFlexTrit * 0 < ts.length
    omega
  · show 0 < E.numTritsPerFlexTrit
    omega

/-- What `flex_trits_to_bytes` returns where the trits pass through the buffer. -/
theorem flexTritsToBytes_spec (hE : E.Buffered) (hts : Trits ts) (hsrc : pack E ts <+: src)
    {len : ℕ} (hlen : ts.length ≤ len) (hto : ts.length ≤ toLen)
    (hbytes : bytes.length = minBytes toLen) :
    (flexTritsToBytes E bytes toLen src len ts.length = none ∧ ¬ Countable E ts.length) ∨
      (flexTritsToBytes E bytes toLen src len ts.length =
          some (blit (List.replicate (minBytes toLen) 0) 0
            ((tritsToBytes ts).take (filled E ts.length)), ts.length) ∧
        Countable E ts.length) := by
  have hloop : flexTritsToBytes E bytes toLen src len ts.length =
      (toBytesLoop E src ts.length 0 ⟨List.replicate 8 0, 0, ts.length, 0⟩
        (List.replicate (minBytes toLen) 0)).map fun bytes => (bytes, ts.length) := by
    simp only [flexTritsToBytes]
    rw [if_neg (by omega), memset_all hbytes]
    rcases hE with rfl | rfl <;> rfl
  have hout : minBytes ts.length ≤ (List.replicate (minBytes toLen) (0 : Int8)).length := by
    rw [List.length_replicate, minBytes, minBytes]
    omega
  have hstart : Writing E ts (List.replicate (minBytes toLen) 0) 0
      ⟨List.replicate 8 0, 0, ts.length, 0⟩ (List.replicate (minBytes toLen) 0) ∨
      Written E ts (List.replicate (minBytes toLen) 0) ⟨List.replicate 8 0, 0, ts.length, 0⟩
        (List.replicate (minBytes toLen) 0) := by
    by_cases h0 : ts.length = 0
    · obtain rfl := List.length_eq_zero_iff.mp h0
      exact Or.inr ⟨rfl, by rcases hE with rfl | rfl <;> decide, by simp [tritsToBytes]⟩
    · exact Or.inl (writing_start _ h0 hE)
  rw [hloop]
  rcases toBytesLoop_spec hE hts hsrc hout le_rfl hstart with ⟨hnone, hlong⟩ | ⟨hsome, hcount⟩
  · exact Or.inl ⟨by rw [hnone]; rfl, fun hcount => absurd (hcount hE) (by omega)⟩
  · exact Or.inr ⟨by rw [hsome]; rfl, fun _ => hcount⟩

/-! ## What any bytes spell -/

/-- All trits of all bytes. -/
def rows (bytes : List Int8) : List ℤ := bytes.flatMap fun b => byteToTrits b 5

theorem drop_rows (bytes : List Int8) (k : ℕ) : (rows bytes).drop (5 * k) = rows (bytes.drop k) :=
  drop_flatMap_blocks (fun b => length_byteToTrits b le_rfl) bytes k

theorem length_rows (bytes : List Int8) : (rows bytes).length = 5 * bytes.length :=
  length_flatMap_blocks (fun b => length_byteToTrits b le_rfl) bytes

theorem bytesToTrits_eq_rows (bytes : List Int8) (n : ℕ) :
    bytesToTrits bytes n = (rows bytes).take n := by
  have hrange : ∀ m ≤ bytes.length, ((List.range m).flatMap fun j =>
      byteToTrits (bytes.getD j 0) (min (n - 5 * j) 5)) = (rows (bytes.take m)).take n := by
    intro m hm
    induction m with
    | zero => simp [rows]
    | succ m ih =>
      have hlast : bytes.take (m + 1) = bytes.take m ++ [bytes.getD m 0] := by
        rw [List.getD_eq_getElem?_getD, List.getElem?_eq_getElem (by omega), Option.getD_some,
          List.take_append_getElem]
      have hlen := length_rows (bytes.take m)
      rw [List.length_take, Nat.min_eq_left (by omega)] at hlen
      rw [List.range_succ, List.flatMap_append, ih (by omega), List.flatMap_singleton, hlast,
        byteToTrits_take _ (Nat.min_le_right _ _), rows, rows, List.flatMap_append,
        List.flatMap_singleton, List.take_append]
      rw [rows] at hlen
      rw [hlen, ← byteToTrits_take _ (Nat.min_le_right _ _)]
      congr 1
      rcases Nat.lt_or_ge (n - 5 * m) 5 with hshort | hlong
      · rw [Nat.min_eq_left hshort.le, byteToTrits_take _ hshort.le]
      · rw [Nat.min_eq_right hlong, List.take_of_length_le (by
          rw [length_byteToTrits _ le_rfl]; exact hlong)]
  have hall := hrange bytes.length le_rfl
  rwa [List.take_length] at hall

theorem length_bytesToTrits (hroom : n ≤ 5 * bytes.length) :
    (bytesToTrits bytes n).length = n := by
  rw [bytesToTrits_eq_rows, List.length_take, length_rows, Nat.min_eq_left hroom]

theorem trits_bytesToTrits (bytes : List Int8) (n : ℕ) : Trits (bytesToTrits bytes n) := by
  rw [bytesToTrits_eq_rows]
  refine Trits.take (fun t ht => ?_) n
  obtain ⟨b, -, hb⟩ := List.mem_flatMap.mp ht
  exact (trits_digits 5 _).take 5 t hb

/-- Any bytes spell what they are unpacked to. -/
theorem decodes_bytesToTrits {l : List Int8} (hroom : n ≤ 5 * bytes.length) (hl : bytes <+: l) :
    Decodes l (bytesToTrits bytes n) := by
  intro k hk
  rw [length_bytesToTrits hroom] at hk ⊢
  have hlt : k < bytes.length := by omega
  have hhead : rows (bytes.drop k) = byteToTrits (bytes.getD k 0) 5 ++
      rows (bytes.drop (k + 1)) := by
    rw [List.drop_eq_getElem_cons hlt, rows, List.flatMap_cons, List.getD_eq_getElem?_getD,
      List.getElem?_eq_getElem hlt]
    rfl
  have hlen := length_byteToTrits (bytes.getD k 0) le_rfl
  rw [getD_of_start hl hlt, bytesToTrits_eq_rows, List.drop_take, drop_rows, hhead, List.take_take]
  rcases Nat.lt_or_ge (n - 5 * k) 5 with hshort | hlong
  · rw [Nat.min_eq_right hshort.le, List.take_append_of_le_length (by omega)]
  · rw [Nat.min_eq_left hlong, List.take_append_of_le_length hlen.ge,
      List.take_of_length_le (by omega), List.take_of_length_le hlen.le]

/-- The trits bytes spell are those they are unpacked to. -/
theorem bytesToTrits_of_decodes (hbytes : Decodes bytes ts)
    (hroom : minBytes ts.length ≤ bytes.length) :
    bytesToTrits (bytes.take (minBytes ts.length)) ts.length = ts := by
  refine Eq.trans ?_ ((packing .five).flatMap_chunk (l := ts))
  rw [bytesToTrits, List.length_take, Nat.min_eq_left hroom, minBytes_eq_cells]
  refine List.flatMap_congr fun k hk => ?_
  rw [List.mem_range] at hk
  have hlt : 5 * k < ts.length := (packing .five).lt_cells.mp hk
  have hspelled := hbytes k hlt
  rw [List.getD_eq_getElem?_getD, List.getElem?_take_of_lt hk, ← List.getD_eq_getElem?_getD,
    byteToTrits_take _ (Nat.min_le_right _ _)]
  rcases Nat.lt_or_ge (ts.length - 5 * k) 5 with hshort | hlong
  · rw [Nat.min_eq_left hshort.le, hspelled]
    rfl
  · have hfive := congrArg (List.take 5) hspelled
    rw [List.take_take, List.take_take, Nat.min_eq_left hlong, Nat.min_self] at hfive
    rw [Nat.min_eq_right hlong, hfive]
    rfl

/-- Bytes that spell trits give the trits, but for bytes that are copied as they are. -/
theorem flexTritsFromBytes_decodes (hE : E ≠ .five) (hcount : Countable E ts.length)
    (hbytes : Decodes bytes ts) (hsize : minBytes ts.length ≤ bytes.length) {len : ℕ}
    (hlen : ts.length ≤ len) (hto : ts.length ≤ toLen)
    (hdst : dst.length = E.numFlexTritsForTrits len) :
    ∃ dst', flexTritsFromBytes E dst len bytes toLen ts.length = some (dst', ts.length) ∧
      dst'.length = E.numFlexTritsForTrits len ∧ pack E ts <+: dst' := by
  have hroom := numFlexTritsForTrits_mono (E := E) hlen
  have hbuffered : E.Buffered → ∃ dst', fromBytesLoop E bytes ts.length 0
      ⟨List.replicate 8 0, 0, ts.length, 0⟩
      (List.replicate (E.numFlexTritsForTrits len) E.nullValue) = some dst' ∧
        dst'.length = E.numFlexTritsForTrits len ∧ pack E ts <+: dst' := fun hE => by
    refine fromBytesLoop_spec hE hbytes (hcount hE) hroom le_rfl ?_
    by_cases h0 : ts.length = 0
    · obtain rfl := List.length_eq_zero_iff.mp h0
      exact Or.inr ⟨rfl, List.length_replicate,
        by simp [pack, Packing.pack, Packing.cells, Nat.div_eq_of_lt, width_pos]⟩
    · exact Or.inl ⟨⟨rfl, by simp, by simp, fun _ => rfl, by simp⟩, by simp; omega,
        List.length_replicate, by simp⟩
  simp only [flexTritsFromBytes]
  rw [if_neg (by omega), memset_all hdst]
  cases E with
  | one =>
    refine ⟨_, rfl, ?_⟩
    rw [bytesToTrits_of_decodes hbytes hsize, ← pack_one]
    refine ⟨?_, prefix_blit⟩
    rw [length_blit, List.length_replicate]
    rw [length_pack, List.length_replicate]
    omega
  | five => exact absurd rfl hE
  | three =>
    obtain ⟨dst', hloop, hread⟩ := hbuffered (Or.inl rfl)
    exact ⟨dst', by simp only [hloop]; rfl, hread⟩
  | four =>
    obtain ⟨dst', hloop, hread⟩ := hbuffered (Or.inr rfl)
    exact ⟨dst', by simp only [hloop]; rfl, hread⟩

/-- **`flex_trits_from_bytes` inverts**: from the bytes of the trits it gives the trits. -/
theorem flexTritsFromBytes_spec (hts : Trits ts) (hcount : Countable E ts.length)
    (hbytes : tritsToBytes ts <+: bytes) {len : ℕ} (hlen : ts.length ≤ len)
    (hto : ts.length ≤ toLen) (hdst : dst.length = E.numFlexTritsForTrits len) :
    ∃ dst', flexTritsFromBytes E dst len bytes toLen ts.length = some (dst', ts.length) ∧
      dst'.length = E.numFlexTritsForTrits len ∧ pack E ts <+: dst' := by
  by_cases hE : E = .five
  · subst hE
    have hroom := numFlexTritsForTrits_mono (E := .five) hlen
    simp only [flexTritsFromBytes]
    rw [if_neg (by omega), memset_all hdst]
    refine ⟨_, rfl, ?_⟩
    rw [copyBytes_pack _ hts hbytes (by rw [List.length_replicate]; exact hroom)]
    refine ⟨?_, prefix_blit⟩
    rw [length_blit, List.length_replicate]
    rw [length_pack, List.length_replicate]
    omega
  · refine flexTritsFromBytes_decodes hE hcount (decodes_tritsToBytes hts hbytes) ?_ hlen hto hdst
    rw [← length_tritsToBytes]
    exact hbytes.length_le

theorem blit_zeros (n : ℕ) (l : List Int8) :
    blit (List.replicate n 0) 0 l = l ++ List.replicate (n - l.length) 0 := by
  rw [blit, List.take_zero, List.nil_append, Nat.zero_add, List.drop_replicate]

/-- With one or five trits to a byte the bytes are always those of the trits. -/
theorem flexTritsToBytes_unbuffered (hE : ¬ E.Buffered) (hts : Trits ts)
    (hsrc : pack E ts <+: src) {len : ℕ} (hlen : ts.length ≤ len) (hto : ts.length ≤ toLen)
    (hbytes : bytes.length = minBytes toLen) :
    flexTritsToBytes E bytes toLen src len ts.length =
      some (tritsToBytes ts ++ List.replicate (minBytes toLen - minBytes ts.length) 0,
        ts.length) := by
  have hle : (tritsToBytes ts).length ≤ minBytes toLen := by
    rw [length_tritsToBytes, minBytes, minBytes]
    omega
  simp only [flexTritsToBytes]
  rw [if_neg (by omega), memset_all hbytes]
  cases E with
  | one =>
    have htake := take_of_start hsrc
    rw [length_pack] at htake
    have htrits : (src.take ts.length).map Int8.toInt = ts := by
      rw [show ts.length = Encoding.one.numFlexTritsForTrits ts.length from rfl, htake,
        map_toInt_pack hts]
    simp only [htrits, blit_zeros, length_tritsToBytes]
    rfl
  | five =>
    simp only [copyBytes_pack (List.replicate (minBytes toLen) 0) hts hsrc
      (by rw [List.length_replicate, ← length_tritsToBytes]; exact hle), ← tritsToBytes_eq_pack,
      blit_zeros, length_tritsToBytes]
    rfl
  | three => exact absurd (Or.inl rfl) hE
  | four => exact absurd (Or.inr rfl) hE

/-- One or five trits to a byte leave nothing behind. -/
theorem drained_of_not_buffered (hE : ¬ E.Buffered) (ts : List ℤ) : Drained E ts := by
  left
  cases E with
  | one =>
    show 5 * _ ≤ 1 * ((ts.length - 1) / 1)
    omega
  | five => exact le_rfl
  | three => exact absurd (Or.inl rfl) hE
  | four => exact absurd (Or.inr rfl) hE

/-- **What `flex_trits_to_bytes` writes** when nothing is left behind. -/
theorem flexTritsToBytes_eq (hts : Trits ts) (hcount : Countable E ts.length)
    (hdrained : Drained E ts) (hsrc : pack E ts <+: src) {len : ℕ} (hlen : ts.length ≤ len)
    (hto : ts.length ≤ toLen) (hbytes : bytes.length = minBytes toLen) :
    flexTritsToBytes E bytes toLen src len ts.length =
      some (tritsToBytes ts ++ List.replicate (minBytes toLen - minBytes ts.length) 0,
        ts.length) := by
  by_cases hE : E.Buffered
  · rcases flexTritsToBytes_spec hE hts hsrc hlen hto hbytes with ⟨-, hlong⟩ | ⟨hsome, -⟩
    · exact absurd hcount hlong
    · rw [hsome, (filled_iff hE hts hto).mpr hdrained]
  · exact flexTritsToBytes_unbuffered hE hts hsrc hlen hto hbytes

/-- What the codec needs. -/
theorem ByteCodec.drained (H : ByteCodec E ts) (hts : Trits ts) :
    Countable E ts.length ∧ Drained E ts := by
  by_cases hE : E.Buffered
  · obtain ⟨bytes', dst', hwrite, heq, -⟩ := H (pack E ts) (pack E ts)
      (List.replicate (minBytes ts.length) 0) ts.length ts.length (List.prefix_refl _) le_rfl le_rfl
      List.length_replicate (length_pack E ts)
    rcases flexTritsToBytes_spec hE hts (List.prefix_refl _) le_rfl le_rfl
      (List.length_replicate (a := (0 : Int8))) with ⟨hnone, -⟩ | ⟨hsome, hcount⟩
    · rw [hnone] at hwrite
      exact absurd hwrite (by simp)
    · rw [hsome] at hwrite
      have hbytes := congrArg Prod.fst (Option.some.inj hwrite)
      exact ⟨hcount, (filled_iff hE hts le_rfl).mp (hbytes.trans heq)⟩
  · exact ⟨fun h => absurd h hE, drained_of_not_buffered hE ts⟩

/-- **The byte codec** gives the bytes of the trits and the trits of these bytes exactly when the
last byte starts no later than the last flex trit or holds nothing. -/
theorem byteCodec_iff (hts : Trits ts) :
    ByteCodec E ts ↔ Countable E ts.length ∧ Drained E ts := by
  refine ⟨fun H => H.drained hts, ?_⟩
  rintro ⟨hcount, hdrained⟩ flexTrits dst bytes len toLen hsrc hlen hto hbytes hdst
  have hwrite := flexTritsToBytes_eq hts hcount hdrained hsrc hlen hto hbytes
  obtain ⟨dst', hread, -, hprefix⟩ := flexTritsFromBytes_spec hts hcount
    (List.prefix_append (tritsToBytes ts)
      (List.replicate (minBytes toLen - minBytes ts.length) 0)) hlen hto hdst
  exact ⟨_, dst', hwrite, rfl, hread, hprefix⟩

theorem byteCodec_iff_tryte :
    ByteCodec .three [1, -1, 0] ↔ Countable .three 3 ∧ Drained .three [1, -1, 0] :=
  byteCodec_iff (by decide)

/-- Of six trits in two trytes the last is not written. -/
theorem not_byteCodec_two_trytes : ¬ ByteCodec .three [0, 0, 0, 0, 0, 1] := by
  intro H
  have hdrained := (H.drained (by decide)).2
  revert hdrained
  decide

end Trinary

end Entangled
