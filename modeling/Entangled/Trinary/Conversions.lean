import Entangled.Trinary.ByteCodec
import Entangled.Trinary.Splice
import Entangled.Trinary.Trytes
/-!
# Conversions to trits and trytes

What `flex_trits_to_trits`, `flex_trits_from_trits`, `flex_trits_to_trytes` and
`flex_trits_from_trytes` leave in their buffers, for an array of any length. With three trits to a
byte `flex_trits_to_trits` unpacks whole bytes and so writes behind the trits asked for, unless
their number is a multiple of three; and the two loops over trytes count with an `int`. Otherwise
the four functions do what the plain conversions do, in every encoding (`conversions_iff`).
-/

namespace Entangled

namespace Trinary

open Ternary

variable {E : Encoding} {ts us : List ℤ} {src dst : List FlexTrit} {trytes : List Int8}
variable {len toLen m n : ℕ}

/-! ## Buffers -/

/-- Writing over the head of a cleared buffer. -/
theorem blit_cleared {α : Type} {l new : List α} {v : α} (hnew : new.length ≤ n) :
    blit (memset l v n) 0 new = new ++ List.replicate (n - new.length) v ++ l.drop n := by
  rw [blit, memset, blit, List.take_zero, List.take_zero, List.nil_append, List.nil_append,
    Nat.zero_add, Nat.zero_add, List.length_replicate,
    List.drop_append_of_le_length (by rw [List.length_replicate]; exact hnew),
    List.drop_replicate, List.append_assoc]

/-- `dst` with the trits written to the array at its head, the rest of which is null. -/
structure Filled (E : Encoding) (len : ℕ) (ts : List ℤ) (dst res : List FlexTrit) : Prop where
  trits : decoded E len res = ts ++ List.replicate (len - ts.length) 0
  rest : NullRest E len res
  behind : res.drop (E.numFlexTritsForTrits len) = dst.drop (E.numFlexTritsForTrits len)

/-- The trits of an array and nulls up to the end of its last byte. -/
def filledUp (E : Encoding) (len : ℕ) (ts : List ℤ) : List ℤ :=
  ts ++ List.replicate (room E len - ts.length) 0

theorem length_filledUp (h : ts.length ≤ len) : (filledUp E len ts).length = room E len := by
  have := le_room E len
  rw [filledUp, List.length_append, List.length_replicate]
  omega

theorem trits_filledUp (hts : Trits ts) : Trits (filledUp E len ts) :=
  trits_append.mpr ⟨hts, trits_replicate _⟩

/-- What packing over a cleared array leaves. -/
theorem blit_cleared_pack (hts : Trits ts) (h : ts.length ≤ len) :
    blit (memset dst E.nullValue (E.numFlexTritsForTrits len)) 0 (pack E ts) =
      pack E (filledUp E len ts) ++ dst.drop (E.numFlexTritsForTrits len) := by
  have hlen : (pack E ts).length ≤ E.numFlexTritsForTrits len := by
    rw [length_pack]
    exact numFlexTritsForTrits_mono h
  have hnull := blit_null_pack (E := E) hts h
  rw [← replicate_null, numFlexTritsForTrits_room, blit, List.take_zero, List.nil_append,
    Nat.zero_add, List.drop_replicate] at hnull
  rw [blit_cleared hlen, hnull, filledUp]

theorem filled_pack (dst : List FlexTrit) (hts : Trits ts) (h : ts.length ≤ len) :
    Filled E len ts dst
      (pack E (filledUp E len ts) ++ dst.drop (E.numFlexTritsForTrits len)) := by
  have hroom := le_room E len
  have hlen := length_filledUp (E := E) h
  have hstart : pack E (filledUp E len ts) <+:
      pack E (filledUp E len ts) ++ dst.drop (E.numFlexTritsForTrits len) :=
    List.prefix_append _ _
  refine ⟨?_, ?_, ?_⟩
  · rw [decoded_start (trits_filledUp hts) hstart (by omega), filledUp, List.take_append,
      List.take_of_length_le h, List.take_replicate]
    congr 2
    omega
  · intro i hi hir
    rw [flexTritsAt_pack (trits_filledUp hts) hstart (by omega) hir, filledUp,
      List.getD_eq_getElem?_getD, List.getElem?_append_right (by omega),
      List.getElem?_replicate_of_lt (by omega), Option.getD_some]
  · rw [List.drop_left']
    rw [length_pack, hlen, numFlexTritsForTrits_room]

/-! ## Trits -/

/-- An array spells as many of its trits as are asked for. -/
theorem spells_pack (hus : Trits us) (hsrc : pack E us <+: src) (hn : n ≤ us.length) :
    Spells E src (us.take n) := by
  intro c hc
  have htake : (us.take n).length = n := by
    rw [List.length_take]
    omega
  rw [htake] at hc ⊢
  have hcell : c < (pack E us).length := by
    rw [length_pack, numFlexTritsForTrits_eq, Packing.lt_cells]
    exact hc.trans_le hn
  have hchunk := (packing E).length_chunk (l := us) (j := c)
  rw [packing_width] at hchunk
  refine ⟨hcell.trans_le hsrc.length_le, ?_⟩
  rw [getD_of_start hsrc hcell, getD_pack (hc.trans_le hn),
    unpackByte_packByte (trits_chunk hus c) (packing E).length_chunk_le, List.drop_take,
    List.take_take]
  rcases Nat.lt_or_ge ((packing E).chunk us c).length (n - E.numTritsPerFlexTrit * c) with h | h
  · -- the byte holds a full flex trit, all of which are asked for
    have hfull : ((packing E).chunk us c).length = E.numTritsPerFlexTrit := by omega
    rw [hfull, Nat.sub_self, List.replicate_zero, List.append_nil, List.take_of_length_le h.le,
      Packing.chunk, packing_width, Nat.min_eq_left (by omega)]
  · rw [List.take_append_of_le_length h, Packing.chunk, packing_width, List.take_take,
      Nat.min_comm]

theorem decodes_of_spells (h : Spells .five src ts) : Decodes src ts := by
  intro k hk
  have hspelled := (h k hk).2
  rwa [unpackByte_five] at hspelled

theorem take_pack_one (hus : Trits us) (hsrc : pack .one us <+: src) (hn : n ≤ us.length) :
    (src.take n).map Int8.toInt = us.take n := by
  obtain ⟨rest, rfl⟩ := hsrc
  have hlen : (pack .one us).length = us.length := length_pack .one us
  rw [List.take_append_of_le_length (by omega), List.map_take, map_toInt_pack hus]

/-- The whole flex trits at the head of an array. -/
theorem take_pack_whole (hsrc : pack E us <+: src) (hn : E.numTritsPerFlexTrit * m ≤ us.length) :
    src.take m = pack E (us.take (E.numTritsPerFlexTrit * m)) := by
  have hlen : m ≤ (pack E us).length := by
    rw [length_pack, numFlexTritsForTrits_eq]
    exact (packing E).le_cells hn
  have haligned := (packing E).pack_take_drop_aligned (l := us) (s := 0)
    (n := E.numTritsPerFlexTrit * m) (by rw [Nat.mul_zero, Nat.zero_add]; exact hn)
  rw [Nat.mul_zero, List.drop_zero, List.drop_zero, packing_width, Nat.mul_mod_right, if_pos rfl,
    List.append_nil, Nat.mul_div_cancel_left _ (width_pos E)] at haligned
  obtain ⟨rest, rfl⟩ := hsrc
  rw [List.take_append_of_le_length hlen, pack, pack, haligned]

/-- **Unpacking** the first trits of an array. -/
theorem flexTritsToTrits_array (trits : List ℤ) (hus : Trits us) (hsrc : pack E us <+: src)
    (hn : n ≤ us.length) (hlen : n ≤ len) (hto : n ≤ toLen) (htrits : toLen ≤ trits.length)
    (h0 : n ≠ 0) (h3 : E = .three → 3 ∣ n) :
    (flexTritsToTrits E trits toLen src len n).1 =
      us.take n ++ List.replicate (toLen - n) 0 ++ trits.drop toLen := by
  have htake : (us.take n).length = n := by
    rw [List.length_take]
    omega
  have hblit := blit_cleared (l := trits) (v := 0) (htake.le.trans hto)
  rw [htake] at hblit
  rw [← hblit]
  unfold flexTritsToTrits
  rw [if_neg (by omega)]
  cases E with
  | one =>
    show blit _ 0 ((src.take n).map Int8.toInt) = _
    rw [take_pack_one hus hsrc hn]
  | three =>
    obtain ⟨m, rfl⟩ := h3 rfl
    have hcells : Encoding.three.numFlexTritsForTrits (3 * m) = m := by
      show (3 * m + 3 - 1) / 3 = m
      omega
    have hwhole := take_pack_whole (E := .three) (m := m) hsrc hn
    simp only [hcells, hwhole]
    show blit _ 0 (trytesToTrits (pack .three (us.take (3 * m)))) = _
    rw [trytesToTrits_pack (hus.take (3 * m)) ⟨m, htake⟩]
  | four =>
    have hmem : (memset trits 0 toLen).length = trits.length := length_memset htrits
    have hread : (List.range n).map (flexTritsAt .four src len) = us.take n := by
      have hget : ∀ i ∈ List.range n, flexTritsAt .four src len i = us.getD (0 + i) 0 := by
        intro i hi
        have hlt := List.mem_range.mp hi
        rw [flexTritsAt_pack hus hsrc (by omega) (by omega), Nat.zero_add]
      rw [List.map_congr_left hget, map_getD_range us (by omega), List.drop_zero]
    show List.foldl _ _ _ = _
    rw [foldl_set_eq_blit _ (by omega), hread]
  | five =>
    have hdecodes := decodes_of_spells (spells_pack hus hsrc hn)
    have hsize : minBytes n ≤ src.length := by
      refine le_trans ?_ hsrc.length_le
      rw [length_pack]
      exact numFlexTritsForTrits_mono (E := .five) hn
    have hread := bytesToTrits_of_decodes hdecodes (by rw [htake]; exact hsize)
    rw [htake] at hread
    show blit _ 0 (bytesToTrits (src.take (minBytes n)) n) = _
    rw [hread]

/-- **Packing** the first trits of a list. -/
theorem flexTritsFromTrits_array (dst : List FlexTrit) (hts : Trits ts) (hn : n ≤ ts.length)
    (hlen : n ≤ len) (hto : n ≤ toLen) (h0 : n ≠ 0) :
    (flexTritsFromTrits E dst toLen ts len n).1 =
      pack E (filledUp E toLen (ts.take n)) ++ dst.drop (E.numFlexTritsForTrits toLen) := by
  have htake : (ts.take n).length = n := by
    rw [List.length_take]
    omega
  rw [← blit_cleared_pack (hts.take n) (htake.le.trans hto)]
  unfold flexTritsFromTrits
  rw [if_neg (by omega)]
  cases E with
  | one => simp only [pack_one]
  | three => rfl
  | four =>
    have hfill := length_filledUp (E := .four) (htake.le.trans hto)
    have hroom := le_room .four toLen
    have hnull : memset dst Encoding.four.nullValue (Encoding.four.numFlexTritsForTrits toLen) =
        pack .four (List.replicate (filledUp .four toLen (ts.take n)).length 0) ++
          dst.drop (Encoding.four.numFlexTritsForTrits toLen) := by
      rw [hfill, ← replicate_null, numFlexTritsForTrits_room, memset, blit, List.take_zero,
        List.nil_append, List.length_replicate, Nat.zero_add]
    -- each trit is set where the filled array has it
    have hstep : ∀ d, ∀ i ∈ List.range n,
        flexTritsSetAt .four d toLen i (ts.getD i 0) =
          flexTritsSetAt .four d (filledUp .four toLen (ts.take n)).length i
            ((filledUp .four toLen (ts.take n)).getD i 0) := by
      intro d i hi
      have hlt := List.mem_range.mp hi
      have hget : (filledUp .four toLen (ts.take n)).getD i 0 = ts.getD i 0 := by
        rw [filledUp, List.getD_eq_getElem?_getD, List.getD_eq_getElem?_getD,
          List.getElem?_append_left (by omega), List.getElem?_take_of_lt hlt]
      rw [hget, hfill]
      exact flexTritsSetAt_len d _ (by omega) (by omega)
    have hall : (filledUp .four toLen (ts.take n)).take n = ts.take n := by
      rw [filledUp, List.take_left' htake]
    rw [blit_cleared_pack (hts.take n) (htake.le.trans hto)]
    show List.foldl _ _ _ = _
    rw [hnull, List.foldl_ext _ _ _ hstep,
      foldl_flexTritsSetAt_four _ (trits_filledUp (hts.take n)) (by omega), hall, hfill, blit,
      List.take_zero, List.nil_append, Nat.zero_add, List.drop_replicate, ← filledUp]
  | five => rfl

/-! ## Trytes -/

theorem tritsToTrytes_eq_pack (ts : List ℤ) : tritsToTrytes ts = pack .three ts := rfl

/-- A tryte of the alphabet is spelled by its trits. -/
theorem tritsToTryte_alphabet : ∀ c ∈ tryteAlphabet, tritsToTryte (trytesToTrits [c]) = c := by
  have hall : tryteAlphabet.all (fun c => tritsToTryte (trytesToTrits [c]) == c) = true := by decide
  intro c hc
  exact eq_of_beq (List.all_eq_true.mp hall c hc)

theorem tritsToTrytes_trytesToTrits (h : ∀ c ∈ trytes, c ∈ tryteAlphabet) :
    tritsToTrytes (trytesToTrits trytes) = trytes := by
  apply List.ext_getElem
  · rw [length_tritsToTrytes, length_trytesToTrits]
    omega
  · intro k hk hk'
    rw [getElem_tritsToTrytes _ hk, take_drop_trytesToTrits hk', List.getD_eq_getElem?_getD,
      List.getElem?_eq_getElem hk', Option.getD_some]
    exact tritsToTryte_alphabet _ (h _ (List.getElem_mem hk'))

/-- The trits of the trytes of trits: nulls fill up the last tryte. -/
theorem trytesToTrits_tritsToTrytes (hts : Trits ts) :
    trytesToTrits (tritsToTrytes ts) =
      ts ++ List.replicate (3 * ((ts.length + 2) / 3) - ts.length) 0 := by
  have hroom : room .three ts.length = 3 * ((ts.length + 2) / 3) := rfl
  have hfill := pack_fill (E := .three) hts
  rw [hroom] at hfill
  rw [tritsToTrytes_eq_pack, ← hfill]
  refine trytesToTrits_pack (trits_append.mpr ⟨hts, trits_replicate _⟩) ?_
  rw [List.length_append, List.length_replicate]
  omega

/-- The trytes of trits are of the alphabet. -/
theorem mem_tryteAlphabet {c : Int8} (hts : Trits ts) (hc : c ∈ tritsToTrytes ts) :
    c ∈ tryteAlphabet := by
  have hspec : ∀ l ∈ short 3, tritsToTryte l ∈ tryteAlphabet := by decide
  obtain ⟨k, -, rfl⟩ := List.mem_map.mp hc
  exact hspec _ (mem_short ((hts.drop (3 * k)).take 3) (List.length_take_le _ _))

/-- Three trits to a byte: the last tryte is spelled again, with the trits asked for. -/
theorem copyTrytes_array {out : List Int8} (hus : Trits us) (hsrc : pack .three us <+: src)
    (hn : n ≤ us.length) (hout : (n + 2) / 3 ≤ out.length) :
    copyTrytes out src n = blit out 0 (tritsToTrytes (us.take n)) := by
  have hcells : Encoding.three.numFlexTritsForTrits n = (n + 2) / 3 := rfl
  have hpack := (packing .three).pack_take_drop_aligned (l := us) (s := 0) (n := n)
    (by rw [Nat.mul_zero, Nat.zero_add]; exact hn)
  rw [Nat.mul_zero, List.drop_zero, List.drop_zero, Nat.zero_add] at hpack
  have hlen : (pack .three us).length = (us.length + 2) / 3 := length_pack .three us
  have hwhole : src.take (n / 3) = (pack .three us).take (n / 3) := by
    obtain ⟨rest, rfl⟩ := hsrc
    rw [List.take_append_of_le_length (by omega)]
  have hfront : (src.take (n / 3)).length = n / 3 := by
    rw [hwhole, List.length_take]
    omega
  rw [tritsToTrytes_eq_pack, pack, hpack]
  simp only [copyTrytes, hcells]
  by_cases hres : n % 3 = 0
  · rw [if_neg (not_not.mpr hres), show (n + 2) / 3 = n / 3 by omega, hwhole]
    show blit out 0 _ = blit out 0 (_ ++ if n % 3 = 0 then [] else _)
    rw [if_pos hres, List.append_nil]
    rfl
  · have hlt : 3 * (n / 3) < us.length := by omega
    have hchunk := (packing .three).length_chunk (l := us) (j := n / 3)
    -- the bytes hold whole trytes, of which the last gives what it is asked for
    have hlast : trytesToTrits [src.getD (n / 3) 0] =
        (packing .three).chunk us (n / 3) ++
          List.replicate (3 - ((packing .three).chunk us (n / 3)).length) 0 := by
      rw [getD_of_start hsrc (by omega), getD_pack hlt]
      exact unpackByte_packByte (E := .three) (trits_chunk hus _) (packing .three).length_chunk_le
    have hasked : n % 3 ≤ ((packing .three).chunk us (n / 3)).length := by
      rw [hchunk]
      show n % 3 ≤ min 3 (us.length - 3 * (n / 3))
      omega
    have hshort : (((packing .three).chunk us (n / 3)).take (n % 3)).length = n % 3 := by
      rw [List.length_take]
      omega
    rw [if_pos hres, show (n + 2) / 3 - 1 = n / 3 by omega, hlast,
      List.take_append_of_le_length hasked, tritsToTrytes_short
        (List.ne_nil_of_length_pos (by omega)) (by omega), blit_singleton (by omega),
      blit_set hfront, set_blit_length hfront (by omega), hwhole]
    show blit out 0 _ = blit out 0 (_ ++ if n % 3 = 0 then [] else _)
    rw [if_neg hres]
    rfl

/-- **To trytes**: those of the first trits of an array, unless they outnumber an `int`. -/
theorem flexTritsToTrytes_array (hus : Trits us) (hsrc : pack E us <+: src)
    (hn : n ≤ us.length) (hlen : n ≤ len) (hto : n ≤ toLen * 3) (htrytes : toLen ≤ trytes.length) :
    (E.Shifted ∧ 2 ^ 31 ≤ (n + 2) / 3 ∧ flexTritsToTrytes E trytes toLen src len n = none) ∨
      (E.Shifted → (n + 2) / 3 < 2 ^ 31) ∧
        flexTritsToTrytes E trytes toLen src len n =
          some (tritsToTrytes (us.take n) ++ List.replicate (toLen - (n + 2) / 3) 57 ++
            trytes.drop toLen, n) := by
  have htake : (us.take n).length = n := by
    rw [List.length_take]
    omega
  have hsize : (tritsToTrytes (us.take n)).length = (n + 2) / 3 := by
    rw [length_tritsToTrytes, htake]
  have hmem : (memset trytes 57 toLen).length = trytes.length := length_memset htrytes
  have hblit := blit_cleared (l := trytes) (v := 57)
    (show (tritsToTrytes (us.take n)).length ≤ toLen by omega)
  rw [hsize] at hblit
  rw [← hblit]
  have hcond : ¬ (len < n ∨ toLen * 3 < n) := by omega
  -- where the trits pass through the buffer
  have hshifted : ∀ hE : E.Shifted,
      (E.Shifted ∧ 2 ^ 31 ≤ (n + 2) / 3 ∧
        (toTrytesLoop E src n 0 ⟨List.replicate 8 0, 0, n, 0⟩ (memset trytes 57 toLen)).map
          (fun trytes => (trytes, n)) = none) ∨
      (E.Shifted → (n + 2) / 3 < 2 ^ 31) ∧
        (toTrytesLoop E src n 0 ⟨List.replicate 8 0, 0, n, 0⟩ (memset trytes 57 toLen)).map
          (fun trytes => (trytes, n)) =
          some (blit (memset trytes 57 toLen) 0 (tritsToTrytes (us.take n)), n) := by
    intro hE
    have hstart : Writes E (us.take n) (memset trytes 57 toLen) 0
        ⟨List.replicate 8 0, 0, n, 0⟩ (memset trytes 57 toLen) := by
      refine ⟨⟨rfl, by simp, rfl⟩, ?_, width_pos E, le_rfl, Nat.two_pow_pos 31, by simp⟩
      show n = (us.take n).length - E.numTritsPerFlexTrit * 0
      omega
    have hspec := toTrytesLoop_spec hE (spells_pack hus hsrc hn) (by omega)
      (show (us.take n).length - 3 * 0 ≤ n by omega) hstart
    rw [htake] at hspec
    rcases hspec with ⟨hnone, hlong⟩ | ⟨hsome, hcount⟩
    · exact Or.inl ⟨hE, hlong, by rw [hnone]; rfl⟩
    · exact Or.inr ⟨fun _ => hcount, by rw [hsome]; rfl⟩
  unfold flexTritsToTrytes
  rw [if_neg hcond]
  cases E with
  | one =>
    refine Or.inr ⟨fun hE => absurd hE (by decide), ?_⟩
    show some (blit _ 0 (tritsToTrytes ((src.take n).map Int8.toInt)), n) = _
    rw [take_pack_one hus hsrc hn]
  | three =>
    refine Or.inr ⟨fun hE => absurd hE (by decide), ?_⟩
    show some (copyTrytes _ src n, n) = _
    rw [copyTrytes_array hus hsrc hn (by omega)]
  | four => exact hshifted (Or.inl rfl)
  | five => exact hshifted (Or.inr rfl)

/-- **From trytes**: the flex trits of their trits, unless the trytes outnumber an `int`. -/
theorem flexTritsFromTrytes_array (hm : m ≤ trytes.length) (hlen : m ≤ len) (hto : m * 3 ≤ toLen)
    (hd : E.numFlexTritsForTrits toLen ≤ dst.length)
    (halphabet : ∀ c ∈ trytes.take m, c ∈ tryteAlphabet) :
    (E.Shifted ∧ 2 ^ 31 ≤ m + drained E m ∧
        flexTritsFromTrytes E dst toLen trytes len m = none) ∨
      (E.Shifted → m + drained E m < 2 ^ 31) ∧
        flexTritsFromTrytes E dst toLen trytes len m =
          some (pack E (filledUp E toLen (trytesToTrits (trytes.take m))) ++
            dst.drop (E.numFlexTritsForTrits toLen), m) := by
  have htake : (trytes.take m).length = m := by
    rw [List.length_take]
    omega
  have hts := trits_trytesToTrits (trytes.take m)
  have hsize : (trytesToTrits (trytes.take m)).length = 3 * m := by
    rw [length_trytesToTrits, htake]
  have hmem : (memset dst E.nullValue (E.numFlexTritsForTrits toLen)).length = dst.length :=
    length_memset hd
  have hcells : E.numFlexTritsForTrits (trytesToTrits (trytes.take m)).length ≤
      E.numFlexTritsForTrits toLen := numFlexTritsForTrits_mono (by omega)
  rw [← blit_cleared_pack hts (by omega)]
  have hcond : ¬ (len < m ∨ toLen < m * 3) := by omega
  -- where the trits pass through the buffer
  have hshifted : ∀ hE : E.Shifted,
      (E.Shifted ∧ 2 ^ 31 ≤ m + drained E m ∧
        (fromTrytesLoop E trytes m 0 ⟨List.replicate 8 0, 0, m, 0⟩
          (memset dst E.nullValue (E.numFlexTritsForTrits toLen))).map (fun dst => (dst, m)) =
            none) ∨
      (E.Shifted → m + drained E m < 2 ^ 31) ∧
        (fromTrytesLoop E trytes m 0 ⟨List.replicate 8 0, 0, m, 0⟩
          (memset dst E.nullValue (E.numFlexTritsForTrits toLen))).map (fun dst => (dst, m)) =
          some (blit (memset dst E.nullValue (E.numFlexTritsForTrits toLen)) 0
            (pack E (trytesToTrits (trytes.take m))), m) := by
    intro hE
    have hread : ∀ k < m, ((trytesToTrits (trytes.take m)).drop (3 * k)).take 3 =
        trytesToTrits [trytes.getD k 0] := by
      intro k hk
      rw [take_drop_trytesToTrits (by omega), List.getD_eq_getElem?_getD,
        List.getElem?_take_of_lt hk, ← List.getD_eq_getElem?_getD]
    have hzero : drained E 0 = 0 := by
      rcases hE with rfl | rfl <;> rfl
    have hstart : Reads E (trytesToTrits (trytes.take m)) m
        (memset dst E.nullValue (E.numFlexTritsForTrits toLen)) 0
        ⟨List.replicate 8 0, 0, m, 0⟩
        (memset dst E.nullValue (E.numFlexTritsForTrits toLen)) := by
      refine ⟨⟨rfl, by simp, rfl⟩, le_rfl, Nat.zero_le 2, ?_, le_rfl, Nat.two_pow_pos 31, by simp⟩
      show 0 + m = m + if m = 0 ∧ 0 = 0 then drained E m else 0
      split_ifs with h
      · rw [h.1, hzero]
      · omega
    have hspec := fromTrytesLoop_spec hE hts hsize hread (by omega)
      (show (trytesToTrits (trytes.take m)).length ≤ E.numTritsPerFlexTrit * 0 + 3 * m by omega)
      hstart
    rcases hspec with ⟨hnone, hlong⟩ | ⟨hsome, hcount⟩
    · exact Or.inl ⟨hE, hlong, by rw [hnone]; rfl⟩
    · exact Or.inr ⟨fun _ => hcount, by rw [hsome]; rfl⟩
  unfold flexTritsFromTrytes
  rw [if_neg hcond]
  cases E with
  | one =>
    refine Or.inr ⟨fun hE => absurd hE (by decide), ?_⟩
    rw [pack_one]
    rfl
  | three =>
    refine Or.inr ⟨fun hE => absurd hE (by decide), ?_⟩
    rw [← tritsToTrytes_eq_pack, tritsToTrytes_trytesToTrits halphabet]
    rfl
  | four => exact hshifted (Or.inl rfl)
  | five => exact hshifted (Or.inr rfl)

/-! ## The conversions together -/

/-- What the four functions do for `n` trits and the trytes these take: they give what the plain
conversions give, write no more than they are asked for, and undo each other. -/
structure Conversions (E : Encoding) (n : ℕ) : Prop where
  toTrits : ∀ (src : List FlexTrit) (len toLen : ℕ) (out : List ℤ), IsArray E len src → n ≤ len →
    n ≤ toLen → toLen ≤ out.length →
    let res := (flexTritsToTrits E out toLen src len n).1
    (n = 0 → res = out) ∧
      (n ≠ 0 → res = decoded E n src ++ List.replicate (toLen - n) 0 ++ out.drop toLen)
  fromTrits : ∀ (ts : List ℤ) (len toLen : ℕ) (dst : List FlexTrit), Trits ts → len ≤ ts.length →
    n ≤ len → n ≤ toLen → E.numFlexTritsForTrits toLen ≤ dst.length →
    let res := (flexTritsFromTrits E dst toLen ts len n).1
    (n = 0 → res = dst) ∧ (n ≠ 0 → Filled E toLen (ts.take n) dst res)
  tritsBack : ∀ (ts : List ℤ) (dst : List FlexTrit) (out : List ℤ), Trits ts → ts.length = n →
    dst.length = E.numFlexTritsForTrits n → out.length = n →
    (flexTritsToTrits E out n (flexTritsFromTrits E dst n ts n n).1 n n).1 = ts
  flexBack : ∀ (src dst : List FlexTrit) (out : List ℤ), IsArray E n src → NullRest E n src →
    dst.length = E.numFlexTritsForTrits n → out.length = n →
    (flexTritsFromTrits E dst n (flexTritsToTrits E out n src n n).1 n n).1 = src
  toTrytes : ∀ (src : List FlexTrit) (len toLen : ℕ) (trytes : List Int8), IsArray E len src →
    n ≤ len → n ≤ toLen * 3 → toLen ≤ trytes.length →
    flexTritsToTrytes E trytes toLen src len n =
      some (tritsToTrytes (decoded E n src) ++ List.replicate (toLen - (n + 2) / 3) 57 ++
        trytes.drop toLen, n)
  fromTrytes : ∀ (trytes : List Int8) (len toLen : ℕ) (dst : List FlexTrit),
    (∀ c ∈ trytes, c ∈ tryteAlphabet) → len ≤ trytes.length → (n + 2) / 3 ≤ len →
    (n + 2) / 3 * 3 ≤ toLen → E.numFlexTritsForTrits toLen ≤ dst.length →
    ∃ res, flexTritsFromTrytes E dst toLen trytes len ((n + 2) / 3) = some (res, (n + 2) / 3) ∧
      Filled E toLen (trytesToTrits (trytes.take ((n + 2) / 3))) dst res
  trytesBack : ∀ (trytes : List Int8) (dst : List FlexTrit) (out : List Int8),
    (∀ c ∈ trytes, c ∈ tryteAlphabet) → trytes.length = (n + 2) / 3 →
    dst.length = E.numFlexTritsForTrits (3 * trytes.length) → out.length = trytes.length →
    ∃ arr, flexTritsFromTrytes E dst (3 * trytes.length) trytes trytes.length trytes.length =
        some (arr, trytes.length) ∧
      flexTritsToTrytes E out trytes.length arr (3 * trytes.length) (3 * trytes.length) =
        some (trytes, 3 * trytes.length)
  arrayBack : ∀ (src dst : List FlexTrit) (out : List Int8), IsArray E n src →
    out.length = (n + 2) / 3 → dst.length = E.numFlexTritsForTrits (3 * ((n + 2) / 3)) →
    ∃ trytes arr, flexTritsToTrytes E out ((n + 2) / 3) src n n = some (trytes, n) ∧
      flexTritsFromTrytes E dst (3 * ((n + 2) / 3)) trytes ((n + 2) / 3) ((n + 2) / 3) =
        some (arr, (n + 2) / 3) ∧
      decoded E (3 * ((n + 2) / 3)) arr =
        decoded E n src ++ List.replicate (3 * ((n + 2) / 3) - n) 0

/-- With three trits to a byte whole bytes are unpacked, and the trits asked for are written alone
only where they are whole bytes. -/
theorem Conversions.dvd (H : Conversions .three n) : 3 ∣ n := by
  by_contra h3
  have h0 : n ≠ 0 := by
    rintro rfl
    exact h3 (Nat.dvd_zero 3)
  have hsrc : IsArray .three n (pack .three (List.replicate (room .three n) 0)) :=
    ⟨_, trits_replicate _, List.length_replicate, rfl⟩
  have hres := (H.toTrits _ n n (List.replicate n 0) hsrc le_rfl le_rfl
    List.length_replicate.ge).2 h0
  have hlen := congrArg List.length hres
  have hcells : Encoding.three.numFlexTritsForTrits n = (n + 2) / 3 := rfl
  have hbytes : (pack .three (List.replicate (room .three n) 0)).length = (n + 2) / 3 := by
    rw [length_pack, List.length_replicate, numFlexTritsForTrits_room, hcells]
  have hdecoded :
      (decoded .three n (pack .three (List.replicate (room .three n) 0))).length = n := by
    rw [decoded, List.length_map, List.length_range]
  have hwritten : 3 * ((n + 2) / 3) ≤ (flexTritsToTrits .three (List.replicate n 0) n
      (pack .three (List.replicate (room .three n) 0)) n n).1.length := by
    unfold flexTritsToTrits
    rw [if_neg (by omega)]
    show _ ≤ (blit _ 0 (trytesToTrits (List.take _ _))).length
    rw [hcells, List.take_of_length_le hbytes.le, blit, List.length_append, List.length_append,
      length_trytesToTrits, hbytes]
    omega
  rw [List.length_append, List.length_append, hdecoded, Nat.sub_self, List.length_replicate,
    List.length_drop, List.length_replicate] at hlen
  omega

/-- A string of nulls that outnumbers an `int` is not read. -/
theorem Conversions.countable (H : Conversions E n) (hE : E.Shifted) :
    (n + 2) / 3 + drained E ((n + 2) / 3) < 2 ^ 31 := by
  have hnulls : ∀ c ∈ List.replicate ((n + 2) / 3) (57 : Int8), c ∈ tryteAlphabet := by
    intro c hc
    rw [List.eq_of_mem_replicate hc]
    decide
  have hfit : ((n + 2) / 3) ≤ (List.replicate ((n + 2) / 3) (57 : Int8)).length :=
    List.length_replicate.ge
  have hdst : E.numFlexTritsForTrits ((n + 2) / 3 * 3) ≤
      (List.replicate (E.numFlexTritsForTrits ((n + 2) / 3 * 3)) (0 : FlexTrit)).length :=
    List.length_replicate.ge
  obtain ⟨res, hres, -⟩ := H.fromTrytes _ ((n + 2) / 3) ((n + 2) / 3 * 3) _ hnulls hfit le_rfl
    le_rfl hdst
  rcases flexTritsFromTrytes_array hfit le_rfl le_rfl hdst
    (fun c hc => hnulls c (List.mem_of_mem_take hc)) with ⟨-, -, hnone⟩ | ⟨hcount, -⟩
  · rw [hnone] at hres
    exact absurd hres (by simp)
  · exact hcount hE

/-! ### There and back -/

/-- What is unpacked again after packing. -/
theorem take_filledUp (h : ts.length = n) : (filledUp E len ts).take n = ts := by
  rw [filledUp, List.take_left' h]

theorem filledUp_nullRest (hus : Trits us) (hul : us.length = room E n)
    (hnull : NullRest E n (pack E us)) : filledUp E n (us.take n) = us := by
  have hroom := le_room E n
  rw [nullRest_iff hus hul] at hnull
  have hrest : us.drop n = List.replicate (room E n - n) 0 := by
    refine List.eq_replicate_iff.mpr ⟨by rw [List.length_drop, hul], ?_⟩
    intro t ht
    obtain ⟨k, hk, rfl⟩ := List.mem_iff_getElem.mp ht
    rw [List.length_drop] at hk
    have hzero := hnull (n + k) (by omega) (by omega)
    rw [List.getD_eq_getElem?_getD, List.getElem?_eq_getElem (by omega), Option.getD_some] at hzero
    rw [List.getElem_drop, hzero]
  rw [filledUp, List.length_take, hul, Nat.min_eq_left hroom, ← hrest, List.take_append_drop]

/-- Packed trits are unpacked. -/
theorem flexTritsToTrits_back (dst : List FlexTrit) (h3 : E = .three → 3 ∣ n) {out : List ℤ}
    (hts : Trits ts) (hlen : ts.length = n) (hout : out.length = n) :
    (flexTritsToTrits E out n (flexTritsFromTrits E dst n ts n n).1 n n).1 = ts := by
  rcases Nat.eq_zero_or_pos n with h0 | hpos
  · rw [flexTritsToTrits, if_pos (Or.inl h0), List.length_eq_zero_iff.mp (hout.trans h0),
      List.length_eq_zero_iff.mp (hlen.trans h0)]
  · have hroom := le_room E n
    have hfill := length_filledUp (E := E) hlen.le
    rw [flexTritsFromTrits_array dst hts hlen.ge le_rfl le_rfl (by omega),
      List.take_of_length_le hlen.le, flexTritsToTrits_array out (trits_filledUp hts)
        (List.prefix_append _ _) (by omega) le_rfl le_rfl hout.ge (by omega) h3,
      take_filledUp hlen, Nat.sub_self, List.drop_of_length_le hout.le, List.replicate_zero,
      List.append_nil, List.append_nil]

/-- Unpacked trits are packed. -/
theorem flexTritsFromTrits_back (h3 : E = .three → 3 ∣ n) {out : List ℤ} (hsrc : IsArray E n src)
    (hnull : NullRest E n src) (hd : dst.length = E.numFlexTritsForTrits n)
    (hout : out.length = n) :
    (flexTritsFromTrits E dst n (flexTritsToTrits E out n src n n).1 n n).1 = src := by
  obtain ⟨us, hus, hul, rfl⟩ := hsrc
  have hroom := le_room E n
  rcases Nat.eq_zero_or_pos n with rfl | hpos
  · have hcells : E.numFlexTritsForTrits 0 = 0 := by
      cases E <;> rfl
    have hempty : pack E us = [] := by
      rw [← List.length_eq_zero_iff, length_pack, hul, numFlexTritsForTrits_room, hcells]
    rw [flexTritsFromTrits, if_pos (Or.inr (Or.inr rfl)), hempty]
    exact List.length_eq_zero_iff.mp (hd.trans hcells)
  · have htake : (us.take n).length = n := by
      rw [List.length_take]
      omega
    rw [flexTritsToTrits_array out hus List.prefix_rfl (by omega) le_rfl le_rfl hout.ge
        (by omega) h3, Nat.sub_self, List.drop_of_length_le hout.le, List.replicate_zero,
      List.append_nil, List.append_nil, flexTritsFromTrits_array dst (hus.take n) htake.ge
        le_rfl le_rfl (by omega), List.take_take, Nat.min_self, filledUp_nullRest hus hul hnull,
      List.drop_of_length_le hd.le, List.append_nil]

/-- In these bounds the loop of `flex_trits_to_trytes` ends. -/
theorem flexTritsToTrytes_eq (hcount : E.Shifted → (n + 2) / 3 + drained E ((n + 2) / 3) < 2 ^ 31)
    (hus : Trits us) (hsrc : pack E us <+: src) (hn : n ≤ us.length) (hlen : n ≤ len)
    (hto : n ≤ toLen * 3) (htrytes : toLen ≤ trytes.length) :
    flexTritsToTrytes E trytes toLen src len n =
      some (tritsToTrytes (us.take n) ++ List.replicate (toLen - (n + 2) / 3) 57 ++
        trytes.drop toLen, n) := by
  rcases flexTritsToTrytes_array hus hsrc hn hlen hto htrytes with ⟨hE, hlong, -⟩ | ⟨-, hsome⟩
  · have := hcount hE
    omega
  · exact hsome

/-- In these bounds the loop of `flex_trits_from_trytes` ends. -/
theorem flexTritsFromTrytes_eq (hcount : E.Shifted → m + drained E m < 2 ^ 31)
    (halphabet : ∀ c ∈ trytes, c ∈ tryteAlphabet) (hlen : len ≤ trytes.length) (hm : m ≤ len)
    (hto : m * 3 ≤ toLen) (hd : E.numFlexTritsForTrits toLen ≤ dst.length) :
    flexTritsFromTrytes E dst toLen trytes len m =
      some (pack E (filledUp E toLen (trytesToTrits (trytes.take m))) ++
        dst.drop (E.numFlexTritsForTrits toLen), m) := by
  rcases flexTritsFromTrytes_array (hm.trans hlen) hm hto hd
    (fun c hc => halphabet c (List.mem_of_mem_take hc)) with ⟨hE, hlong, -⟩ | ⟨-, hsome⟩
  · have := hcount hE
    omega
  · exact hsome

/-- A string of trytes is read and written again. -/
theorem flexTritsToTrytes_back {out : List Int8}
    (hcount : E.Shifted → trytes.length + drained E trytes.length < 2 ^ 31)
    (halphabet : ∀ c ∈ trytes, c ∈ tryteAlphabet)
    (hd : dst.length = E.numFlexTritsForTrits (3 * trytes.length))
    (hout : out.length = trytes.length) :
    ∃ arr, flexTritsFromTrytes E dst (3 * trytes.length) trytes trytes.length trytes.length =
        some (arr, trytes.length) ∧
      flexTritsToTrytes E out trytes.length arr (3 * trytes.length) (3 * trytes.length) =
        some (trytes, 3 * trytes.length) := by
  obtain ⟨m, hm⟩ : ∃ m, m = trytes.length := ⟨_, rfl⟩
  rw [← hm] at hcount hd hout ⊢
  have hsize : (trytesToTrits trytes).length = 3 * m := by
    rw [length_trytesToTrits, hm]
  have hfill := length_filledUp (E := E) hsize.le
  have hle := le_room E (3 * m)
  have hm' : (3 * m + 2) / 3 = m := by omega
  have hfills : Trits (filledUp E (3 * m) (trytesToTrits trytes)) :=
    trits_filledUp (trits_trytesToTrits trytes)
  have hread := flexTritsFromTrytes_eq hcount halphabet hm.le le_rfl
    (show m * 3 ≤ 3 * m by omega) hd.ge
  rw [List.take_of_length_le hm.ge] at hread
  have hwrite := flexTritsToTrytes_eq (by rw [hm']; exact hcount) hfills
    (List.prefix_append _ (dst.drop (E.numFlexTritsForTrits (3 * m)))) (by omega)
    (Nat.le_refl (3 * m)) (by omega) hout.ge
  refine ⟨_, hread, hwrite.trans ?_⟩
  rw [hm', take_filledUp hsize, tritsToTrytes_trytesToTrits halphabet, Nat.sub_self,
    List.drop_of_length_le hout.le, List.replicate_zero, List.append_nil, List.append_nil]

/-- An array is written as trytes and read again, the last tryte filled up with nulls. -/
theorem flexTritsFromTrytes_back {out : List Int8}
    (hcount : E.Shifted → (n + 2) / 3 + drained E ((n + 2) / 3) < 2 ^ 31)
    (hsrc : IsArray E n src) (hout : out.length = (n + 2) / 3)
    (hd : dst.length = E.numFlexTritsForTrits (3 * ((n + 2) / 3))) :
    ∃ trytes arr, flexTritsToTrytes E out ((n + 2) / 3) src n n = some (trytes, n) ∧
      flexTritsFromTrytes E dst (3 * ((n + 2) / 3)) trytes ((n + 2) / 3) ((n + 2) / 3) =
        some (arr, (n + 2) / 3) ∧
      decoded E (3 * ((n + 2) / 3)) arr =
        decoded E n src ++ List.replicate (3 * ((n + 2) / 3) - n) 0 := by
  obtain ⟨us, hus, hul, rfl⟩ := hsrc
  have hroom := le_room E n
  have htake : (us.take n).length = n := by
    rw [List.length_take]
    omega
  have hsize : (tritsToTrytes (us.take n)).length = (n + 2) / 3 := by
    rw [length_tritsToTrytes, htake]
  have hwrite := flexTritsToTrytes_eq hcount hus List.prefix_rfl (by omega) (Nat.le_refl n)
    (by omega) hout.ge
  rw [Nat.sub_self, List.drop_of_length_le hout.le, List.replicate_zero, List.append_nil,
    List.append_nil] at hwrite
  have hread := flexTritsFromTrytes_eq hcount (fun c hc => mem_tryteAlphabet (hus.take n) hc)
    hsize.ge le_rfl (show (n + 2) / 3 * 3 ≤ 3 * ((n + 2) / 3) by omega) hd.ge
  rw [List.take_of_length_le hsize.le] at hread
  have hback := trytesToTrits_tritsToTrytes (hus.take n)
  rw [htake] at hback
  have hfilled := filled_pack (E := E) dst (trits_trytesToTrits (tritsToTrytes (us.take n)))
    (show _ ≤ 3 * ((n + 2) / 3) by rw [length_trytesToTrits, hsize])
  refine ⟨_, _, hwrite, hread, ?_⟩
  rw [hfilled.trits, decoded_pack hus (by omega), length_trytesToTrits, hsize, Nat.sub_self,
    List.replicate_zero, List.append_nil, hback]

/-- **Exactly when the conversions agree with the plain ones** and undo each other: three trits to
a byte are whole bytes, and four or five are no more trytes than the loops can count. -/
theorem conversions_iff (E : Encoding) (n : ℕ) :
    Conversions E n ↔
      (E = .three → 3 ∣ n) ∧ (E.Shifted → (n + 2) / 3 + drained E ((n + 2) / 3) < 2 ^ 31) := by
  refine ⟨fun H => ⟨fun hE => ?_, H.countable⟩, ?_⟩
  · subst hE
    exact H.dvd
  rintro ⟨h3, hcount⟩
  constructor
  case toTrits =>
    rintro src len toLen out ⟨us, hus, hul, rfl⟩ hlen hto hout
    have hle := le_room E len
    refine ⟨fun h0 => ?_, fun h0 => ?_⟩
    · rw [flexTritsToTrits, if_pos (Or.inl h0)]
    · rw [decoded_pack hus (by omega)]
      exact flexTritsToTrits_array out hus List.prefix_rfl (by omega) hlen hto hout h0 h3
  case fromTrits =>
    intro ts len toLen dst hts hlen hn hto hd
    refine ⟨fun h0 => ?_, fun h0 => ?_⟩
    · rw [flexTritsFromTrits, if_pos (Or.inr (Or.inr h0))]
    · rw [flexTritsFromTrits_array dst hts (hn.trans hlen) hn hto h0]
      exact filled_pack dst (hts.take n) (by rw [List.length_take]; omega)
  case tritsBack =>
    intro ts dst out hts hlen _ hout
    exact flexTritsToTrits_back dst h3 hts hlen hout
  case flexBack =>
    intro src dst out hsrc hnull hd hout
    exact flexTritsFromTrits_back h3 hsrc hnull hd hout
  case toTrytes =>
    rintro src len toLen trytes ⟨us, hus, hul, rfl⟩ hlen hto htrytes
    have hle := le_room E len
    rw [decoded_pack hus (by omega)]
    exact flexTritsToTrytes_eq hcount hus List.prefix_rfl (by omega) hlen hto htrytes
  case fromTrytes =>
    intro trytes len toLen dst halphabet hlen hm hto hd
    refine ⟨_, flexTritsFromTrytes_eq hcount halphabet hlen hm hto hd,
      filled_pack dst (trits_trytesToTrits _) ?_⟩
    rw [length_trytesToTrits, List.length_take]
    omega
  case trytesBack =>
    intro trytes dst out halphabet hlen hd hout
    rw [← hlen] at hcount
    exact flexTritsToTrytes_back hcount halphabet hd hout
  case arrayBack =>
    intro src dst out hsrc hout hd
    exact flexTritsFromTrytes_back hcount hsrc hout hd

/-- One trit of a tryte is unpacked as three: two are written behind an array of one. -/
theorem unpack_one_overruns :
    (flexTritsToTrits .three [0] 1 (pack .three [1, 0, 0]) 1 1).1 = [1, 0, 0] ∧
      ¬ Conversions .three 1 := by
  refine ⟨by decide, fun H => ?_⟩
  have h3 := H.dvd
  omega

end Trinary

end Entangled
