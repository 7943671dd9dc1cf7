import Entangled.Trinary.Bytes
/-!
# The staging buffer

Between flex trits of three or four trits and bytes of five the trits pass through a buffer. At the
head of a round the buffer holds the trits from the next byte (or the next flex trit) up to what has
been read. The writer stops with the last flex trit read, so the last byte is written only when that
flex trit starts no earlier than the byte does; the reader stops with the last flex trit written.
-/

namespace Entangled

namespace Trinary

open Ternary

variable {E : Encoding} {ts : List ℤ} {src dst : List FlexTrit} {bytes : List Int8}
variable {s : Staging} {i j k m n : ℕ}

theorem sizeSub_eq {a b : ℕ} (hle : b ≤ a) (ha : a < 2 ^ 64) : sizeSub a b = a - b := by
  rw [sizeSub, show a + (2 ^ 64 - b) = 2 ^ 64 + (a - b) by omega, Nat.add_mod_left]
  exact Nat.mod_eq_of_lt (by omega)

theorem take_shiftOut {l : List ℤ} (hm : n + m ≤ l.length) :
    (shiftOut l m).take n = (l.drop m).take n := by
  rw [shiftOut, List.take_append_of_le_length (by rw [List.length_drop]; omega)]

theorem length_shiftOut {l : List ℤ} (hm : m ≤ l.length) : (shiftOut l m).length = l.length := by
  rw [shiftOut, List.length_append, List.length_drop, List.length_replicate]
  omega

/-- Shifting the first staged trits out leaves those behind them. -/
theorem take_shiftOut_staged {l : List ℤ} (h : l.take n = (ts.drop k).take n) (hm : m ≤ n)
    (hn : n ≤ l.length) : (shiftOut l m).take (n - m) = (ts.drop (k + m)).take (n - m) := by
  have hdropped := congrArg (List.drop m) h
  rw [List.drop_take, List.drop_take, List.drop_drop] at hdropped
  rw [take_shiftOut (by omega), hdropped]

theorem numFlexTritsForTrits_le (h : n ≤ E.numTritsPerFlexTrit * k) :
    E.numFlexTritsForTrits n ≤ k := by
  rw [numFlexTritsForTrits_eq]
  by_contra hlt
  have hmul := (packing E).lt_cells.mp (not_le.mp hlt)
  rw [packing_width] at hmul
  omega

theorem take_blit_start {α : Type} {l l' : List α} (hl : m ≤ l'.length) :
    (blit l 0 l').take m = l'.take m := by
  rw [blit, List.take_zero, List.nil_append, List.take_append_of_le_length hl]

/-! ## One flex trit in, one flex trit out -/

/-- The flex trits that pass through the buffer. -/
def Encoding.Buffered (E : Encoding) : Prop := E = .three ∨ E = .four

instance (E : Encoding) : Decidable E.Buffered := inferInstanceAs (Decidable (_ ∨ _))

theorem byteToTrits_take (b : Int8) (hm : m ≤ 5) : byteToTrits b m = (byteToTrits b 5).take m := by
  rw [byteToTrits, byteToTrits, List.take_take, Nat.min_eq_left hm]

theorem length_byteToTrits (b : Int8) (hm : m ≤ 5) : (byteToTrits b m).length = m := by
  rw [byteToTrits, List.length_take, length_digits, Nat.min_eq_left hm]

/-- A flex trit is unpacked to the trits it holds. -/
theorem flexTritsToTrits_head (trits : List ℤ) (hsrc : src ≠ []) (hm : m ≠ 0)
    (hmw : m ≤ E.numTritsPerFlexTrit) (hroom : E.numTritsPerFlexTrit ≤ trits.length) :
    (flexTritsToTrits E trits m src m m).1.length = trits.length ∧
      (flexTritsToTrits E trits m src m m).1.take m = (unpackByte E (src.getD 0 0)).take m := by
  obtain ⟨b, rest, rfl⟩ := List.exists_cons_of_ne_nil hsrc
  have hmem : (memset trits 0 m).length = trits.length := length_memset (by omega)
  -- what every encoding writes: at least `m` trits, the first of which are those of the byte
  have hwrite : ∀ new : List ℤ, m ≤ new.length → new.length ≤ trits.length →
      new.take m = (unpackByte E b).take m →
      (blit (memset trits 0 m) 0 new).length = trits.length ∧
        (blit (memset trits 0 m) 0 new).take m = (unpackByte E b).take m := by
    intro new hlong hfit hnew
    rw [length_blit (by omega), hmem, take_blit_start hlong]
    exact ⟨rfl, hnew⟩
  simp only [flexTritsToTrits]
  rw [if_neg (by omega)]
  cases E with
  | one =>
    have hone : m = 1 := by
      have : m ≤ 1 := hmw
      omega
    subst hone
    exact hwrite [b.toInt] le_rfl hroom rfl
  | three =>
    have hm3 : m ≤ 3 := hmw
    have hcells : Encoding.three.numFlexTritsForTrits m = 1 := by
      show (m + 3 - 1) / 3 = 1
      omega
    have hlength : (unpackByte .three b).length = 3 := by
      rw [unpackByte_three, tryteTrits, length_digits]
    simp only [hcells, List.take_succ_cons, List.take_zero]
    exact hwrite (unpackByte .three b) (by omega) (by rw [hlength]; exact hroom) rfl
  | four =>
    have hm4 : m ≤ 4 := hmw
    have hroom : 4 ≤ trits.length := hroom
    have hread : (List.range m).map (flexTritsAt .four (b :: rest) m) =
        (unpackByte .four b).take m := by
      rw [unpackByte, ← List.map_take, List.take_range, Nat.min_eq_left hm4]
      refine List.map_congr_left fun i hi => ?_
      have hi := List.mem_range.mp hi
      rw [flexTritsAt, if_neg (by omega), Nat.shiftRight_eq_div_pow,
        Nat.div_eq_of_lt (show i < 2 ^ 2 by omega)]
      rfl
    have hlength : ((unpackByte .four b).take m).length = m := by
      rw [← hread, List.length_map, List.length_range]
    show (List.foldl _ _ _ : List ℤ).length = _ ∧ (List.foldl _ _ _ : List ℤ).take m = _
    rw [foldl_set_eq_blit _ (by omega), hread]
    exact hwrite _ hlength.ge (by omega) (by rw [List.take_take, Nat.min_self])
  | five =>
    have hm5 : m ≤ 5 := hmw
    have hroom : 5 ≤ trits.length := hroom
    have hcells : Encoding.five.numFlexTritsForTrits m = 1 := by
      show (m + 5 - 1) / 5 = 1
      omega
    have hread : bytesToTrits [b] m = byteToTrits b m := by
      simp [bytesToTrits, Nat.min_eq_left hm5]
    have hlength := length_byteToTrits b hm5
    simp only [hcells, List.take_succ_cons, List.take_zero, hread]
    exact hwrite _ hlength.ge (by omega)
      (by rw [List.take_of_length_le hlength.le, byteToTrits_take b hm5, unpackByte_five])

theorem foldl_flexTritsSetAt_head (b : FlexTrit) (trits : List ℤ) (hm : m ≤ 4) (hn : m ≤ n) :
    (List.range m).foldl (fun d i => flexTritsSetAt .four d n i (trits.getD i 0)) (b :: dst) =
      (List.range m).foldl (fun b i => setTwoBitsAt b i (trits.getD i 0)) b :: dst := by
  induction m with
  | zero => rfl
  | succ m ih =>
    rw [List.range_succ, List.foldl_append, List.foldl_append, ih (by omega) (by omega),
      List.foldl_cons, List.foldl_nil, flexTritsSetAt, if_neg (by omega),
      Nat.shiftRight_eq_div_pow, Nat.div_eq_of_lt (show m < 2 ^ 2 by omega)]
    rfl

/-- What is packed goes into the first flex trit. -/
theorem flexTritsFromTrits_head (hE : E.Buffered) (dst : List FlexTrit) (trits : List ℤ) (hm : m ≠ 0)
    (hmw : m ≤ E.numTritsPerFlexTrit) (hmn : m ≤ n) (htrits : m ≤ trits.length)
    (hroom : E.numFlexTritsForTrits n ≤ dst.length) :
    (flexTritsFromTrits E dst n trits m m).1.length = dst.length ∧
      (flexTritsFromTrits E dst n trits m m).1.take 1 = [packByte E (trits.take m)] := by
  have hpos := numFlexTritsForTrits_pos (E := E) (show n ≠ 0 by omega)
  have hmem : (memset dst E.nullValue (E.numFlexTritsForTrits n)).length = dst.length :=
    length_memset hroom
  have hlen : (trits.take m).length = m := by
    rw [List.length_take]
    omega
  rcases hE with rfl | rfl
  · have hm3 : m ≤ 3 := hmw
    have hone : tritsToTrytes (trits.take m) = [packByte .three (trits.take m)] := by
      rw [tritsToTrytes, hlen, show (m + 2) / 3 = 1 by omega]
      show [tritsToTryte ((List.drop 0 _).take 3)] = [tritsToTryte _]
      rw [List.drop_zero, List.take_of_length_le (by omega)]
    simp only [flexTritsFromTrits]
    rw [if_neg (by omega), hone]
    exact ⟨by rw [length_blit (by rw [hmem]; exact hpos.trans hroom), hmem], take_blit_start le_rfl⟩
  · obtain ⟨b, rest, hcons⟩ := List.exists_cons_of_ne_nil
      (show memset dst Encoding.four.nullValue (Encoding.four.numFlexTritsForTrits n) ≠ [] from
        List.ne_nil_of_length_pos (by omega))
    have hb : b = 0 := by
      have hhead : (memset dst Encoding.four.nullValue
          (Encoding.four.numFlexTritsForTrits n))[0]? = some 0 := by
        rw [memset, getElem?_blit (by rw [List.length_replicate]; omega), if_pos (by
          rw [List.length_replicate]; omega), List.getElem?_replicate, if_pos (by omega)]
        rfl
      rw [hcons, List.getElem?_cons_zero] at hhead
      exact Option.some.inj hhead
    rw [hcons] at hmem
    simp only [flexTritsFromTrits]
    rw [if_neg (by omega), hcons, foldl_flexTritsSetAt_head b trits hmw hmn, hb, List.length_cons]
    refine ⟨hmem, ?_⟩
    rw [List.take_succ_cons, List.take_zero]
    show [_] = [List.foldl _ _ _]
    rw [hlen]
    congr 1
    refine List.foldl_ext _ _ _ fun b k hk => ?_
    rw [List.getD_eq_getElem?_getD, List.getD_eq_getElem?_getD,
      List.getElem?_take_of_lt (List.mem_range.mp hk)]

/-! ## From flex trits to bytes -/

/-- The buffer holds the trits from byte `j` up to flex trit `c`. -/
structure Staged (E : Encoding) (ts : List ℤ) (j c : ℕ) (s : Staging) : Prop where
  length : s.trits.length = 8
  counter : s.counter = ts.length - E.numTritsPerFlexTrit * c
  offset : 5 * j + s.offset = min ts.length (E.numTritsPerFlexTrit * c)
  staged : s.trits.take s.offset = (ts.drop (5 * j)).take s.offset

theorem Buffered.width (hE : E.Buffered) :
    3 ≤ E.numTritsPerFlexTrit ∧ E.numTritsPerFlexTrit ≤ 4 := by
  rcases hE with rfl | rfl <;> decide

@[simp] theorem stage_i : (stage E src s).i = s.i := rfl

theorem Staged.stage (H : Staged E ts j s.i s) (hE : E.Buffered) (hts : Trits ts)
    (hsrc : pack E ts <+: src) (hi : E.numTritsPerFlexTrit * s.i < ts.length)
    (hroom : s.offset + E.numTritsPerFlexTrit ≤ 8) :
    Staged E ts j (s.i + 1) (stage E src s) := by
  have hw := Buffered.width hE
  have hlength := H.length
  have hcounter := H.counter
  have hoffset := H.offset
  have hcell : s.i < (pack E ts).length := by
    rw [length_pack, numFlexTritsForTrits_eq, Packing.lt_cells]
    exact hi
  have hne : src.drop s.i ≠ [] := by
    have := hsrc.length_le
    exact List.ne_nil_of_length_pos (by rw [List.length_drop]; omega)
  have hbyte : (src.drop s.i).getD 0 0 = packByte E ((packing E).chunk ts s.i) := by
    rw [List.getD_eq_getElem?_getD, List.getElem?_drop, Nat.add_zero, ← List.getD_eq_getElem?_getD,
      getD_of_start hsrc hcell, getD_pack hi]
  have hchunk : ((packing E).chunk ts s.i).length = min E.numTritsPerFlexTrit s.counter := by
    rw [Packing.length_chunk, hcounter]
    rfl
  have hread : (unpackByte E (packByte E ((packing E).chunk ts s.i))).take
      (min E.numTritsPerFlexTrit s.counter) = (ts.drop (E.numTritsPerFlexTrit * s.i)).take
        (min E.numTritsPerFlexTrit s.counter) := by
    rw [unpackByte_packByte (trits_chunk hts s.i) (packing E).length_chunk_le,
      List.take_append_of_le_length hchunk.ge, Packing.chunk, List.take_take]
    congr 1
    show min _ E.numTritsPerFlexTrit = _
    omega
  obtain ⟨hlen, htake⟩ := flexTritsToTrits_head (E := E) (s.trits.drop s.offset) hne
    (m := min E.numTritsPerFlexTrit s.counter) (by omega) (Nat.min_le_left _ _)
    (by rw [List.length_drop]; omega)
  rw [hbyte, hread] at htake
  rw [List.length_drop] at hlen
  have hfront : (s.trits.take s.offset).length = s.offset := by
    rw [List.length_take]
    omega
  refine ⟨?_, ?_, ?_, ?_⟩
  · show (_ ++ _ : List ℤ).length = 8
    rw [List.length_append, hfront, hlen]
    omega
  · show s.counter - min E.numTritsPerFlexTrit s.counter = _
    rw [Nat.mul_add]
    omega
  · show 5 * j + (s.offset + min E.numTritsPerFlexTrit s.counter) = _
    rw [Nat.mul_add]
    omega
  · show (_ ++ _ : List ℤ).take (s.offset + min E.numTritsPerFlexTrit s.counter) =
      (ts.drop (5 * j)).take (s.offset + min E.numTritsPerFlexTrit s.counter)
    rw [List.take_append, hfront, Nat.add_sub_cancel_left, htake, List.take_take,
      Nat.min_eq_right (Nat.le_add_right _ _), H.staged, List.take_add, List.drop_drop,
      show 5 * j + s.offset = E.numTritsPerFlexTrit * s.i by omega]

/-- How many bytes are written: those that start no later than the last flex trit. -/
def filled (E : Encoding) (n : ℕ) : ℕ :=
  E.numTritsPerFlexTrit * ((n - 1) / E.numTritsPerFlexTrit) / 5 + 1

/-- The head of a round, with something left to read. -/
structure Writing (E : Encoding) (ts : List ℤ) (out : List Int8) (j : ℕ) (s : Staging)
    (bytes : List Int8) : Prop where
  buffer : Staged E ts j s.i s
  left : E.numTritsPerFlexTrit * s.i < ts.length
  low : s.offset < E.numTritsPerFlexTrit
  index : s.i < 2 ^ 31
  bytes : bytes = blit out 0 ((tritsToBytes ts).take j)

/-- All flex trits are read. -/
structure Written (E : Encoding) (ts : List ℤ) (out : List Int8) (s : Staging)
    (bytes : List Int8) : Prop where
  counter : s.counter = 0
  countable : E.numFlexTritsForTrits ts.length < 2 ^ 31
  bytes : bytes = blit out 0 ((tritsToBytes ts).take (filled E ts.length))

theorem length_tritsToBytes (ts : List ℤ) : (tritsToBytes ts).length = minBytes ts.length := by
  rw [tritsToBytes, List.length_map, List.length_range]
  rfl

/-- The byte a round writes, and the state it leaves. -/
theorem Staged.flush {out : List Int8} {c : ℕ} (H : Staged E ts j c s) (hE : E.Buffered)
    (hc : c ≠ 0) (hi : c < 2 ^ 31) (hfull : 5 ≤ s.offset ∨ s.counter = 0)
    (hlate : E.numTritsPerFlexTrit * (c - 1) < 5 * j + 5)
    (hearly : 5 * j ≤ E.numTritsPerFlexTrit * (c - 1))
    (hleft : E.numTritsPerFlexTrit * (c - 1) < ts.length)
    (hout : minBytes ts.length ≤ out.length) :
    let s' : Staging :=
      { s with trits := shiftOut s.trits 5, offset := sizeSub s.offset 5, i := c }
    let bytes := (blit out 0 ((tritsToBytes ts).take j)).set j
      (tritsToByte (s.trits.take (min 5 s.offset)))
    Writing E ts out (j + 1) s' bytes ∨ Written E ts out s' bytes := by
  have hw := Buffered.width hE
  have hcounter := H.counter
  have hoffset := H.offset
  have hlength := H.length
  have hcw : E.numTritsPerFlexTrit * c =
      E.numTritsPerFlexTrit * (c - 1) + E.numTritsPerFlexTrit := by
    conv_lhs => rw [show c = c - 1 + 1 by omega, Nat.mul_add, Nat.mul_one]
  have hj : j < (tritsToBytes ts).length := by
    rw [length_tritsToBytes, minBytes]
    omega
  -- the first five staged trits are those of the byte that is due
  have hbyte : tritsToByte (s.trits.take (min 5 s.offset)) = (tritsToBytes ts)[j] := by
    have htake : s.trits.take (min 5 s.offset) = (ts.drop (5 * j)).take 5 := by
      have hstaged := congrArg (List.take 5) H.staged
      rw [List.take_take, List.take_take] at hstaged
      rw [hstaged]
      rcases hfull with hfull | hfull
      · rw [Nat.min_eq_left hfull]
      · -- the last trits are staged
        rw [List.take_eq_take_iff, List.length_drop]
        omega
    rw [htake, List.getElem_of_eq (show tritsToBytes ts = List.map _ _ from rfl),
      List.getElem_map, List.getElem_range]
  have hwritten : (blit out 0 ((tritsToBytes ts).take j)).set j
      (tritsToByte (s.trits.take (min 5 s.offset))) =
        blit out 0 ((tritsToBytes ts).take (j + 1)) := by
    rw [length_tritsToBytes] at hj
    rw [set_blit_length (by rw [List.length_take, length_tritsToBytes]; omega) (by omega), hbyte,
      List.take_append_getElem]
  intro s' bytes'
  rcases Nat.eq_zero_or_pos s.counter with hzero | hpos
  · right
    refine ⟨hzero, ?_, ?_⟩
    · exact Nat.lt_of_le_of_lt (numFlexTritsForTrits_le (by omega)) hi
    · have hlast : (ts.length - 1) / E.numTritsPerFlexTrit = c - 1 :=
        Nat.div_eq_of_lt_le (by rw [Nat.mul_comm]; omega)
          (by rw [show c - 1 + 1 = c by omega, Nat.mul_comm]; omega)
      refine hwritten.trans ?_
      rw [filled, hlast, show E.numTritsPerFlexTrit * (c - 1) / 5 = j by omega]
  · left
    have hsub : sizeSub s.offset 5 = s.offset - 5 := sizeSub_eq (by omega) (by omega)
    refine ⟨⟨?_, hcounter, ?_, ?_⟩, ?_, ?_, hi, hwritten⟩
    · show (shiftOut s.trits 5).length = 8
      rw [length_shiftOut (by omega), hlength]
    · show 5 * (j + 1) + sizeSub s.offset 5 = _
      rw [hsub, ← hoffset]
      omega
    · show (shiftOut s.trits 5).take (sizeSub s.offset 5) =
        (ts.drop (5 * (j + 1))).take (sizeSub s.offset 5)
      rw [hsub, Nat.mul_add, Nat.mul_one]
      exact take_shiftOut_staged H.staged (by omega) (by omega)
    · show E.numTritsPerFlexTrit * c < ts.length
      omega
    · show sizeSub s.offset 5 < _
      omega

/-- One round: it goes on, or ends, or an index overflows. -/
theorem toBytesRound_spec {out : List Int8} (H : Writing E ts out j s bytes) (hE : E.Buffered)
    (hts : Trits ts) (hsrc : pack E ts <+: src) (hout : minBytes ts.length ≤ out.length) :
    (toBytesRound E src j s bytes = none ∧ 2 ^ 31 ≤ E.numFlexTritsForTrits ts.length) ∨
      ∃ s' bytes', toBytesRound E src j s bytes = some (s', bytes') ∧ s'.counter < s.counter ∧
        j + 1 < 2 ^ 31 ∧ (Writing E ts out (j + 1) s' bytes' ∨ Written E ts out s' bytes') := by
  have hw := Buffered.width hE
  have hlow := H.low
  have hleft := H.left
  have hindex := H.index
  have hoffset := H.buffer.offset
  have hcounter := H.buffer.counter
  have hcells : ∀ {c}, E.numTritsPerFlexTrit * c < ts.length →
      c < E.numFlexTritsForTrits ts.length := fun hc => by
    rw [numFlexTritsForTrits_eq, Packing.lt_cells]
    exact hc
  have hcell := hcells hleft
  have hji : j ≤ s.i := by
    have := Nat.mul_le_mul_right s.i hw.2
    omega
  have H₁ := H.buffer.stage hE hts hsrc hleft (by omega)
  have hoffset₁ : (stage E src s).offset =
      s.offset + min E.numTritsPerFlexTrit s.counter := rfl
  have hcounter₁ : (stage E src s).counter =
      s.counter - min E.numTritsPerFlexTrit s.counter := rfl
  have hmul : E.numTritsPerFlexTrit * (s.i + 1) =
      E.numTritsPerFlexTrit * s.i + E.numTritsPerFlexTrit := Nat.mul_succ _ _
  rw [toBytesRound, H.bytes]
  by_cases hmore : (stage E src s).offset < 5 ∧ (stage E src s).counter ≠ 0
  · -- one flex trit is not enough
    simp only [if_pos hmore, stage_i]
    have hnext : E.numTritsPerFlexTrit * (s.i + 1) < ts.length := by omega
    have hcell' := hcells hnext
    rw [intSucc]
    split_ifs with hi
    · have H₂ : Staged E ts j (s.i + 1 + 1) (stage E src { stage E src s with i := s.i + 1 }) :=
        Staged.stage (s := { stage E src s with i := s.i + 1 }) ⟨H₁.length, H₁.counter,
          H₁.offset, H₁.staged⟩ hE hts hsrc hnext (by
            show (stage E src s).offset + _ ≤ 8
            omega)
      have hoffset₂ := H₂.offset
      have hcounter₂ := H₂.counter
      have hmul' : E.numTritsPerFlexTrit * (s.i + 1 + 1) =
        E.numTritsPerFlexTrit * (s.i + 1) + E.numTritsPerFlexTrit := Nat.mul_succ _ _
      simp only [Option.map_some, Option.bind_some, stage_i]
      rw [intSucc]
      split_ifs with hi'
      · refine Or.inr ⟨_, _, rfl, ?_, by omega, H₂.flush hE (by omega) hi' (by omega)
          (by rw [Nat.add_sub_cancel]; omega) (by rw [Nat.add_sub_cancel]; omega)
          (by rw [Nat.add_sub_cancel]; omega) hout⟩
        show (stage E src { stage E src s with i := s.i + 1 }).counter < s.counter
        omega
      · exact Or.inl ⟨rfl, by omega⟩
    · exact Or.inl ⟨rfl, by omega⟩
  · simp only [if_neg hmore, stage_i, Option.bind_some]
    rw [intSucc]
    split_ifs with hi
    · refine Or.inr ⟨_, _, rfl, ?_, by omega, H₁.flush hE (by omega) hi (by omega)
        (by rw [Nat.add_sub_cancel]; omega) (by rw [Nat.add_sub_cancel]; omega)
        (by rw [Nat.add_sub_cancel]; omega) hout⟩
      show (stage E src s).counter < s.counter
      omega
    · exact Or.inl ⟨rfl, by omega⟩

/-- **What the writer's loop leaves**, unless the flex trits outnumber an `int`. -/
theorem toBytesLoop_spec {out : List Int8} (hE : E.Buffered) (hts : Trits ts)
    (hsrc : pack E ts <+: src) (hout : minBytes ts.length ≤ out.length) {fuel : ℕ}
    (hfuel : s.counter ≤ fuel) (H : Writing E ts out j s bytes ∨ Written E ts out s bytes) :
    (toBytesLoop E src fuel j s bytes = none ∧ 2 ^ 31 ≤ E.numFlexTritsForTrits ts.length) ∨
      (toBytesLoop E src fuel j s bytes =
          some (blit out 0 ((tritsToBytes ts).take (filled E ts.length))) ∧
        E.numFlexTritsForTrits ts.length < 2 ^ 31) := by
  induction fuel generalizing j s bytes with
  | zero =>
    rcases H with H | H
    · have := H.left
      have := H.buffer.counter
      omega
    · rw [toBytesLoop, if_pos H.counter]
      exact Or.inr ⟨congrArg some H.bytes, H.countable⟩
  | succ fuel ih =>
    rcases H with H | H
    · have := H.left
      have := H.buffer.counter
      rw [toBytesLoop, if_neg (by omega)]
      rcases toBytesRound_spec H hE hts hsrc hout with ⟨hnone, hlong⟩ | ⟨s', bytes', hround, hless,
        hj, H'⟩
      · simp only [hnone, Option.bind_none]
        exact Or.inl ⟨trivial, hlong⟩
      · simp only [hround, Option.bind_some, intSucc, if_pos hj]
        exact ih (by omega) H'
    · rw [toBytesLoop, if_pos H.counter]
      exact Or.inr ⟨congrArg some H.bytes, H.countable⟩

/-! ## From bytes to flex trits -/

/-- The bytes spell the trits; a byte may be any of those that do. -/
def Decodes (bytes : List Int8) (ts : List ℤ) : Prop :=
  ∀ k, 5 * k < ts.length →
    (byteToTrits (bytes.getD k 0) 5).take (ts.length - 5 * k) = (ts.drop (5 * k)).take 5

theorem decodes_tritsToBytes (hts : Trits ts) (hbytes : tritsToBytes ts <+: bytes) :
    Decodes bytes ts := by
  intro k hk
  have hlt : k < (tritsToBytes ts).length := by
    rw [length_tritsToBytes, minBytes]
    omega
  have hbyte : bytes.getD k 0 = tritsToByte ((ts.drop (5 * k)).take 5) := by
    rw [getD_of_start hbytes hlt, List.getD_eq_getElem?_getD, List.getElem?_eq_getElem hlt,
      List.getElem_of_eq (show tritsToBytes ts = List.map _ _ from rfl), List.getElem_map,
      List.getElem_range]
    rfl
  have hchunk : ((ts.drop (5 * k)).take 5).length = min 5 (ts.length - 5 * k) := by
    rw [List.length_take, List.length_drop]
  rw [hbyte, byteToTrits_tritsToByte ((hts.drop (5 * k)).take 5) (List.length_take_le 5 _)]
  rcases Nat.lt_or_ge (ts.length - 5 * k) 5 with hshort | hlong
  · rw [List.take_append_of_le_length (by omega), List.take_of_length_le (by omega)]
  · rw [hchunk, Nat.min_eq_left hlong, Nat.sub_self, List.replicate_zero, List.append_nil,
      List.take_of_length_le (by omega)]

/-- The buffer holds the trits from flex trit `j` on; those behind the last one mean nothing. -/
structure Loaded (E : Encoding) (ts : List ℤ) (j : ℕ) (s : Staging) : Prop where
  length : s.trits.length = 8
  counter : s.counter = ts.length - E.numTritsPerFlexTrit * j
  staged : s.trits.take (min s.offset s.counter) =
    (ts.drop (E.numTritsPerFlexTrit * j)).take (min s.offset s.counter)
  next : s.offset < s.counter → E.numTritsPerFlexTrit * j + s.offset = 5 * s.i
  room : s.offset ≤ 8

/-- The head of a round, with something left to write. -/
structure Reading (E : Encoding) (ts : List ℤ) (room j : ℕ) (s : Staging) (dst : List FlexTrit) :
    Prop where
  buffer : Loaded E ts j s
  left : E.numTritsPerFlexTrit * j < ts.length
  length : dst.length = room
  dst : dst.take j = (pack E ts).take j

/-- All flex trits are written. -/
structure Read (E : Encoding) (ts : List ℤ) (room : ℕ) (s : Staging) (dst : List FlexTrit) :
    Prop where
  counter : s.counter = 0
  length : dst.length = room
  dst : pack E ts <+: dst

/-- A byte unpacked behind what is staged. -/
theorem Loaded.refill (H : Loaded E ts j s) (hE : E.Buffered) (hbytes : Decodes bytes ts)
    (hlow : s.offset < E.numTritsPerFlexTrit) (hless : s.offset < s.counter) :
    Loaded E ts j
      { s with
        trits := blit s.trits s.offset (byteToTrits (bytes.getD s.i 0) (min 5 s.counter))
        offset := s.offset + min 5 s.counter
        i := s.i + 1 } := by
  have hw := Buffered.width hE
  have hlength := H.length
  have hcounter := H.counter
  have hnext := H.next hless
  have hread : (byteToTrits (bytes.getD s.i 0) (min 5 s.counter)).length = min 5 s.counter :=
    length_byteToTrits _ (Nat.min_le_left _ _)
  have hfront : (s.trits.take s.offset).length = s.offset := by
    rw [List.length_take]
    omega
  refine ⟨?_, hcounter, ?_, ?_, ?_⟩
  · show (blit _ _ _).length = 8
    rw [length_blit (by omega), hlength]
  · show (blit _ _ _).take (min (s.offset + min 5 s.counter) s.counter) = List.take _ _
    obtain ⟨v, hv⟩ : ∃ v, min (s.offset + min 5 s.counter) s.counter = s.offset + v :=
      ⟨min (s.offset + min 5 s.counter) s.counter - s.offset, by omega⟩
    have hstaged := H.staged
    rw [Nat.min_eq_left hless.le] at hstaged
    have hspelled := congrArg (List.take v) (hbytes s.i (by omega))
    rw [List.take_take, List.take_take, Nat.min_eq_left (by omega),
      Nat.min_eq_left (by omega)] at hspelled
    rw [hv, blit, List.append_assoc, List.take_append, hfront, Nat.add_sub_cancel_left,
      List.take_take, Nat.min_eq_right (Nat.le_add_right _ _), hstaged,
      List.take_append_of_le_length (by omega), byteToTrits_take _ (Nat.min_le_left _ _),
      List.take_take, Nat.min_eq_left (by omega), hspelled, List.take_add, List.drop_drop, hnext]
  · show s.offset + min 5 s.counter < s.counter → _ + (s.offset + min 5 s.counter) = 5 * (s.i + 1)
    omega
  · show s.offset + min 5 s.counter ≤ 8
    omega

/-- The flex trit a round writes, and the state it leaves. -/
theorem Loaded.emit (H : Loaded E ts j s) (hE : E.Buffered)
    (hleft : E.numTritsPerFlexTrit * j < ts.length)
    (hfull : min E.numTritsPerFlexTrit s.counter ≤ s.offset)
    (hroom' : E.numFlexTritsForTrits ts.length ≤ n) (hlength : dst.length = n)
    (hdst : dst.take j = (pack E ts).take j) :
    let tritsForByte := min (min 5 s.counter) E.numTritsPerFlexTrit
    let s' : Staging :=
      { s with
        trits := shiftOut s.trits tritsForByte
        offset := sizeSub s.offset tritsForByte
        counter := s.counter - tritsForByte }
    let dst' := dst.take j ++
      (flexTritsFromTrits E (dst.drop j) s.counter s.trits tritsForByte tritsForByte).1
    Reading E ts n (j + 1) s' dst' ∨ Read E ts n s' dst' := by
  have hw := Buffered.width hE
  have hcounter := H.counter
  have hroom := H.room
  have hmul : E.numTritsPerFlexTrit * (j + 1) =
      E.numTritsPerFlexTrit * j + E.numTritsPerFlexTrit := Nat.mul_succ _ _
  have hm : min (min 5 s.counter) E.numTritsPerFlexTrit = min E.numTritsPerFlexTrit s.counter := by
    omega
  -- the flex trits still to write and the `j` written are all of them
  have hcells : E.numFlexTritsForTrits s.counter + j = E.numFlexTritsForTrits ts.length := by
    rw [numFlexTritsForTrits_eq, numFlexTritsForTrits_eq, Packing.cells, Packing.cells,
      packing_width, ← Nat.add_mul_div_left _ _ (by omega)]
    congr 1
    omega
  have hj : j < (pack E ts).length := by
    rw [length_pack, numFlexTritsForTrits_eq, Packing.lt_cells]
    exact hleft
  have hj' := hj
  rw [length_pack] at hj'
  intro tritsForByte s' dst'
  obtain ⟨hlen, hhead⟩ := flexTritsFromTrits_head hE (dst.drop j) s.trits (n := s.counter)
    (m := min E.numTritsPerFlexTrit s.counter) (by omega) (Nat.min_le_left _ _)
    (Nat.min_le_right _ _) (by rw [H.length]; omega) (by rw [List.length_drop]; omega)
  -- what is staged begins with the trits of the flex trit that is due
  have hchunk : s.trits.take (min E.numTritsPerFlexTrit s.counter) = (packing E).chunk ts j := by
    have hstaged := congrArg (List.take (min E.numTritsPerFlexTrit s.counter)) H.staged
    rw [List.take_take, List.take_take, Nat.min_eq_left (by omega)] at hstaged
    rw [hstaged, Packing.chunk, packing_width, List.take_eq_take_iff, List.length_drop]
    omega
  have hfront : (dst.take j).length = j := by
    rw [List.length_take]
    omega
  have hlength' : dst'.length = n := by
    show (_ ++ _ : List FlexTrit).length = _
    rw [show tritsForByte = min E.numTritsPerFlexTrit s.counter from hm, List.length_append,
      hfront, hlen, List.length_drop]
    omega
  have hwritten : dst'.take (j + 1) = (pack E ts).take (j + 1) := by
    have hcell : (pack E ts)[j] = packByte E ((packing E).chunk ts j) := by
      have hget := getD_pack (E := E) hleft
      rwa [List.getD_eq_getElem?_getD, List.getElem?_eq_getElem hj, Option.getD_some] at hget
    show (_ ++ _ : List FlexTrit).take (j + 1) = _
    rw [show tritsForByte = min E.numTritsPerFlexTrit s.counter from hm, List.take_append, hfront,
      Nat.add_sub_cancel_left, hhead, hchunk, ← hcell, List.take_take,
      Nat.min_eq_right (Nat.le_succ j), hdst, List.take_append_getElem]
  rcases Nat.eq_zero_or_pos s'.counter with hzero | hpos
  · -- nothing is left to write, so this was the last flex trit
    right
    have hzero' : s.counter - tritsForByte = 0 := hzero
    have hend : (pack E ts).length ≤ j + 1 := by
      rw [length_pack]
      exact numFlexTritsForTrits_le (by omega)
    refine ⟨hzero, hlength', ?_⟩
    rw [List.take_of_length_le hend] at hwritten
    rw [← hwritten]
    exact List.take_prefix _ _
  · left
    have hpos' : 0 < s.counter - tritsForByte := hpos
    have hsub : sizeSub s.offset tritsForByte = s.offset - E.numTritsPerFlexTrit := by
      rw [sizeSub_eq (by omega) (by omega)]
      omega
    have hfive : tritsForByte = E.numTritsPerFlexTrit := by omega
    have hrest : s'.counter = s.counter - E.numTritsPerFlexTrit := by
      show s.counter - tritsForByte = _
      rw [hfive]
    refine ⟨⟨?_, ?_, ?_, ?_, ?_⟩, by omega, hlength', hwritten⟩
    · show (shiftOut s.trits tritsForByte).length = 8
      rw [length_shiftOut (by rw [H.length]; omega), H.length]
    · rw [hrest]
      omega
    · show (shiftOut s.trits tritsForByte).take (min (sizeSub s.offset tritsForByte) s'.counter) =
        (ts.drop _).take (min (sizeSub s.offset tritsForByte) s'.counter)
      have hmin : min (s.offset - E.numTritsPerFlexTrit) (s.counter - E.numTritsPerFlexTrit) =
          min s.offset s.counter - E.numTritsPerFlexTrit := by omega
      rw [hsub, hrest, hfive, hmul, hmin]
      exact take_shiftOut_staged H.staged (by omega) (by rw [H.length]; omega)
    · show sizeSub s.offset tritsForByte < s'.counter → _ + sizeSub s.offset tritsForByte = 5 * s.i
      have hnext := H.next
      rw [hsub, hrest]
      omega
    · show sizeSub s.offset tritsForByte ≤ 8
      omega

/-- One round: it goes on, or ends. -/
theorem fromBytesRound_spec (H : Reading E ts n j s dst) (hE : E.Buffered)
    (hbytes : Decodes bytes ts) (hcountable : E.numFlexTritsForTrits ts.length < 2 ^ 31)
    (hroom : E.numFlexTritsForTrits ts.length ≤ n) :
    ∃ s' dst', fromBytesRound E bytes j s dst = some (s', dst') ∧ s'.counter < s.counter ∧
      j + 1 < 2 ^ 31 ∧ (Reading E ts n (j + 1) s' dst' ∨ Read E ts n s' dst') := by
  have hw := Buffered.width hE
  have hleft := H.left
  have hcounter := H.buffer.counter
  have hj : j < E.numFlexTritsForTrits ts.length := by
    rw [numFlexTritsForTrits_eq, Packing.lt_cells]
    exact hleft
  have hmul : E.numTritsPerFlexTrit * (j + 1) =
      E.numTritsPerFlexTrit * j + E.numTritsPerFlexTrit := Nat.mul_succ _ _
  rw [fromBytesRound]
  by_cases hrefill : s.offset < E.numTritsPerFlexTrit ∧ s.offset < s.counter
  · have hnext := H.buffer.next hrefill.2
    have hi : s.i + 1 < 2 ^ 31 := by
      have := Nat.mul_le_mul_right (j + 1) hw.2
      omega
    simp only [if_pos hrefill, intSucc, if_pos hi, Option.map_some]
    refine ⟨_, _, rfl, ?_, by omega, (H.buffer.refill hE hbytes hrefill.1 hrefill.2).emit hE hleft ?_
      hroom H.length H.dst⟩
    · show s.counter - min (min 5 s.counter) E.numTritsPerFlexTrit < s.counter
      omega
    · show min E.numTritsPerFlexTrit s.counter ≤ s.offset + min 5 s.counter
      omega
  · simp only [if_neg hrefill, Option.map_some]
    refine ⟨_, _, rfl, ?_, by omega, H.buffer.emit hE hleft (by omega) hroom H.length
      H.dst⟩
    show s.counter - min (min 5 s.counter) E.numTritsPerFlexTrit < s.counter
    omega

/-- **What the reader's loop leaves.** -/
theorem fromBytesLoop_spec (hE : E.Buffered) (hbytes : Decodes bytes ts)
    (hcountable : E.numFlexTritsForTrits ts.length < 2 ^ 31)
    (hroom : E.numFlexTritsForTrits ts.length ≤ n) {fuel : ℕ} (hfuel : s.counter ≤ fuel)
    (H : Reading E ts n j s dst ∨ Read E ts n s dst) :
    ∃ dst', fromBytesLoop E bytes fuel j s dst = some dst' ∧ dst'.length = n ∧
      pack E ts <+: dst' := by
  induction fuel generalizing j s dst with
  | zero =>
    rcases H with H | H
    · have := H.left
      have := H.buffer.counter
      omega
    · rw [fromBytesLoop, if_pos H.counter]
      exact ⟨dst, rfl, H.length, H.dst⟩
  | succ fuel ih =>
    rcases H with H | H
    · have := H.left
      have := H.buffer.counter
      obtain ⟨s', dst', hround, hless, hj, H'⟩ :=
        fromBytesRound_spec H hE hbytes hcountable hroom
      rw [fromBytesLoop, if_neg (by omega)]
      simp only [hround, Option.bind_some, intSucc, if_pos hj]
      exact ih (by omega) H'
    · rw [fromBytesLoop, if_pos H.counter]
      exact ⟨dst, rfl, H.length, H.dst⟩

end Trinary

end Entangled
