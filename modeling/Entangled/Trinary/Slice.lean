import Entangled.Trinary.Packed
/-!
# Slices and insertions of packed trits

`flex_trits_slice` cuts a stretch of trits out of an array and `flex_trits_insert` writes
one over a stretch of another. Both have a branch for a stretch that starts on a byte and
one that shifts. On packed trits the branches do the same to the list: `flexTritsSlice_pack`
and `flexTritsInsert_pack`, for every encoding.
-/

namespace Entangled

namespace Trinary

open Ternary

variable {E : Encoding} {ts us : List ℤ} {src dst : List FlexTrit} {i len start num toLen : ℕ}

/-! ## A slice that starts on a byte -/

theorem length_take_drop (h : start + num ≤ ts.length) : ((ts.drop start).take num).length = num := by
  rw [List.length_take, List.length_drop]
  omega

theorem getD_pack (h : E.numTritsPerFlexTrit * i < ts.length) :
    (pack E ts).getD i 0 = packByte E ((packing E).chunk ts i) :=
  (packing E).getD_pack 0 h

theorem trits_chunk (hts : Trits ts) (j : ℕ) : Trits ((packing E).chunk ts j) :=
  (packing E).ok_chunk hts

theorem sliceAligned_pack (hts : Trits ts) (ha : start % E.numTritsPerFlexTrit = 0)
    (h : start + num ≤ ts.length) (hd : E.numFlexTritsForTrits num ≤ dst.length) :
    sliceAligned E dst (pack E ts) start num = blit dst 0 (pack E ((ts.drop start).take num)) := by
  obtain ⟨s, rfl⟩ : ∃ s, start = E.numTritsPerFlexTrit * s := Nat.dvd_of_mod_eq_zero ha
  have hw := width_pos E
  have hm := Nat.div_add_mod num E.numTritsPerFlexTrit
  have hcells : s + num / E.numTritsPerFlexTrit ≤ (packing E).cells ts.length := by
    apply (packing E).le_cells
    rw [packing_width, Nat.mul_add]
    omega
  have hlen : (((pack E ts).drop s).take (num / E.numTritsPerFlexTrit)).length =
      num / E.numTritsPerFlexTrit := by
    rw [List.length_take, List.length_drop, length_pack, numFlexTritsForTrits_eq]
    omega
  have hd' := (packing E).cells_eq (n := num)
  rw [← numFlexTritsForTrits_eq, packing_width] at hd'
  have hpack : pack E ((ts.drop (E.numTritsPerFlexTrit * s)).take num) =
      ((pack E ts).drop s).take (num / E.numTritsPerFlexTrit) ++
        if num % E.numTritsPerFlexTrit = 0 then []
        else [packByte E (((packing E).chunk ts (s + num / E.numTritsPerFlexTrit)).take
          (num % E.numTritsPerFlexTrit))] :=
    (packing E).pack_take_drop_aligned h
  unfold sliceAligned
  simp only [Nat.mul_div_cancel_left s hw, hpack]
  by_cases hz : num % E.numTritsPerFlexTrit = 0
  · rw [if_neg (by omega), if_pos hz, List.append_nil]
  · rw [if_neg hz] at hd'
    have hbyte : (E.numTritsPerFlexTrit * s + num) / E.numTritsPerFlexTrit =
        s + num / E.numTritsPerFlexTrit := Nat.mul_add_div hw s num
    have hlt : E.numTritsPerFlexTrit * (s + num / E.numTritsPerFlexTrit) < ts.length := by
      rw [Nat.mul_add]
      omega
    rw [if_pos hz, if_neg hz, hbyte, getD_pack hlt, residualByte_packByte (trits_chunk hts _)
      (packing E).length_chunk_le ?_ (Nat.mod_lt _ hw)]
    · exact set_blit_length hlen (by omega)
    · rw [Packing.length_chunk, packing_width, Nat.mul_add]
      have := Nat.mod_lt num hw
      omega

/-! ## A slice that starts inside a byte -/

theorem numFlexTritsForTrits_pos (h : num ≠ 0) : 1 ≤ E.numFlexTritsForTrits num := by
  rw [numFlexTritsForTrits_eq]
  exact (packing E).lt_cells.mpr (by omega)

/-- What both loops come to: a byte from each window, and the last one again from what belongs
to it. -/
theorem blit_windows (f : ℕ → List ℤ) (hl : us.length = num)
    (hf : ∀ j, E.numTritsPerFlexTrit * j < num →
      (f j).take (min E.numTritsPerFlexTrit (num - E.numTritsPerFlexTrit * j)) =
        (packing E).chunk us j) :
    (if num % E.numTritsPerFlexTrit ≠ 0 then
      (blit dst 0 ((List.range (E.numFlexTritsForTrits num)).map fun j =>
        packByte E ((f j).take E.numTritsPerFlexTrit))).set (E.numFlexTritsForTrits num - 1)
        (packByte E ((f (E.numFlexTritsForTrits num - 1)).take (num % E.numTritsPerFlexTrit)))
    else blit dst 0 ((List.range (E.numFlexTritsForTrits num)).map fun j =>
        packByte E ((f j).take E.numTritsPerFlexTrit))) = blit dst 0 (pack E us) := by
  subst hl
  have hpack : pack E us =
      if us.length % E.numTritsPerFlexTrit ≠ 0 then
        ((List.range (E.numFlexTritsForTrits us.length)).map fun j =>
          packByte E ((f j).take E.numTritsPerFlexTrit)).set (E.numFlexTritsForTrits us.length - 1)
          (packByte E ((f (E.numFlexTritsForTrits us.length - 1)).take
            (us.length % E.numTritsPerFlexTrit)))
      else (List.range (E.numFlexTritsForTrits us.length)).map fun j =>
          packByte E ((f j).take E.numTritsPerFlexTrit) := by
    rw [numFlexTritsForTrits_eq]
    exact (packing E).pack_eq_of_windows f fun j hj => hf j ((packing E).lt_cells.mp hj)
  rw [hpack]
  split_ifs with hz
  · refine set_blit ?_
    have hne : us.length ≠ 0 := by
      intro h0
      rw [h0] at hz
      exact hz (Nat.zero_mod _)
    have := numFlexTritsForTrits_pos (E := E) hne
    rw [List.length_map, List.length_range]
    omega
  · rfl

/-- Whatever stands behind two bytes, the trits of a byte of the slice are found in them. -/
theorem take_drop_window {j : ℕ} (rest : List ℤ) (h : start + num ≤ ts.length)
    (hj : E.numTritsPerFlexTrit * j < num) :
    ((((packing E).chunk ts (start / E.numTritsPerFlexTrit + j) ++
        (packing E).chunk ts (start / E.numTritsPerFlexTrit + j + 1) ++ rest).drop
      (start % E.numTritsPerFlexTrit)).take
        (min E.numTritsPerFlexTrit (num - E.numTritsPerFlexTrit * j))) =
      (packing E).chunk ((ts.drop start).take num) j := by
  have hm := Nat.div_add_mod start E.numTritsPerFlexTrit
  have hlt := Nat.mod_lt start (width_pos E)
  have hlen : ((packing E).chunk ts (start / E.numTritsPerFlexTrit + j) ++
      (packing E).chunk ts (start / E.numTritsPerFlexTrit + j + 1)).length =
      min (E.numTritsPerFlexTrit + E.numTritsPerFlexTrit)
        (ts.length - (E.numTritsPerFlexTrit * (start / E.numTritsPerFlexTrit) +
          E.numTritsPerFlexTrit * j)) := by
    rw [Packing.chunk_append_chunk, List.length_take, List.length_drop, packing_width, Nat.mul_add]
  rw [Packing.chunk_take_drop, List.drop_append_of_le_length (by omega),
    List.take_append_of_le_length (by rw [List.length_drop]; omega)]
  rfl

/-- The window of the loop that shifts trits: two bytes of the array, then what it held. -/
theorem unpackByte_append_high {a : ℕ} (hts : Trits ts) (stale : List ℤ)
    (ha : E.numTritsPerFlexTrit * a < ts.length) (ho : start % E.numTritsPerFlexTrit ≠ 0) :
    ∃ rest, unpackByte E ((pack E ts).getD a 0) ++
        (if start % E.numTritsPerFlexTrit ≠ 0 ∧ a < E.numFlexTritsForTrits ts.length - 1 then
          unpackByte E ((pack E ts).getD (a + 1) 0) else stale) =
      (packing E).chunk ts a ++ (packing E).chunk ts (a + 1) ++ rest := by
  rw [numFlexTritsForTrits_eq]
  have hcell : a < (packing E).cells ts.length := (packing E).lt_cells.mpr ha
  rw [getD_pack ha, unpackByte_packByte (trits_chunk hts _) (packing E).length_chunk_le]
  by_cases hlast : a + 1 < (packing E).cells ts.length
  · have hnext : E.numTritsPerFlexTrit * (a + 1) < ts.length := (packing E).lt_cells.mp hlast
    have hfull : ((packing E).chunk ts a).length = E.numTritsPerFlexTrit := by
      rw [Packing.length_chunk, packing_width]
      rw [Nat.mul_add] at hnext
      omega
    rw [if_pos ⟨ho, by omega⟩, getD_pack hnext,
      unpackByte_packByte (trits_chunk hts _) (packing E).length_chunk_le, hfull, Nat.sub_self,
      List.replicate_zero, List.append_nil, ← List.append_assoc]
    exact ⟨_, rfl⟩
  · have hnil : (packing E).chunk ts (a + 1) = [] := by
      rw [← List.length_eq_zero_iff, Packing.length_chunk]
      have : ¬ (packing E).width * (a + 1) < ts.length := fun hc =>
        hlast ((packing E).lt_cells.mpr hc)
      omega
    rw [if_neg (by omega), hnil, List.append_nil, List.append_assoc]
    exact ⟨_, rfl⟩

theorem sliceTrits_pack (hts : Trits ts) (ho : start % E.numTritsPerFlexTrit ≠ 0)
    (h : start + num ≤ ts.length) (hd : E.numFlexTritsForTrits num ≤ dst.length) :
    sliceTrits E dst (pack E ts) ts.length start num =
      blit dst 0 (pack E ((ts.drop start).take num)) := by
  have hm := Nat.div_add_mod start E.numTritsPerFlexTrit
  obtain ⟨trits, -, hstep, hloop⟩ := foldl_set_state
    (fun (s : List ℤ) j => unpackByte E ((pack E ts).getD (start / E.numTritsPerFlexTrit + j) 0) ++
      if start % E.numTritsPerFlexTrit ≠ 0 ∧
          start / E.numTritsPerFlexTrit + j < E.numFlexTritsForTrits ts.length - 1 then
        unpackByte E ((pack E ts).getD (start / E.numTritsPerFlexTrit + j + 1) 0)
      else s.drop E.numTritsPerFlexTrit)
    (fun s => packByte E ((s.drop (start % E.numTritsPerFlexTrit)).take E.numTritsPerFlexTrit))
    (List.replicate (2 * E.numTritsPerFlexTrit) 0) dst
  have hwindow : ∀ j, E.numTritsPerFlexTrit * j < num →
      ((trits (j + 1)).drop (start % E.numTritsPerFlexTrit)).take
        (min E.numTritsPerFlexTrit (num - E.numTritsPerFlexTrit * j)) =
        (packing E).chunk ((ts.drop start).take num) j := by
    intro j hj
    obtain ⟨rest, hrest⟩ := unpackByte_append_high (a := start / E.numTritsPerFlexTrit + j) hts
      ((trits j).drop E.numTritsPerFlexTrit) (by rw [Nat.mul_add]; omega) ho
    rw [hstep, hrest]
    exact take_drop_window rest h hj
  have hfold : (List.range (E.numFlexTritsForTrits num)).foldl
      (shiftTrits E (pack E ts) (start / E.numTritsPerFlexTrit) (start % E.numTritsPerFlexTrit)
        (E.numFlexTritsForTrits ts.length - 1))
      (List.replicate (2 * E.numTritsPerFlexTrit) 0, dst) = _ := hloop _ hd
  unfold sliceTrits
  simp only [hfold]
  rw [← blit_windows _ (length_take_drop h) hwindow]
  split_ifs with hz
  · have hne : num ≠ 0 := by
      rintro rfl
      exact hz (Nat.zero_mod _)
    rw [Nat.sub_add_cancel (numFlexTritsForTrits_pos hne)]
  · rfl

/-! ### Four trits to a byte -/

/-- Shifting a byte down drops its lowest trits. -/
theorem shiftRight_packByte : ∀ c ∈ short 4, ∀ o ∈ [1, 2, 3],
    (packByte .four c).toUInt8 >>> tshift o =
      (packByte .four ((unpackByte .four (packByte .four c)).drop o)).toUInt8 := by
  decide +kernel

/-- Shifting a byte up makes room for the trits of the byte before it. -/
theorem shiftLeft_packByte : ∀ c ∈ short 4, ∀ o ∈ [1, 2, 3],
    (packByte .four c).toUInt8 <<< rshift o =
      (packByte .four (List.replicate (4 - o) 0 ++
        (unpackByte .four (packByte .four c)).take o)).toUInt8 := by
  decide +kernel

/-- Trits in different places of a byte are joined by their bits. -/
theorem or_packByte : ∀ c ∈ short 4, ∀ o ∈ [1, 2, 3],
    (packByte .four (c.take (4 - o))).toUInt8 |||
        (packByte .four (List.replicate (4 - o) 0 ++ c.drop (4 - o))).toUInt8 =
      (packByte .four c).toUInt8 := by
  decide +kernel

theorem length_unpackByte_packByte {c : List ℤ} (hc : Trits c)
    (hl : c.length ≤ E.numTritsPerFlexTrit) :
    (unpackByte E (packByte E c)).length = E.numTritsPerFlexTrit := by
  rw [unpackByte_packByte hc hl, List.length_append, List.length_replicate]
  omega

theorem trits_unpackByte_packByte {c : List ℤ} (hc : Trits c)
    (hl : c.length ≤ E.numTritsPerFlexTrit) : Trits (unpackByte E (packByte E c)) := by
  rw [unpackByte_packByte hc hl]
  exact trits_append.mpr ⟨hc, trits_replicate _⟩

/-- **The byte the loop builds from two**, as the four trits it cuts out of them. -/
theorem shift_or_shift {c d : List ℤ} {o : ℕ} (hc : Trits c) (hcl : c.length ≤ 4) (hd : Trits d)
    (hdl : d.length ≤ 4) (ho : o ∈ [1, 2, 3]) :
    ((packByte .four c).toUInt8 >>> tshift o) |||
        ((packByte .four d).toUInt8 <<< rshift o) =
      (packByte .four (((unpackByte .four (packByte .four c) ++
        unpackByte .four (packByte .four d)).drop o).take 4)).toUInt8 := by
  have hcu := length_unpackByte_packByte (E := .four) hc hcl
  have hdu := length_unpackByte_packByte (E := .four) hd hdl
  have hct := trits_unpackByte_packByte (E := .four) hc hcl
  have hdt := trits_unpackByte_packByte (E := .four) hd hdl
  rw [shiftRight_packByte c (mem_short hc hcl) o ho, shiftLeft_packByte d (mem_short hd hdl) o ho]
  generalize unpackByte .four (packByte .four c) = u at *
  generalize unpackByte .four (packByte .four d) = v at *
  have hu : u.length = 4 := hcu
  have hv : v.length = 4 := hdu
  have ho4 : 1 ≤ o ∧ o ≤ 3 := by
    simp only [List.mem_cons, List.not_mem_nil, or_false] at ho
    omega
  have hdrop : (u.drop o).length = 4 - o := by rw [List.length_drop, hu]
  have hsplit : ((u ++ v).drop o).take 4 = u.drop o ++ v.take o := by
    rw [List.drop_append_of_le_length (by omega), List.take_append, hdrop,
      List.take_of_length_le (by omega)]
    congr 2
    omega
  have hjoin := or_packByte (u.drop o ++ v.take o)
    (mem_short (trits_append.mpr ⟨hct.drop o, hdt.take o⟩)
      (by rw [List.length_append, hdrop, List.length_take]; omega)) o ho
  rw [List.take_left' hdrop, List.drop_left' hdrop] at hjoin
  rw [hsplit, hjoin]

theorem packByte_four_zeros : packByte .four (List.replicate 4 0) = 0 := by decide

theorem rshift_ne_zero : ∀ o ∈ [1, 2, 3], rshift o ≠ 0 := by
  decide

theorem tshift_mod (start : ℕ) : tshift (start % 4) = tshift start := by
  rw [tshift, tshift, and_three, and_three, Nat.mod_mod]

theorem rshift_mod (start : ℕ) : rshift (start % 4) = rshift start := by
  rw [rshift, rshift, tshift_mod]

/-- **One round of the loop**: the byte is that of the window of `unpackByte_append_high`, filled
up with nulls behind the last byte. -/
theorem shiftBits_byte {a : ℕ} (hts : Trits ts) (ha : 4 * a < ts.length) (ho : start % 4 ≠ 0) :
    (if rshift start ≠ 0 ∧ a < Encoding.four.numFlexTritsForTrits ts.length - 1 then
      (((pack .four ts).getD a 0).toUInt8 >>> tshift start) |||
        (((pack .four ts).getD (a + 1) 0).toUInt8 <<< rshift start)
    else ((pack .four ts).getD a 0).toUInt8 >>> tshift start) =
      (packByte .four (((unpackByte .four ((pack .four ts).getD a 0) ++
        if start % 4 ≠ 0 ∧ a < Encoding.four.numFlexTritsForTrits ts.length - 1 then
          unpackByte .four ((pack .four ts).getD (a + 1) 0)
        else List.replicate 4 0).drop (start % 4)).take 4)).toUInt8 := by
  have hmem : start % 4 ∈ [1, 2, 3] := by
    simp only [List.mem_cons, List.not_mem_nil, or_false]
    omega
  have hr : rshift start ≠ 0 := rshift_mod start ▸ rshift_ne_zero _ hmem
  have hc := trits_chunk (E := .four) hts
  have hcl := fun j => (packing .four).length_chunk_le (l := ts) (j := j)
  rw [getD_pack (E := .four) ha, ← tshift_mod, ← rshift_mod]
  by_cases hlast : a < Encoding.four.numFlexTritsForTrits ts.length - 1
  · have hnext : 4 * (a + 1) < ts.length := by
      rw [Encoding.numFlexTritsForTrits, Nat.shiftRight_eq_div_pow] at hlast
      omega
    rw [if_pos ⟨rshift_mod start ▸ hr, hlast⟩, if_pos ⟨ho, hlast⟩, getD_pack (E := .four) hnext]
    exact shift_or_shift (hc _) (hcl _) (hc _) (hcl _) hmem
  · have hz := shift_or_shift (hc a) (hcl a) (trits_replicate 4) (by decide) hmem
    have hnull : unpackByte .four (packByte .four (List.replicate 4 0)) = List.replicate 4 0 := by
      decide
    have hzero : (packByte .four (List.replicate 4 0)).toUInt8 <<< rshift (start % 4) = 0 := by
      rw [packByte_four_zeros]
      exact UInt8.zero_shiftLeft
    rw [hnull, hzero, UInt8.or_zero] at hz
    rw [if_neg (fun hc => hlast hc.2), if_neg (fun hc => hlast hc.2), hz]

theorem sliceBits_pack (hts : Trits ts) (ho : start % 4 ≠ 0) (h : start + num ≤ ts.length)
    (hd : Encoding.four.numFlexTritsForTrits num ≤ dst.length) :
    sliceBits dst (pack .four ts) ts.length start num =
      blit dst 0 (pack .four ((ts.drop start).take num)) := by
  have hm := Nat.div_add_mod start 4
  obtain ⟨buffer, -, hstep, hloop⟩ := foldl_set_state
    (fun (_ : UInt8) j =>
      if rshift start ≠ 0 ∧ start / 4 + j < Encoding.four.numFlexTritsForTrits ts.length - 1 then
        (((pack .four ts).getD (start / 4 + j) 0).toUInt8 >>> tshift start) |||
          (((pack .four ts).getD (start / 4 + j + 1) 0).toUInt8 <<< rshift start)
      else ((pack .four ts).getD (start / 4 + j) 0).toUInt8 >>> tshift start)
    (fun b => b.toInt8) 0 dst
  let window : ℕ → List ℤ := fun j =>
    (unpackByte .four ((pack .four ts).getD (start / 4 + j) 0) ++
      (if start % 4 ≠ 0 ∧ start / 4 + j < Encoding.four.numFlexTritsForTrits ts.length - 1 then
        unpackByte .four ((pack .four ts).getD (start / 4 + j + 1) 0)
      else List.replicate 4 0)).drop (start % 4)
  have hwindow : ∀ j, 4 * j < num →
      (window j).take (min 4 (num - 4 * j)) =
        (packing .four).chunk ((ts.drop start).take num) j := by
    intro j hj
    obtain ⟨rest, hrest⟩ := unpackByte_append_high (E := .four)
      (a := start / 4 + j) hts (List.replicate 4 0)
      (by show 4 * (start / 4 + j) < ts.length; omega) ho
    exact (congrArg (fun l => (l.drop (start % 4)).take (min 4 (num - 4 * j))) hrest).trans
      (take_drop_window (E := .four) rest h hj)
  -- what the shifts put together is the window, packed
  have hbuffer : ∀ j, 4 * j < num →
      buffer (j + 1) = (packByte .four ((window j).take 4)).toUInt8 := by
    intro j hj
    rw [hstep]
    exact shiftBits_byte hts (by omega) ho
  have htrits : ∀ j, 4 * j < num → Trits (window j) := by
    intro j hj
    have hbyte : ∀ a, 4 * a < ts.length → Trits (unpackByte .four ((pack .four ts).getD a 0)) := by
      intro a ha
      rw [getD_pack (E := .four) ha]
      exact trits_unpackByte_packByte (trits_chunk hts a) (packing .four).length_chunk_le
    refine Trits.drop (trits_append.mpr ⟨hbyte _ (by omega), ?_⟩) _
    split_ifs with hlast
    · refine hbyte _ ?_
      have := hlast.2
      rw [Encoding.numFlexTritsForTrits, Nat.shiftRight_eq_div_pow] at this
      omega
    · exact trits_replicate 4
  have hfold : (List.range (Encoding.four.numFlexTritsForTrits num)).foldl
      (shiftBits (pack .four ts) (start / 4) (tshift start) (rshift start)
        (Encoding.four.numFlexTritsForTrits ts.length - 1)) (0, dst) = _ := hloop _ hd
  have hbytes : ((List.range (Encoding.four.numFlexTritsForTrits num)).map
      fun j => (buffer (j + 1)).toInt8) =
      (List.range (Encoding.four.numFlexTritsForTrits num)).map
        fun j => packByte .four ((window j).take 4) := by
    refine List.map_congr_left fun j hj => ?_
    rw [List.mem_range, Encoding.numFlexTritsForTrits, Nat.shiftRight_eq_div_pow] at hj
    rw [hbuffer j (by omega), Int8.toInt8_toUInt8]
  unfold sliceBits
  simp only [Nat.shiftRight_eq_div_pow, and_three, Nat.reducePow, hfold, hbytes]
  refine Eq.trans ?_ (blit_windows (E := .four) window (length_take_drop h) hwindow)
  show (if num % 4 ≠ 0 then _ else _) = if num % 4 ≠ 0 then _ else _
  split_ifs with hz
  · have hnb : 4 * (Encoding.four.numFlexTritsForTrits num - 1) < num := by
      rw [Encoding.numFlexTritsForTrits, Nat.shiftRight_eq_div_pow]
      omega
    have hlast := hbuffer _ hnb
    rw [Nat.sub_add_cancel (numFlexTritsForTrits_pos (by omega))] at hlast
    have hmin : min 4 (num - 4 * (Encoding.four.numFlexTritsForTrits num - 1)) = num % 4 := by
      rw [Encoding.numFlexTritsForTrits, Nat.shiftRight_eq_div_pow]
      omega
    -- the last window holds at least the trits that belong to the slice
    have hlen : num % 4 ≤ (window (Encoding.four.numFlexTritsForTrits num - 1)).length := by
      have hw := congrArg List.length (hwindow _ hnb)
      rw [hmin, List.length_take, Packing.length_chunk, length_take_drop h, packing_width] at hw
      simp only [Encoding.numTritsPerFlexTrit, hmin] at hw
      omega
    have hres := residualByte_packByte (E := .four)
      (c := (window (Encoding.four.numFlexTritsForTrits num - 1)).take 4) (r := num % 4)
      ((htrits _ hnb).take 4) (by rw [List.length_take]; exact Nat.min_le_left _ _)
      (by rw [List.length_take]; omega) (Nat.mod_lt num (by decide))
    rw [List.take_take, Nat.min_eq_left (by omega)] at hres
    rw [hlast]
    exact congrArg _ hres
  · rfl

/-! ## Any slice -/

theorem length_memset {α : Type} {l : List α} {v : α} {n : ℕ} (h : n ≤ l.length) :
    (memset l v n).length = l.length :=
  length_blit (by rw [List.length_replicate]; omega)

theorem numFlexTritsForTrits_mono {m n : ℕ} (h : m ≤ n) :
    E.numFlexTritsForTrits m ≤ E.numFlexTritsForTrits n := by
  cases E <;> simp only [Encoding.numFlexTritsForTrits, Nat.shiftRight_eq_div_pow] <;> omega

/-- The bytes of one trit each are the trits. -/
theorem drop_take_pack_one (h : start + num ≤ ts.length) :
    ((pack .one ts).drop start).take num = pack .one ((ts.drop start).take num) := by
  have hs := (packing .one).pack_take_drop_aligned (l := ts) (s := start) (n := num)
    (by rw [packing_width]; show 1 * start + num ≤ _; omega)
  simp only [packing_width, Encoding.numTritsPerFlexTrit, Nat.one_mul, Nat.div_one, Nat.mod_one,
    if_true, List.append_nil] at hs
  exact hs.symm

/-- **A slice of packed trits is the packed slice**, in every encoding. -/
theorem flexTritsSlice_pack (hts : Trits ts) (h0 : num ≠ 0) (hto : num ≤ toLen)
    (h : start + num ≤ ts.length) (hd : E.numFlexTritsForTrits toLen ≤ dst.length) :
    flexTritsSlice E dst toLen (pack E ts) ts.length start num =
      (blit (memset dst E.nullValue (E.numFlexTritsForTrits toLen)) 0
        (pack E ((ts.drop start).take num)), E.numFlexTritsForTrits num) := by
  have hd' : E.numFlexTritsForTrits num ≤
      (memset dst E.nullValue (E.numFlexTritsForTrits toLen)).length := by
    rw [length_memset hd]
    exact le_trans (numFlexTritsForTrits_mono hto) hd
  unfold flexTritsSlice
  rw [if_neg (by omega)]
  cases E with
  | one =>
    simp only [Encoding.numFlexTritsForTrits] at hd' ⊢
    rw [drop_take_pack_one h]
  | three =>
    simp only [Prod.mk.injEq, and_true]
    split_ifs with ha
    · exact sliceAligned_pack hts ha h hd'
    · exact sliceTrits_pack hts ha h hd'
  | four =>
    simp only [Prod.mk.injEq, and_true]
    split_ifs with ha
    · exact sliceAligned_pack hts ha h hd'
    · exact sliceBits_pack hts ha h hd'
  | five =>
    simp only [Prod.mk.injEq, and_true]
    split_ifs with ha
    · exact sliceAligned_pack hts ha h hd'
    · exact sliceTrits_pack hts ha h hd'

/-- A slice into a field of its own size. -/
theorem flexTritsSlice_field (start : ℕ) (hts : Trits ts) (h0 : num ≠ 0) (h : start + num ≤ ts.length)
    (hd : dst.length = E.numFlexTritsForTrits num) :
    (flexTritsSlice E dst num (pack E ts) ts.length start num).1 =
      pack E ((ts.drop start).take num) := by
  rw [flexTritsSlice_pack hts h0 le_rfl h hd.ge]
  refine blit_full ?_
  rw [length_pack, length_take_drop h, length_memset hd.ge, hd]

/-- A slice into a larger buffer stands at its head. -/
theorem flexTritsSlice_start (hts : Trits ts) (h0 : num ≠ 0) (h : start + num ≤ ts.length)
    (hd : E.numFlexTritsForTrits num ≤ dst.length) :
    pack E ((ts.drop start).take num) <+:
      (flexTritsSlice E dst num (pack E ts) ts.length start num).1 := by
  rw [flexTritsSlice_pack hts h0 le_rfl h hd]
  exact ⟨_, rfl⟩

/-! ## Insertion -/

theorem insertTrits_pack (ts : List ℤ) (first : ℕ) (hts : Trits ts) (hus : Trits us)
    (hsrc : pack E us <+: src)
    (hlen : num ≤ len) (hus' : num ≤ us.length) (hto : start + num ≤ ts.length)
    (hf : first ≤ num) :
    insertTrits E (pack E ts) ts.length src len start first num =
      pack E (blit ts (start + first) ((us.take num).drop first)) := by
  -- on the trits still to be copied
  obtain ⟨k, rfl⟩ : ∃ k, num = first + k := ⟨num - first, by omega⟩
  unfold insertTrits
  rw [Nat.add_sub_cancel_left]
  induction k generalizing first ts with
  | zero => simp
  | succ k ih =>
    have hfirst : first < us.length := by omega
    have ht : IsTrit (us.getD first 0) := hus.getD first
    have hsplit : (us.take (first + (k + 1))).drop first =
        us.getD first 0 :: (us.take (first + 1 + k)).drop (first + 1) := by
      rw [List.drop_eq_getElem_cons (by rw [List.length_take]; omega), List.getElem_take,
        List.getD_eq_getElem?_getD, List.getElem?_eq_getElem hfirst, Option.getD_some]
      congr 3
      omega
    rw [List.range'_succ, List.foldl_cons, flexTritsAt_pack hus hsrc hfirst (by omega),
      flexTritsSetAt_pack hts ht (by omega)]
    have hset := ih (ts.set (start + first) (us.getD first 0)) (first + 1)
      (hts.set ht _) (by omega) (by omega) (by rw [List.length_set]; omega) (by omega)
    rw [List.length_set] at hset
    rw [hset, hsplit, ← blit_singleton (by omega)]
    have hlen' : ((us.take (first + 1 + k)).drop (first + 1)).length = k := by
      rw [List.length_drop, List.length_take]
      omega
    have hbb := blit_blit ts [us.getD first 0] ((us.take (first + 1 + k)).drop (first + 1))
      (start + first) (by rw [hlen', List.length_singleton]; omega)
    rw [List.length_singleton] at hbb
    exact congrArg _ hbb

theorem trits_blit (hts : Trits ts) (hus : Trits us) : Trits (blit ts i us) :=
  trits_append.mpr ⟨trits_append.mpr ⟨hts.take i, hus⟩, hts.drop _⟩

/-- Whole bytes written over an array. -/
theorem blit_pack (ts : List ℤ) {k : ℕ} (hsrc : pack E us <+: src)
    (ha : start % E.numTritsPerFlexTrit = 0)
    (hus : E.numTritsPerFlexTrit * k ≤ us.length)
    (hto : start + E.numTritsPerFlexTrit * k ≤ ts.length) :
    blit (pack E ts) (start / E.numTritsPerFlexTrit) (src.take k) =
      pack E (blit ts start (us.take (E.numTritsPerFlexTrit * k))) := by
  have hm : E.numTritsPerFlexTrit * (start / E.numTritsPerFlexTrit) = start :=
    Nat.mul_div_cancel' (Nat.dvd_of_mod_eq_zero ha)
  have hk : k ≤ (pack E us).length := by
    rw [length_pack, numFlexTritsForTrits_eq]
    exact (packing E).le_cells hus
  have htake : src.take k = (pack E us).take k := by
    obtain ⟨rest, rfl⟩ := hsrc
    exact List.take_append_of_le_length hk
  have hb := (packing E).blit_pack (l := ts) (m := us) (k := k)
    (s := start / E.numTritsPerFlexTrit) (by rw [packing_width, hm]; exact hto) hus
  rw [packing_width, hm] at hb
  rw [htake]
  exact hb

/-- **Inserting packed trits writes them over the stretch**, in every encoding. -/
theorem flexTritsInsert_pack (len start : ℕ) (hts : Trits ts) (hus : Trits us)
    (hsrc : pack E us <+: src)
    (h0 : num ≠ 0) (hlen : num ≤ len) (hus' : num ≤ us.length) (hto : start + num ≤ ts.length) :
    flexTritsInsert E (pack E ts) ts.length src len start num =
      (pack E (blit ts start (us.take num)), num) := by
  -- the branch that copies whole bytes and sets the rest one by one
  have haligned : start % E.numTritsPerFlexTrit = 0 →
      insertTrits E (blit (pack E ts) (start / E.numTritsPerFlexTrit)
        (src.take (num / E.numTritsPerFlexTrit))) ts.length src len start
        (num / E.numTritsPerFlexTrit * E.numTritsPerFlexTrit) num =
      pack E (blit ts start (us.take num)) := by
    intro ha
    have hm := Nat.mul_div_le num E.numTritsPerFlexTrit
    have hl : (us.take (E.numTritsPerFlexTrit * (num / E.numTritsPerFlexTrit))).length =
        E.numTritsPerFlexTrit * (num / E.numTritsPerFlexTrit) := by
      rw [List.length_take]
      omega
    have hl' : ((us.take num).drop (E.numTritsPerFlexTrit * (num / E.numTritsPerFlexTrit))).length =
        num - E.numTritsPerFlexTrit * (num / E.numTritsPerFlexTrit) := by
      rw [List.length_drop, List.length_take]
      omega
    have hrest := insertTrits_pack (E := E)
      (blit ts start (us.take (E.numTritsPerFlexTrit * (num / E.numTritsPerFlexTrit))))
      (E.numTritsPerFlexTrit * (num / E.numTritsPerFlexTrit))
      (trits_blit hts (hus.take _)) hus hsrc hlen hus' (by rw [length_blit (by omega)]; exact hto) hm
    rw [length_blit (by omega)] at hrest
    rw [Nat.mul_comm (num / _), blit_pack ts hsrc ha (by omega) (by omega), hrest]
    have hbb := blit_blit ts (us.take (E.numTritsPerFlexTrit * (num / E.numTritsPerFlexTrit)))
      ((us.take num).drop (E.numTritsPerFlexTrit * (num / E.numTritsPerFlexTrit))) start
      (by omega)
    rw [hl] at hbb
    rw [hbb]
    congr 2
    have htake := List.take_append_drop (E.numTritsPerFlexTrit * (num / E.numTritsPerFlexTrit))
      (us.take num)
    rwa [List.take_take, Nat.min_eq_left hm] at htake
  have hshifted := insertTrits_pack ts 0 hts hus hsrc hlen hus' hto (Nat.zero_le _)
  rw [List.drop_zero, Nat.add_zero] at hshifted
  unfold flexTritsInsert
  rw [if_neg (by omega)]
  cases E with
  | one =>
    have hb := blit_pack (E := .one) ts (k := num) hsrc (Nat.mod_one start)
      (by show 1 * num ≤ _; omega) (by show start + 1 * num ≤ _; omega)
    simp only [Encoding.numTritsPerFlexTrit, Nat.div_one, Nat.one_mul] at hb
    simp only [hb]
  | three =>
    simp only [Prod.mk.injEq, and_true]
    split_ifs with ha
    · exact haligned ha
    · exact hshifted
  | four =>
    simp only [Prod.mk.injEq, and_true]
    split_ifs with ha
    · exact haligned ha
    · exact hshifted
  | five =>
    simp only [Prod.mk.injEq, and_true]
    split_ifs with ha
    · exact haligned ha
    · exact hshifted

/-! ## To trits and back -/

/-- Trytes give three trits each, whatever was packed into the last one. -/
theorem trytesToTrits_pack (hts : Trits ts) (h3 : 3 ∣ ts.length) :
    trytesToTrits (pack .three ts) = ts := by
  obtain ⟨k, hk⟩ := h3
  refine Eq.trans ?_ ((packing .three).flatMap_chunk (l := ts))
  show List.flatMap _ (List.map _ _) = _
  rw [List.flatMap_map]
  refine List.flatMap_congr fun j hj => ?_
  rw [List.mem_range, Packing.lt_cells] at hj
  have hfull : ((packing .three).chunk ts j).length = 3 := by
    have hlt : 3 * j < ts.length := hj
    rw [Packing.length_chunk]
    show min 3 (ts.length - 3 * j) = 3
    omega
  have hu := unpackByte_packByte (E := .three) (trits_chunk hts j) hfull.le
  rw [hfull, unpackByte_three] at hu
  rw [packing_enc, hu]
  exact List.append_nil _

/-- Bytes are unpacked only as far as their trits belong to the number asked for. -/
theorem bytesToTrits_pack (hts : Trits ts) : bytesToTrits (pack .five ts) ts.length = ts := by
  refine Eq.trans ?_ ((packing .five).flatMap_chunk (l := ts))
  rw [bytesToTrits, length_pack, numFlexTritsForTrits_eq]
  refine List.flatMap_congr fun j hj => ?_
  rw [List.mem_range, Packing.lt_cells] at hj
  have hlt : 5 * j < ts.length := hj
  have hl : ((packing .five).chunk ts j).length = min 5 (ts.length - 5 * j) :=
    (packing .five).length_chunk
  have hu := unpackByte_packByte (E := .five) (trits_chunk hts j) (packing .five).length_chunk_le
  rw [unpackByte_five] at hu
  have htake : ∀ b n, n ≤ 5 → byteToTrits b n = (byteToTrits b 5).take n := by
    intro b n hn
    rw [byteToTrits, byteToTrits, List.take_take, Nat.min_eq_left hn]
  rw [getD_pack hj, htake _ _ (by omega), hu, List.take_append_of_le_length (by omega),
    List.take_of_length_le (by omega)]

theorem blit_memset {α : Type} {l src : List α} {v : α} (h : src.length ≤ l.length) :
    blit (memset l v src.length) 0 src = blit l 0 src := by
  symm
  apply eq_blit_of_getElem? (by rw [length_memset h]; exact h)
  · intro k hk
    rw [getElem?_blit (by omega), if_pos (by omega), Nat.sub_zero]
  · intro k hk
    rw [getElem?_blit (by omega), if_neg (by omega), memset,
      getElem?_blit (by rw [List.length_replicate]; omega), if_neg (by
        rw [List.length_replicate]; omega)]

theorem take_of_start {α : Type} {l m : List α} (h : l <+: m) : m.take l.length = l := by
  obtain ⟨t, rfl⟩ := h
  exact List.take_left

theorem pack_one (ts : List ℤ) : pack .one ts = ts.map Int8.ofInt := by
  apply List.ext_getElem?
  intro k
  rw [pack, Packing.getElem?_pack, List.getElem?_map]
  show (if 1 * k < ts.length then _ else _) = _
  rw [Nat.one_mul]
  split_ifs with hk
  · have hc : ((packing .one).chunk ts k)[0]? = ts[1 * k + 0]? :=
      (packing .one).getElem?_chunk (by decide)
    rw [Nat.one_mul, Nat.add_zero, List.getElem?_eq_getElem hk] at hc
    rw [List.getElem?_eq_getElem hk]
    show some (Int8.ofInt (List.getD _ 0 0)) = _
    rw [List.getD_eq_getElem?_getD, hc]
    rfl
  · rw [List.getElem?_eq_none (by omega)]
    rfl

theorem map_toInt_pack (hts : Trits ts) : (pack .one ts).map Int8.toInt = ts := by
  rw [pack_one, List.map_map]
  refine (List.map_congr_left fun t ht => ?_).trans (List.map_id ts)
  rcases hts t ht with rfl | rfl | rfl <;> decide

/-- **Unpacking.** Three trits to a byte are written by the whole byte, so there the number of
trits has to be a multiple of three. -/
theorem flexTritsToTrits_pack (trits : List ℤ) (len : ℕ) (hts : Trits ts) (hsrc : pack E ts <+: src)
    (h0 : ts.length ≠ 0) (h3 : E = .three → 3 ∣ ts.length) (hlen : ts.length ≤ len)
    (hto : ts.length ≤ trits.length) :
    (flexTritsToTrits E trits ts.length src len ts.length).1 = blit trits 0 ts := by
  have htake : src.take (E.numFlexTritsForTrits ts.length) = pack E ts := by
    rw [← length_pack]
    exact take_of_start hsrc
  unfold flexTritsToTrits
  rw [if_neg (by omega), ← blit_memset (v := 0) hto]
  cases E with
  | one => simp only [htake, map_toInt_pack hts]
  | three => simp only [htake, trytesToTrits_pack hts (h3 rfl)]
  | four =>
    show List.foldl _ _ _ = _
    rw [foldl_set_eq_blit _ (by rw [length_memset hto]; exact hto)]
    congr 1
    apply List.ext_getElem?
    intro k
    rcases Nat.lt_or_ge k ts.length with hk | hk
    · rw [List.getElem?_map, List.getElem?_range hk, Option.map_some,
        flexTritsAt_pack hts hsrc hk (by omega), List.getD_eq_getElem?_getD,
        List.getElem?_eq_getElem hk, Option.getD_some]
    · rw [List.getElem?_eq_none (by simpa using hk), List.getElem?_eq_none hk]
  | five => simp only [htake, bytesToTrits_pack hts]

/-- An array of nulls is packed zeros. -/
theorem replicate_null (E : Encoding) (n : ℕ) :
    List.replicate (E.numFlexTritsForTrits n) E.nullValue = pack E (List.replicate n 0) := by
  have hz : ∀ j, packByte E ((packing E).chunk (List.replicate n 0) j) = E.nullValue := by
    intro j
    have hs : ∀ k ≤ E.numTritsPerFlexTrit, packByte E (List.replicate k 0) = E.nullValue := by
      cases E <;> decide
    rw [Packing.chunk, List.drop_replicate, List.take_replicate]
    exact hs _ (Nat.min_le_left _ _)
  rw [numFlexTritsForTrits_eq]
  apply List.ext_getElem?
  intro k
  rw [pack, Packing.getElem?_pack, packing_enc, hz, List.getElem?_replicate, List.length_replicate]
  simp only [Packing.lt_cells]

/-- Setting a trit leaves what stands behind the packed trits alone. -/
theorem flexTritsSetAt_four_append {t : ℤ} (rest : List FlexTrit) (hts : Trits ts) (ht : IsTrit t)
    (hi : i < ts.length) :
    flexTritsSetAt .four (pack .four ts ++ rest) ts.length i t = pack .four (ts.set i t) ++ rest := by
  have hcell : i >>> 2 < (pack .four ts).length := by
    rw [length_pack, Encoding.numFlexTritsForTrits, Nat.shiftRight_eq_div_pow,
      Nat.shiftRight_eq_div_pow]
    omega
  have hset := flexTritsSetAt_pack (E := .four) hts ht hi
  unfold flexTritsSetAt at hset ⊢
  rw [if_neg (by omega)] at hset ⊢
  simp only at hset ⊢
  rw [getD_of_start (List.prefix_append _ rest) hcell, List.set_append_left _ _ hcell, hset]

/-- The loop that packs four trits to a byte, over an array of nulls. -/
theorem foldl_flexTritsSetAt_four (rest : List FlexTrit) (hts : Trits ts) {n : ℕ}
    (hn : n ≤ ts.length) :
    (List.range n).foldl
        (fun dst i => flexTritsSetAt .four dst ts.length i (ts.getD i 0))
        (pack .four (List.replicate ts.length 0) ++ rest) =
      pack .four (blit (List.replicate ts.length 0) 0 (ts.take n)) ++ rest := by
  induction n with
  | zero => simp
  | succ n ih =>
    have hl : (ts.take n).length = n := by
      rw [List.length_take]
      omega
    have hb : (blit (List.replicate ts.length 0) 0 (ts.take n)).length = ts.length := by
      rw [length_blit, List.length_replicate]
      rw [List.length_replicate]
      omega
    have hset := flexTritsSetAt_four_append (t := ts.getD n 0) (i := n) rest
      (trits_blit (i := 0) (trits_replicate ts.length) (hts.take n)) (hts.getD n) (by omega)
    rw [hb] at hset
    have hnext : ts.take n ++ [ts.getD n 0] = ts.take (n + 1) := by
      rw [List.getD_eq_getElem?_getD, List.getElem?_eq_getElem (by omega), Option.getD_some,
        List.take_append_getElem]
    rw [List.range_succ, List.foldl_append, ih (by omega), List.foldl_cons, List.foldl_nil, hset,
      set_blit_length hl (by rw [List.length_replicate]; omega), hnext]

/-- **Packing.** -/
theorem flexTritsFromTrits_pack (dst : List FlexTrit) (trits : List ℤ) (len : ℕ) (hts : Trits ts)
    (htr : trits.take ts.length = ts)
    (h0 : ts.length ≠ 0) (hlen : ts.length ≤ len)
    (hd : E.numFlexTritsForTrits ts.length ≤ dst.length) :
    (flexTritsFromTrits E dst ts.length trits len ts.length).1 = blit dst 0 (pack E ts) := by
  have hmem : blit (memset dst E.nullValue (E.numFlexTritsForTrits ts.length)) 0 (pack E ts) =
      blit dst 0 (pack E ts) := by
    rw [← length_pack E ts]
    exact blit_memset (by rw [length_pack]; exact hd)
  unfold flexTritsFromTrits
  rw [if_neg (by omega), ← hmem]
  cases E with
  | one => simp only [htr, pack_one]
  | three =>
    simp only [htr]
    congr 1
  | four =>
    have hget : ∀ i < ts.length, trits.getD i 0 = ts.getD i 0 := by
      intro i hi
      conv_rhs => rw [← htr]
      rw [List.getD_eq_getElem?_getD, List.getD_eq_getElem?_getD, List.getElem?_take_of_lt hi]
    have hnull : memset dst Encoding.four.nullValue (Encoding.four.numFlexTritsForTrits ts.length) =
        pack .four (List.replicate ts.length 0) ++
          dst.drop (Encoding.four.numFlexTritsForTrits ts.length) := by
      rw [memset, replicate_null, blit, List.take_zero, List.nil_append, length_pack,
        List.length_replicate, Nat.zero_add]
    show List.foldl _ _ _ = _
    rw [hnull, List.foldl_ext _ _ _ fun d i hi => by rw [hget i (List.mem_range.mp hi)],
      foldl_flexTritsSetAt_four _ hts le_rfl, List.take_length, blit_full (by simp), blit,
      List.take_zero, List.nil_append, Nat.zero_add, length_pack, List.drop_left' (by simp)]
  | five =>
    simp only [htr]
    congr 1

end Trinary

end Entangled
