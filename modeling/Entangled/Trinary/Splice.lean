import Entangled.Trinary.Slice
import Mathlib.Data.List.Infix
/-!
# Slicing and splicing

What `flex_trits_slice`, `flex_trits_insert` and `flex_trits_insert_from_pos` do to the trits of an
array, in every encoding. An array takes whole bytes, whose last one may hold trits behind the end
of the array: a slice does not let them through, and an insertion leaves them as they are.
-/

namespace Entangled

namespace Trinary

open Ternary

/-- The loop of `flex_trits_insert_from_pos` over the trits `first` to `last`. -/
def copyTrits (E : Encoding) (dst : List FlexTrit) (dstLen : ℕ) (src : List FlexTrit)
    (srcLen srcStart dstStart first last : ℕ) : List FlexTrit :=
  (List.range' first (last - first)).foldl
    (fun dst i => flexTritsSetAt E dst dstLen (dstStart + i)
      (flexTritsAt E src srcLen (srcStart + i))) dst

/-- `flex_trits_insert_from_pos`: the destination and the number of trits. -/
def flexTritsInsertFromPos (E : Encoding) (dst : List FlexTrit) (dstLen : ℕ) (src : List FlexTrit)
    (srcLen srcStart dstStart numTrits : ℕ) : List FlexTrit × ℕ :=
  if numTrits = 0 ∨ srcLen < numTrits ∨ dstLen < numTrits ∨ srcLen ≤ srcStart ∨
      srcLen < srcStart + numTrits ∨ dstLen ≤ dstStart ∨ dstLen < dstStart + numTrits then (dst, 0)
  else
    let w := E.numTritsPerFlexTrit
    let dst := match E with
      | .one => blit dst dstStart ((src.drop srcStart).take numTrits)
      | _ =>
        if w ≤ numTrits ∧ srcStart % w = dstStart % w then
          let headNumTrits := (w - srcStart % w) % w
          let dst := copyTrits E dst dstLen src srcLen srcStart dstStart 0 headNumTrits
          let bodyNumBytes := (numTrits - headNumTrits) / w
          let dst := blit dst ((dstStart + headNumTrits) / w)
            ((src.drop ((srcStart + headNumTrits) / w)).take bodyNumBytes)
          copyTrits E dst dstLen src srcLen srcStart dstStart (headNumTrits + bodyNumBytes * w)
            numTrits
        else copyTrits E dst dstLen src srcLen srcStart dstStart 0 numTrits
    (dst, numTrits)

/-! ## Arrays -/

/-- The trits that the bytes of `len` trits have room for. -/
def room (E : Encoding) (len : ℕ) : ℕ := E.numTritsPerFlexTrit * E.numFlexTritsForTrits len

/-- An array of `len` trits: whole bytes, each one that of trits. -/
def IsArray (E : Encoding) (len : ℕ) (bytes : List FlexTrit) : Prop :=
  ∃ ts, Trits ts ∧ ts.length = room E len ∧ bytes = pack E ts

/-- The trits of an array, as `flex_trits_at` reads them. -/
def decoded (E : Encoding) (len : ℕ) (bytes : List FlexTrit) : List ℤ :=
  (List.range len).map (flexTritsAt E bytes len)

/-- The unused trits of the last byte are null. -/
def NullRest (E : Encoding) (len : ℕ) (bytes : List FlexTrit) : Prop :=
  ∀ i, len ≤ i → i < room E len → flexTritsAt E bytes (room E len) i = 0

variable {E : Encoding} {ts us : List ℤ} {src dst : List FlexTrit} {i len len' start num : ℕ}
variable {srcStart dstStart first last : ℕ}

theorem le_room (E : Encoding) (len : ℕ) : len ≤ room E len := by
  rw [room, numFlexTritsForTrits_eq]
  exact (packing E).le_mul_cells len

/-- The bytes of the room are those of the array. -/
theorem numFlexTritsForTrits_room (E : Encoding) (len : ℕ) :
    E.numFlexTritsForTrits (room E len) = E.numFlexTritsForTrits len := by
  rw [room, numFlexTritsForTrits_eq E (_ * _)]
  exact (packing E).cells_mul _

theorem map_getD_range (l : List ℤ) (h : start + num ≤ l.length) :
    (List.range num).map (fun i => l.getD (start + i) 0) = (l.drop start).take num := by
  apply List.ext_getElem
  · rw [List.length_map, List.length_range, List.length_take, List.length_drop]
    omega
  · intro i hi hi'
    rw [List.length_map, List.length_range] at hi
    simp only [List.getElem_map, List.getElem_range, List.getElem_take, List.getElem_drop,
      List.getD_eq_getElem?_getD]
    rw [List.getElem?_eq_getElem (by omega), Option.getD_some]

/-- **Decoding** gives the trits that were packed, whatever stands behind the array. -/
theorem decoded_start (hts : Trits ts) (hsrc : pack E ts <+: src) (h : len ≤ ts.length) :
    decoded E len src = ts.take len := by
  have hget : ∀ i ∈ List.range len, flexTritsAt E src len i = ts.getD (0 + i) 0 := by
    intro i hi
    have hlt := List.mem_range.mp hi
    rw [flexTritsAt_pack hts hsrc (by omega) hlt, Nat.zero_add]
  rw [decoded, List.map_congr_left hget, map_getD_range ts (by omega), List.drop_zero]

theorem decoded_pack (hts : Trits ts) (h : len ≤ ts.length) :
    decoded E len (pack E ts) = ts.take len := decoded_start hts List.prefix_rfl h

theorem nullRest_iff (hts : Trits ts) (hl : ts.length = room E len) :
    NullRest E len (pack E ts) ↔ ∀ i, len ≤ i → i < room E len → ts.getD i 0 = 0 := by
  refine forall_congr' fun i => forall_congr' fun _ => forall_congr' fun hi => ?_
  rw [flexTritsAt_pack hts List.prefix_rfl (by omega) hi]

/-- A packed list is that of the list with zeros up to the end of the last byte. -/
theorem pack_fill (hts : Trits ts) :
    pack E (ts ++ List.replicate (room E ts.length - ts.length) 0) = pack E ts := by
  rw [room, numFlexTritsForTrits_eq]
  exact (packing E).pack_fill hts

theorem take_blit (h : start + us.length ≤ len) (hts : len ≤ ts.length) :
    (blit ts start us).take len = blit (ts.take len) start us := by
  apply List.ext_getElem?
  intro k
  have htake : (ts.take len).length = len := by
    rw [List.length_take]
    omega
  rw [List.getElem?_take, getElem?_blit (by omega), getElem?_blit (by omega), List.getElem?_take]
  split_ifs <;> first | rfl | omega

/-! ## The length of an array -/

/-- Setting a trit asks of the length only that the trit is within. -/
theorem flexTritsSetAt_len (dst : List FlexTrit) (t : ℤ) (h : i < len) (h' : i < len') :
    flexTritsSetAt E dst len i t = flexTritsSetAt E dst len' i t := by
  unfold flexTritsSetAt
  rw [if_neg (Nat.not_le.mpr h), if_neg (Nat.not_le.mpr h')]
  cases E with
  | one => rfl
  | three =>
    have hcell : ∀ n, i < n → ¬ Encoding.three.numFlexTritsForTrits n ≤ i / 3 := by
      intro n hn
      rw [Encoding.numFlexTritsForTrits]
      omega
    show setTritAt _ _ _ _ = setTritAt _ _ _ _
    unfold setTritAt
    dsimp only
    rw [if_neg (hcell len h), if_neg (hcell len' h')]
  | four => rfl
  | five => rfl

/-- A slice asks of the length only its bytes. -/
theorem flexTritsSlice_len (dst src : List FlexTrit) (toLen : ℕ) (h : start + num ≤ len)
    (h' : start + num ≤ len') (hn : E.numFlexTritsForTrits len = E.numFlexTritsForTrits len') :
    flexTritsSlice E dst toLen src len start num =
      flexTritsSlice E dst toLen src len' start num := by
  have hlen : len < start + num ↔ len' < start + num := by omega
  unfold flexTritsSlice
  simp only [hlen]
  cases E with
  | one => rfl
  | three => simp only [sliceTrits, hn]
  | four => simp only [sliceBits, hn]
  | five => simp only [sliceTrits, hn]

theorem flexTritsInsert_len (dst src : List FlexTrit) (h : start + num ≤ len)
    (h' : start + num ≤ len') (srcLen : ℕ) :
    flexTritsInsert E dst len src srcLen start num =
      flexTritsInsert E dst len' src srcLen start num := by
  rcases Nat.eq_zero_or_pos num with rfl | hpos
  · rw [flexTritsInsert, flexTritsInsert, if_pos (.inl rfl), if_pos (.inl rfl)]
  have hinsert : ∀ first dst, insertTrits E dst len src srcLen start first num =
      insertTrits E dst len' src srcLen start first num := by
    intro first dst
    unfold insertTrits
    refine List.foldl_ext _ _ _ fun d i hi => flexTritsSetAt_len d _ ?_ ?_ <;>
    · rw [List.mem_range'_1] at hi
      omega
  have hcond : (num = 0 ∨ srcLen < num ∨ len < num ∨ len ≤ start ∨ len < start + num) ↔
      num = 0 ∨ srcLen < num ∨ len' < num ∨ len' ≤ start ∨ len' < start + num := by omega
  unfold flexTritsInsert
  simp only [hcond, hinsert]

/-! ## Copying trit by trit -/

/-- **Setting a stretch of trits**, one by one. -/
theorem foldl_flexTritsSetAt_pack (f : ℕ → ℤ) (hf : ∀ i, IsTrit (f i)) (hts : Trits ts)
    (first n : ℕ) (hlen : start + first + n ≤ len) (hle : len ≤ ts.length) :
    (List.range' first n).foldl (fun dst i => flexTritsSetAt E dst len (start + i) (f i))
        (pack E ts) =
      pack E (blit ts (start + first) ((List.range' first n).map f)) := by
  induction n generalizing first ts with
  | zero => simp
  | succ n ih =>
    have hset := flexTritsSetAt_pack (E := E) hts (hf first) (by omega : start + first < ts.length)
    have hlt : start + first < len := by omega
    rw [List.range'_succ, List.foldl_cons,
      flexTritsSetAt_len _ _ hlt (by omega : start + first < ts.length), hset,
      ih (hts.set (hf first) _) (first + 1) (by omega) (by rw [List.length_set]; omega),
      ← blit_singleton (by omega)]
    have hjoin := blit_blit ts [f first] ((List.range' (first + 1) n).map f) (start + first)
      (by rw [List.length_singleton, List.length_map, List.length_range']; omega)
    rw [List.length_singleton] at hjoin
    exact congrArg _ hjoin

theorem copyTrits_pack (hts : Trits ts) (hus : Trits us) (hsrc : pack E us <+: src)
    (hfl : first ≤ last) (hs : srcStart + last ≤ len) (hus' : srcStart + last ≤ us.length)
    (hd : dstStart + last ≤ len') (hle : len' ≤ ts.length) :
    copyTrits E (pack E ts) len' src len srcStart dstStart first last =
      pack E (blit ts (dstStart + first) (((us.drop srcStart).take last).drop first)) := by
  have hread : ∀ d, ∀ i ∈ List.range' first (last - first),
      flexTritsSetAt E d len' (dstStart + i) (flexTritsAt E src len (srcStart + i)) =
        flexTritsSetAt E d len' (dstStart + i) (us.getD (srcStart + i) 0) := by
    intro d i hi
    rw [List.mem_range'_1] at hi
    rw [flexTritsAt_pack hus hsrc (by omega) (by omega)]
  have hmap : (List.range' first (last - first)).map (fun i => us.getD (srcStart + i) 0) =
      ((us.drop srcStart).take last).drop first := by
    have hrange := map_getD_range us (by omega : srcStart + first + (last - first) ≤ us.length)
    rw [List.range'_eq_map_range, List.map_map, List.drop_take, List.drop_drop, ← hrange]
    refine List.map_congr_left fun i _ => ?_
    rw [Function.comp_apply, Nat.add_assoc]
  rw [copyTrits, List.foldl_ext _ _ _ hread,
    foldl_flexTritsSetAt_pack _ (fun i => hus.getD _) hts first (last - first) (by omega) hle, hmap]

/-! ## The three functions on packed trits -/

/-- Packed trits written over the head of nulls. -/
theorem blit_null_pack (hts : Trits ts) (h : ts.length ≤ len) :
    blit (pack E (List.replicate (room E len) 0)) 0 (pack E ts) =
      pack E (ts ++ List.replicate (room E len - ts.length) 0) := by
  have hroom : room E ts.length ≤ room E len :=
    Nat.mul_le_mul_left _ (numFlexTritsForTrits_mono h)
  have hle := le_room E ts.length
  have hlen : (ts ++ List.replicate (room E ts.length - ts.length) 0).length =
      room E ts.length := by
    rw [List.length_append, List.length_replicate]
    omega
  -- the trits fill whole bytes once the last one is filled up
  have hwrite : blit (pack E (List.replicate (room E len) 0)) (0 / E.numTritsPerFlexTrit)
      ((pack E (ts ++ List.replicate (room E ts.length - ts.length) 0)).take
        (E.numFlexTritsForTrits ts.length)) =
      pack E (blit (List.replicate (room E len) 0) 0
        ((ts ++ List.replicate (room E ts.length - ts.length) 0).take
          (E.numTritsPerFlexTrit * E.numFlexTritsForTrits ts.length))) :=
    blit_pack _ List.prefix_rfl (Nat.zero_mod _) (by rw [hlen, room])
      (by rw [List.length_replicate, Nat.zero_add]; exact hroom)
  rw [List.take_of_length_le (by rw [length_pack, hlen, numFlexTritsForTrits_room]), Nat.zero_div,
    ← room, List.take_of_length_le hlen.le, pack_fill hts] at hwrite
  rw [hwrite, blit, List.take_zero, List.nil_append, Nat.zero_add, hlen, List.drop_replicate,
    List.append_assoc, List.replicate_append_replicate]
  congr 3
  omega

/-- **A slice**, and nulls up to the end of the destination. -/
theorem flexTritsSlice_array {toLen : ℕ} (hus : Trits us) (hl : us.length = room E len)
    (h0 : num ≠ 0) (hto : num ≤ toLen) (h : start + num ≤ len)
    (hd : dst.length = E.numFlexTritsForTrits toLen) :
    (flexTritsSlice E dst toLen (pack E us) len start num).1 =
      pack E ((us.drop start).take num ++ List.replicate (room E toLen - num) 0) := by
  have hle := le_room E len
  have hsl : ((us.drop start).take num).length = num := by
    rw [List.length_take, List.length_drop]
    omega
  -- the destination is cleared, and the slice written over its first bytes
  have hnull : memset dst E.nullValue (E.numFlexTritsForTrits toLen) =
      pack E (List.replicate (room E toLen) 0) := by
    rw [← replicate_null, numFlexTritsForTrits_room, memset,
      blit_full (by rw [List.length_replicate, hd])]
  have hwrite := blit_null_pack (E := E) ((hus.drop start).take num) (hsl.le.trans hto)
  rw [hsl] at hwrite
  rw [flexTritsSlice_len dst _ toLen h (by omega : start + num ≤ us.length)
      (by rw [hl, numFlexTritsForTrits_room]), flexTritsSlice_pack hus h0 hto (by omega) hd.ge]
  dsimp only
  rw [hnull, hwrite]

/-- **An insertion** writes over the stretch, whatever the rest of the last byte holds. -/
theorem flexTritsInsert_array {srcLen : ℕ} (hts : Trits ts) (hus : Trits us)
    (hsrc : pack E us <+: src) (hlen : num ≤ srcLen) (hus' : num ≤ us.length)
    (hto : start + num ≤ len) (hle : len ≤ ts.length) :
    (flexTritsInsert E (pack E ts) len src srcLen start num).1 =
      pack E (blit ts start (us.take num)) := by
  rcases Nat.eq_zero_or_pos num with rfl | hpos
  · rw [flexTritsInsert, if_pos (.inl rfl), List.take_zero, blit_nil]
  · rw [flexTritsInsert_len _ _ hto (by omega : start + num ≤ ts.length),
      flexTritsInsert_pack srcLen start hts hus hsrc (by omega) hlen hus' (by omega)]

/-- Behind the head a whole byte begins. -/
theorem add_head_mod (E : Encoding) (s : ℕ) :
    (s + (E.numTritsPerFlexTrit - s % E.numTritsPerFlexTrit) % E.numTritsPerFlexTrit) %
        E.numTritsPerFlexTrit = 0 ∧
      (E.numTritsPerFlexTrit - s % E.numTritsPerFlexTrit) % E.numTritsPerFlexTrit <
        E.numTritsPerFlexTrit := by
  cases E <;> simp only [Encoding.numTritsPerFlexTrit] <;> omega

/-- Three stretches of one list, written one behind the other. -/
theorem blit_three {l : List ℤ} {d a b n : ℕ} (hab : a + b ≤ n) (hl : n ≤ l.length)
    (hts : d + n ≤ ts.length) :
    blit (blit (blit ts d (l.take a)) (d + a) ((l.drop a).take b)) (d + (a + b))
      ((l.take n).drop (a + b)) = blit ts d (l.take n) := by
  have ha : (l.take a).length = a := by
    rw [List.length_take]
    omega
  have hb : ((l.drop a).take b).length = b := by
    rw [List.length_take, List.length_drop]
    omega
  have hc : ((l.take n).drop (a + b)).length = n - (a + b) := by
    rw [List.length_drop, List.length_take]
    omega
  have hfirst := blit_blit ts (l.take a) ((l.drop a).take b) d (by omega)
  have hsecond := blit_blit ts (l.take (a + b)) ((l.take n).drop (a + b)) d
    (by rw [hc, List.length_take]; omega)
  rw [ha, ← List.take_add] at hfirst
  have htake : (l.take (a + b)).length = a + b := by
    rw [List.length_take]
    omega
  have hall := List.take_append_drop (a + b) (l.take n)
  rw [List.take_take, Nat.min_eq_left hab] at hall
  rw [htake, hall] at hsecond
  rw [hfirst, hsecond]

/-- **An insertion from a position** of the source. Where both positions stand at the same trit of a
byte, that is head, body and tail. -/
theorem flexTritsInsertFromPos_array {srcLen dstLen : ℕ} (hts : Trits ts) (hus : Trits us)
    (hsrc : pack E us <+: src) (hs : srcStart + num ≤ srcLen) (hus' : srcLen ≤ us.length)
    (hd : dstStart + num ≤ dstLen) (hts' : dstLen ≤ ts.length) :
    (flexTritsInsertFromPos E (pack E ts) dstLen src srcLen srcStart dstStart num).1 =
      pack E (blit ts dstStart ((us.drop srcStart).take num)) := by
  rcases Nat.eq_zero_or_pos num with rfl | hpos
  · rw [flexTritsInsertFromPos, if_pos (.inl rfl), List.take_zero, blit_nil]
  have hone := copyTrits_pack hts hus hsrc (Nat.zero_le num) hs (by omega) hd hts'
  rw [Nat.add_zero, List.drop_zero] at hone
  -- whole bytes from a place where both arrays have one
  have hbytes : ∀ (ts' : List ℤ) (h b : ℕ), ts'.length = ts.length →
      (srcStart + h) % E.numTritsPerFlexTrit = 0 → (dstStart + h) % E.numTritsPerFlexTrit = 0 →
      h + E.numTritsPerFlexTrit * b ≤ num →
      blit (pack E ts') ((dstStart + h) / E.numTritsPerFlexTrit)
          ((src.drop ((srcStart + h) / E.numTritsPerFlexTrit)).take b) =
        pack E (blit ts' (dstStart + h)
          (((us.drop srcStart).drop h).take (E.numTritsPerFlexTrit * b))) := by
    intro ts' h b hl hsh hdh hb
    have hq : E.numTritsPerFlexTrit * ((srcStart + h) / E.numTritsPerFlexTrit) = srcStart + h :=
      Nat.mul_div_cancel' (Nat.dvd_of_mod_eq_zero hsh)
    have hdrop : pack E (us.drop (srcStart + h)) <+:
        src.drop ((srcStart + h) / E.numTritsPerFlexTrit) := by
      have hpack := (packing E).pack_drop us ((srcStart + h) / E.numTritsPerFlexTrit)
      rw [packing_width, hq] at hpack
      rw [pack, ← hpack]
      exact List.IsPrefix.drop hsrc _
    rw [List.drop_drop]
    exact blit_pack ts' hdrop hdh (by rw [List.length_drop]; omega) (by omega)
  have haligned : E.numTritsPerFlexTrit ≤ num →
      srcStart % E.numTritsPerFlexTrit = dstStart % E.numTritsPerFlexTrit →
      ∀ h b, h = (E.numTritsPerFlexTrit - srcStart % E.numTritsPerFlexTrit) %
        E.numTritsPerFlexTrit → b = (num - h) / E.numTritsPerFlexTrit →
      copyTrits E (blit (copyTrits E (pack E ts) dstLen src srcLen srcStart dstStart 0 h)
          ((dstStart + h) / E.numTritsPerFlexTrit)
          ((src.drop ((srcStart + h) / E.numTritsPerFlexTrit)).take b))
          dstLen src srcLen srcStart dstStart (h + b * E.numTritsPerFlexTrit) num =
        pack E (blit ts dstStart ((us.drop srcStart).take num)) := by
    intro hw heq h b hh hb
    obtain ⟨hsh, hlt⟩ := add_head_mod E srcStart
    obtain ⟨hdh, -⟩ := add_head_mod E dstStart
    rw [← heq] at hdh
    rw [← hh] at hsh hlt hdh
    have hbody : E.numTritsPerFlexTrit * b ≤ num - h := by
      rw [hb]
      exact Nat.mul_div_le _ _
    have hdl : num ≤ (us.drop srcStart).length := by
      rw [List.length_drop]
      omega
    have hhead : copyTrits E (pack E ts) dstLen src srcLen srcStart dstStart 0 h =
        pack E (blit ts (dstStart + 0) (((us.drop srcStart).take h).drop 0)) :=
      copyTrits_pack hts hus hsrc (Nat.zero_le h) (by omega) (by omega) (by omega) hts'
    rw [Nat.add_zero, List.drop_zero] at hhead
    have hlhead : ((us.drop srcStart).take h).length = h := by
      rw [List.length_take]
      omega
    have hlbody : (((us.drop srcStart).drop h).take (E.numTritsPerFlexTrit * b)).length =
        E.numTritsPerFlexTrit * b := by
      rw [List.length_take, List.length_drop]
      omega
    have hl₁ : (blit ts dstStart ((us.drop srcStart).take h)).length = ts.length :=
      length_blit (by omega)
    have hl₂ : (blit (blit ts dstStart ((us.drop srcStart).take h)) (dstStart + h)
        (((us.drop srcStart).drop h).take (E.numTritsPerFlexTrit * b))).length = ts.length := by
      rw [length_blit (by omega), hl₁]
    have ht₁ := trits_blit (i := dstStart) hts ((hus.drop srcStart).take h)
    have ht₂ := trits_blit (i := dstStart + h) ht₁
      (((hus.drop srcStart).drop h).take (E.numTritsPerFlexTrit * b))
    rw [hhead, hbytes _ h b hl₁ hsh hdh (by omega), Nat.mul_comm b,
      copyTrits_pack ht₂ hus hsrc (by omega) hs (by omega) hd (by omega),
      blit_three (by omega) hdl (by omega)]
  unfold flexTritsInsertFromPos
  rw [if_neg (by omega)]
  cases E with
  | one =>
    have hone := hbytes ts 0 num rfl (Nat.mod_one _) (Nat.mod_one _)
      (by simp [Encoding.numTritsPerFlexTrit])
    simpa [Encoding.numTritsPerFlexTrit] using hone
  | three =>
    dsimp only
    split_ifs with hw
    · exact haligned hw.1 hw.2 _ _ rfl rfl
    · exact hone
  | four =>
    dsimp only
    split_ifs with hw
    · exact haligned hw.1 hw.2 _ _ rfl rfl
    · exact hone
  | five =>
    dsimp only
    split_ifs with hw
    · exact haligned hw.1 hw.2 _ _ rfl rfl
    · exact hone

/-! ## As lists -/

/-- What a function leaves of an array: trits of which nothing behind the end has changed. -/
theorem array_blit (hts : Trits ts) (hl : ts.length = room E len) (hus : Trits us)
    (h : start + us.length ≤ len) :
    decoded E len (pack E (blit ts start us)) = blit (decoded E len (pack E ts)) start us ∧
      (NullRest E len (pack E ts) → NullRest E len (pack E (blit ts start us))) := by
  have hle := le_room E len
  have hlen : (blit ts start us).length = ts.length := length_blit (by omega)
  have ht := trits_blit (i := start) hts hus
  refine ⟨?_, fun hnull => ?_⟩
  · rw [decoded_pack ht (by omega), decoded_pack hts (by omega), take_blit h (by omega)]
  · rw [nullRest_iff ht (hlen.trans hl)]
    rw [nullRest_iff hts hl] at hnull
    intro i hi hir
    rw [List.getD_eq_getElem?_getD, getElem?_blit (by omega), if_neg (by omega),
      ← List.getD_eq_getElem?_getD]
    exact hnull i hi hir

/-- **Slicing is list slicing and inserting is splicing**, in every encoding. -/
theorem slice_insert_spec (E : Encoding) {src : List FlexTrit} {len : ℕ}
    (hsrc : IsArray E len src) :
    (∀ (dst : List FlexTrit) (toLen start num : ℕ), dst.length = E.numFlexTritsForTrits toLen →
      num ≤ toLen → start + num ≤ len →
      let out := (flexTritsSlice E dst toLen src len start num).1
      (num = 0 → out = dst) ∧
        (num ≠ 0 → decoded E toLen out =
            ((decoded E len src).drop start).take num ++ List.replicate (toLen - num) 0 ∧
          NullRest E toLen out)) ∧
    (∀ (dst : List FlexTrit) (toLen start num : ℕ), IsArray E toLen dst → num ≤ len →
      start + num ≤ toLen →
      let out := (flexTritsInsert E dst toLen src len start num).1
      decoded E toLen out = blit (decoded E toLen dst) start ((decoded E len src).take num) ∧
        (NullRest E toLen dst → NullRest E toLen out)) ∧
    ∀ (dst : List FlexTrit) (dstLen srcStart dstStart num : ℕ), IsArray E dstLen dst →
      srcStart + num ≤ len → dstStart + num ≤ dstLen →
      let out := (flexTritsInsertFromPos E dst dstLen src len srcStart dstStart num).1
      decoded E dstLen out =
          blit (decoded E dstLen dst) dstStart (((decoded E len src).drop srcStart).take num) ∧
        (NullRest E dstLen dst → NullRest E dstLen out) := by
  obtain ⟨us, hus, hul, rfl⟩ := hsrc
  have hle := le_room E len
  have hdec : decoded E len (pack E us) = us.take len := decoded_pack hus (by omega)
  have hcut : ∀ start num, start + num ≤ len →
      ((decoded E len (pack E us)).drop start).take num = (us.drop start).take num := by
    intro start num h
    rw [hdec, List.drop_take, List.take_take, Nat.min_eq_left (by omega)]
  refine ⟨fun dst toLen start num hd hto h => ?_, fun dst toLen start num hdst hlen hto => ?_,
    fun dst dstLen srcStart dstStart num hdst hs hd => ?_⟩
  · refine ⟨fun h0 => ?_, fun h0 => ?_⟩
    · rw [flexTritsSlice, if_pos (.inl h0)]
    · have hroom := le_room E toLen
      have ht : Trits ((us.drop start).take num ++ List.replicate (room E toLen - num) 0) :=
        trits_append.mpr ⟨(hus.drop start).take num, trits_replicate _⟩
      have hl : ((us.drop start).take num).length = num := by
        rw [List.length_take, List.length_drop]
        omega
      have hlen : ((us.drop start).take num ++ List.replicate (room E toLen - num) 0).length =
          room E toLen := by
        rw [List.length_append, hl, List.length_replicate]
        omega
      rw [flexTritsSlice_array hus hul h0 hto h hd, hcut start num h, nullRest_iff ht hlen,
        decoded_pack ht (by omega)]
      refine ⟨?_, fun i hi hir => ?_⟩
      · rw [List.take_append, hl, List.take_of_length_le (by omega), List.take_replicate]
        congr 2
        omega
      · rw [List.getD_eq_getElem?_getD, List.getElem?_append_right (by omega),
          List.getElem?_replicate_of_lt (by omega), Option.getD_some]
  · obtain ⟨ts, hts, htl, rfl⟩ := hdst
    have hroom := le_room E toLen
    have hcut' := hcut 0 num (by omega)
    rw [List.drop_zero, List.drop_zero] at hcut'
    rw [flexTritsInsert_array hts hus List.prefix_rfl hlen (by omega) hto (by omega), hcut']
    exact array_blit hts htl (hus.take num) (by rw [List.length_take]; omega)
  · obtain ⟨ts, hts, htl, rfl⟩ := hdst
    have hroom := le_room E dstLen
    rw [flexTritsInsertFromPos_array hts hus List.prefix_rfl hs (by omega) hd (by omega),
      hcut srcStart num hs]
    exact array_blit hts htl ((hus.drop srcStart).take num)
      (by rw [List.length_take, List.length_drop]; omega)

/-- The last two of five trits, four to a byte, come out of two bytes. -/
theorem slice_last_two :
    decoded .four 2 (flexTritsSlice .four [85] 2 (pack .four [1, -1, 0, 1, -1, 0, 0, 0]) 5 3 2).1 =
        ((decoded .four 5 (pack .four [1, -1, 0, 1, -1, 0, 0, 0])).drop 3).take 2 ++
          List.replicate (2 - 2) 0 ∧
      NullRest .four 2
        (flexTritsSlice .four [85] 2 (pack .four [1, -1, 0, 1, -1, 0, 0, 0]) 5 3 2).1 :=
  ((slice_insert_spec .four ⟨[1, -1, 0, 1, -1, 0, 0, 0], by decide, by decide, rfl⟩).1 [85] 2 3 2
    (by decide) le_rfl (by decide)).2 (by decide)

/-- A slice of one trit clears the other trit of its destination. -/
theorem slice_clears :
    decoded .one 2 (flexTritsSlice .one [1, 1] 2 [1] 1 0 1).1 = [1, 0] ∧
      blit (decoded .one 2 [1, 1]) 0 ((decoded .one 1 [1]).take 1) = [1, 1] := by
  decide

end Trinary

end Entangled
