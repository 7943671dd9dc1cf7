import Entangled.Kerl.Converter
import Entangled.Trinary.Packed
/-!
# The digest of a file

`digest_file` of `signed_files.c`: the file is read line by line, every line loses its last byte, is
spelled in trytes, two to a character, padded to whole blocks of 243 trits and absorbed block by
block. What Keccak is fed is the list of the blocks as bytes.

A character is a `char`, a file the list of its characters. The bytes that `kerl_absorb` finds on
its stack and the outcome of the allocations are a `Memory`, so nothing is assumed of either.
-/

namespace Entangled

namespace SignedFiles

open Kerl Trinary Ternary

/-- What the run of `digest_file` finds, line by line: the 48 bytes on the stack of `kerl_absorb`,
and whether the two calls of `realloc` give memory. -/
structure Memory where
  stack : ℕ → List UInt8
  length_stack : ∀ i, (stack i).length = 48
  alloc : ℕ → Bool

/-- The lines `getline` gives, each with its newline; the last one may have none. -/
def getlines : List Int8 → List (List Int8)
  | [] => []
  | c :: cs =>
    if c = 10 then [c] :: getlines cs
    else
      match getlines cs with
      | [] => [[c]]
      | line :: lines => (c :: line) :: lines

/-- `line[--read] = '\0'`: the last byte goes, whatever it is. -/
def strip (line : List Int8) : List Int8 := line.dropLast

/-- `ascii_to_trytes`, on a string without a NUL. -/
def asciiToTrytes (input : List Int8) : List Int8 :=
  input.flatMap fun c =>
    let dec := c.toInt
    let first := dec.tmod 27
    let second := (dec - first).tdiv 27
    [tryteAlphabet.getD first.toNat 0, tryteAlphabet.getD second.toNat 0]

/-- The size of the buffer of trits. -/
def tritsSize (read : ℕ) : ℕ := 243 * (read * 6 / 243 + 1)

/-- The trits of a line, over a buffer of zeros. -/
def lineTrits (line : List Int8) : List ℤ :=
  blit (List.replicate (tritsSize line.length) 0) 0 (trytesToTrits (asciiToTrytes line))

/-- `kerl_absorb`: the blocks it gives to `Keccak_HashUpdate`. The buffer of one block is what the
conversion of the next one finds. -/
def absorbBlocks : List UInt8 → ℕ → List ℤ → List (List UInt8)
  | _, 0, _ => []
  | bytes, n + 1, trits =>
    let bytes := convertTritsToBytes bytes (trits.take 243)
    bytes :: absorbBlocks bytes n (trits.drop 243)

/-- The loop of `digest_file`, from line `i` on; `none` is `RC_OOM`. -/
def digestLines (M : Memory) : ℕ → List (List Int8) → Option (List (List UInt8))
  | _, [] => some []
  | i, raw :: lines =>
    let line := strip raw
    if M.alloc i then
      (digestLines M (i + 1) lines).map fun blocks =>
        absorbBlocks (M.stack i) (tritsSize line.length / 243) (lineTrits line) ++ blocks
    else none

/-- `digest_file`, up to the sponge: the blocks Keccak is fed. -/
def digestFile (M : Memory) (file : List Int8) : Option (List (List UInt8)) :=
  digestLines M 0 (getlines file)

/-- `iota_file_signature_validate`: Keccak squeezes a digest from the blocks, and the signature is
checked against the digest. -/
def fileSignatureValidate {Digest Verdict : Type} (keccak : List (List UInt8) → Digest)
    (validateSignature : Digest → Verdict) (M : Memory) (file : List Int8) : Option Verdict :=
  (digestFile M file).map fun blocks => validateSignature (keccak blocks)

/-! ## Text -/

/-- A character of a text: a tab, or a printable one. -/
def TextChar (c : Int8) : Prop := c = 9 ∨ 32 ≤ c.toInt ∧ c.toInt ≤ 126

/-- A line of text, without its newline. -/
def TextLine (line : List Int8) : Prop := ∀ c ∈ line, TextChar c

/-- A file of ASCII text. -/
def TextFile (file : List Int8) : Prop := ∀ c ∈ file, c = 10 ∨ TextChar c

instance (c : Int8) : Decidable (TextChar c) := inferInstanceAs (Decidable (_ ∨ _))

instance (line : List Int8) : Decidable (TextLine line) := List.decidableBAll _ line

instance (file : List Int8) : Decidable (TextFile file) := List.decidableBAll _ file

/-- The code of the character at `j`; behind the end of the line it is zero. -/
def code (line : List Int8) (j : ℕ) : ℕ := (line.getD j 0).toInt.toNat

/-- The `i`-th letter a line is spelled with, as its place in the tryte alphabet: of every
character the low part, then the high one. -/
def letters (line : List Int8) (i : ℕ) : ℕ :=
  if i % 2 = 0 then code line (i / 2) % 27 else code line (i / 2) / 27

/-- How much of it goes into the block: the last letter of a block loses a trit. -/
def seen (line : List Int8) (i : ℕ) : ℕ :=
  if i % 81 = 80 then letters line i % 9 else letters line i

/-- The number of blocks of a line. -/
def rows (line : List Int8) : ℕ := line.length * 6 / 243 + 1

/-- What is seen of a line in its `b`-th block. -/
def row (line : List Int8) (b : ℕ) : List ℕ := (List.range 81).map fun j => seen line (81 * b + j)

/-- What is seen of a file of these lines. -/
def page (lines : List (List Int8)) : List (List ℕ) :=
  lines.flatMap fun line => (List.range (rows line)).map (row line)

variable {line line' : List Int8} {c : Int8} {i j b n : ℕ}

theorem page_cons (line : List Int8) (lines : List (List Int8)) :
    page (line :: lines) = (List.range (rows line)).map (row line) ++ page lines := rfl

theorem TextChar.code_pos (h : TextChar c) :
    c.toInt = 9 ∨ 32 ≤ c.toInt ∧ c.toInt ≤ 126 := by
  rcases h with rfl | h
  · exact .inl rfl
  · exact .inr h

theorem code_of_le (h : line.length ≤ j) : code line j = 0 := by
  rw [code, List.getD_eq_getElem?_getD, List.getElem?_eq_none h]
  rfl

/-- A character of a text line is a tab or has a high part. -/
theorem TextLine.code_spec (h : TextLine line) (hj : j < line.length) :
    code line j = 9 ∨ 32 ≤ code line j ∧ code line j ≤ 126 := by
  have hc := (h _ (List.getElem_mem hj)).code_pos
  rw [SignedFiles.code, List.getD_eq_getElem?_getD, List.getElem?_eq_getElem hj, Option.getD_some]
  omega

theorem TextLine.code_le (h : TextLine line) (j : ℕ) : SignedFiles.code line j ≤ 126 := by
  rcases Nat.lt_or_ge j line.length with hj | hj
  · have := h.code_spec hj
    omega
  · rw [code_of_le hj]
    omega

theorem letters_lt (h : TextLine line) (i : ℕ) : letters line i < 27 := by
  have := h.code_le (i / 2)
  unfold letters
  split_ifs <;> omega

theorem letters_odd (h : TextLine line) (hi : i % 2 = 1) : letters line i ≤ 4 := by
  have := h.code_le (i / 2)
  unfold letters
  rw [if_neg (by omega)]
  omega

theorem seen_lt (h : TextLine line) (i : ℕ) : seen line i < 27 := by
  have := letters_lt h i
  unfold seen
  split_ifs <;> omega

/-! ## Blocks of letters -/

/-- The trits of the letters `x 0`, `x 1` and so on. -/
def spell (n : ℕ) (x : ℕ → ℕ) : List ℤ := (List.range n).flatMap fun j => digits 3 (x j)

@[simp] theorem length_spell (n : ℕ) (x : ℕ → ℕ) : (spell n x).length = 3 * n := by
  rw [spell, List.length_flatMap]
  simp
  omega

theorem trits_spell (n : ℕ) (x : ℕ → ℕ) : Trits (spell n x) := by
  intro t ht
  obtain ⟨j, -, hj⟩ := List.mem_flatMap.mp ht
  exact trits_digits 3 _ t hj

theorem spell_add (m n : ℕ) (x : ℕ → ℕ) :
    spell (m + n) x = spell m x ++ spell n fun j => x (m + j) := by
  rw [spell, List.range_add, List.flatMap_append, List.flatMap_map, spell, spell]

theorem spell_zero {x : ℕ → ℕ} (h : ∀ j < n, x j = 0) : spell n x = List.replicate (3 * n) 0 := by
  induction n with
  | zero => rfl
  | succ n ih =>
    rw [spell_add, ih fun j hj => h j (by omega), Nat.mul_add, List.replicate_add]
    congr 1
    rw [spell, List.range_one, List.flatMap_singleton, h (n + 0) (by omega)]
    rfl

/-- The letters of a line are its trytes. -/
theorem trytesToTrits_asciiToTrytes (h : TextLine line) :
    trytesToTrits (asciiToTrytes line) = spell (2 * line.length) (letters line) := by
  induction line with
  | nil => rfl
  | cons c line ih =>
    have hline : TextLine line := fun a ha => h a (List.mem_cons_of_mem c ha)
    have hc := (h c List.mem_cons_self).code_pos
    obtain ⟨k, hk⟩ := Int.eq_ofNat_of_zero_le (show 0 ≤ c.toInt by omega)
    have hhead : code (c :: line) 0 = k := by
      show c.toInt.toNat = k
      rw [hk, Int.toNat_natCast]
    have htail : (fun j => letters (c :: line) (2 + j)) = letters line := by
      funext j
      have hcode : ∀ i, code (c :: line) (i + 1) = code line i := fun i => rfl
      unfold letters
      rw [show (2 + j) / 2 = j / 2 + 1 by omega, Nat.add_mod_left, hcode]
    have hfirst : (c.toInt.tmod 27).toNat = k % 27 := by
      rw [Int.tmod_eq_emod_of_nonneg (by omega)]
      omega
    have hsecond : ((c.toInt - c.toInt.tmod 27).tdiv 27).toNat = k / 27 := by
      rw [Int.tmod_eq_emod_of_nonneg (by omega), Int.tdiv_eq_ediv_of_nonneg (by omega)]
      omega
    have hsplit : trytesToTrits (asciiToTrytes (c :: line)) =
        (digits 3 ((k % 27 : ℕ) : ℤ) ++ digits 3 ((k / 27 : ℕ) : ℤ)) ++
          trytesToTrits (asciiToTrytes line) := by
      simp only [trytesToTrits, asciiToTrytes, List.flatMap_cons, List.flatMap_append, hfirst,
        hsecond, List.flatMap_nil, List.append_nil, tryteTrits,
        indexOfTryte_alphabet _ (show k % 27 < 27 by omega),
        indexOfTryte_alphabet _ (show k / 27 < 27 by omega)]
    rw [hsplit, ih hline, List.length_cons,
      show 2 * (line.length + 1) = 2 + 2 * line.length by omega, spell_add, htail]
    congr 1
    show _ = (digits 3 (letters (c :: line) 0 : ℕ)) ++
      ((digits 3 (letters (c :: line) 1 : ℕ)) ++ [])
    rw [List.append_nil]
    congr 2
    · rw [letters, if_pos (by decide), hhead]
    · rw [letters, if_neg (by decide), hhead]

/-- **The trits of a line**: its letters, and nulls to the end of the last block. -/
theorem lineTrits_eq (h : TextLine line) :
    lineTrits line = spell (81 * rows line) (letters line) := by
  have hfit : 2 * line.length ≤ 81 * rows line := by
    unfold rows
    omega
  have hsize : tritsSize line.length = 3 * (81 * rows line) := by
    unfold tritsSize rows
    omega
  have hzero : ∀ j < 81 * rows line - 2 * line.length, letters line (2 * line.length + j) = 0 := by
    intro j _
    rw [letters, code_of_le (by omega)]
    simp
  rw [lineTrits, trytesToTrits_asciiToTrytes h, hsize]
  conv_rhs => rw [← Nat.add_sub_cancel' hfit, spell_add, spell_zero hzero]
  rw [blit, List.take_zero, List.nil_append, length_spell, List.drop_replicate]
  congr 2
  omega

/-- Letters have the same trits where they are the same, and the same two lowest ones where they
agree modulo nine. -/
theorem digits_letter : ∀ a < 27, ∀ b < 27,
    (digits 3 (a : ℕ) = digits 3 (b : ℕ) ↔ a = b) ∧
      ((digits 3 (a : ℕ)).take 2 = (digits 3 (b : ℕ)).take 2 ↔ a % 9 = b % 9) := by
  decide

theorem spell_eq_iff {x y : ℕ → ℕ} (hx : ∀ j, x j < 27) (hy : ∀ j, y j < 27) :
    spell n x = spell n y ↔ ∀ j < n, x j = y j := by
  induction n with
  | zero => simp [spell]
  | succ n ih =>
    have hlast : spell 1 (fun j => x (n + j)) = spell 1 (fun j => y (n + j)) ↔ x n = y n := by
      show digits 3 (x n : ℕ) ++ [] = digits 3 (y n : ℕ) ++ [] ↔ _
      rw [List.append_nil, List.append_nil]
      exact (digits_letter _ (hx n) _ (hy n)).1
    rw [spell_add, spell_add, List.append_eq_append_iff_of_size_eq_left (by simp), ih, hlast,
      Nat.forall_lt_succ_right]

/-- What the first 242 trits of a block of letters say. -/
theorem take_spell_eq_iff {x y : ℕ → ℕ} (hx : ∀ j, x j < 27) (hy : ∀ j, y j < 27) :
    (spell 81 x).take 242 = (spell 81 y).take 242 ↔
      (∀ j < 80, x j = y j) ∧ x 80 % 9 = y 80 % 9 := by
  have hsplit : ∀ z : ℕ → ℕ,
      (spell 81 z).take 242 = spell 80 z ++ (digits 3 (z 80 : ℕ)).take 2 := by
    intro z
    rw [spell_add 80 1, List.take_append, List.take_of_length_le (by simp), length_spell]
    rfl
  rw [hsplit, hsplit, List.append_eq_append_iff_of_size_eq_left (by simp), spell_eq_iff hx hy,
    (digits_letter _ (hx 80) _ (hy 80)).2]

/-! ## The blocks of a text -/

/-- The bytes of a block of letters. -/
def encode (r : List ℕ) : List UInt8 :=
  convertTritsToBytes (List.replicate 48 0) (spell 81 fun j => r.getD j 0)

/-- One of the letters at the top is the high part of a character, the letter two below it as
well. -/
theorem legible_spell {x : ℕ → ℕ} (hx : ∀ j, x j < 27)
    (h : x 77 ≤ 4 ∧ x 79 ≤ 4 ∨ x 78 ≤ 4 ∧ x 80 % 9 ≤ 4) : Legible (spell 81 x) := by
  refine ⟨length_spell 81 x, trits_spell 81 x, ?_⟩
  have hthree : ∀ a < 27, shifted (digits 3 (a : ℕ)) = (a + 13) % 27 := by decide
  have htwo : ∀ a < 27, shifted ((digits 3 (a : ℕ)).take 2) = (a + 4) % 9 := by decide
  have htop : ((spell 81 x).take 242).drop 231 = digits 3 (x 77 : ℕ) ++ (digits 3 (x 78 : ℕ) ++
      (digits 3 (x 79 : ℕ) ++ (digits 3 (x 80 : ℕ)).take 2)) := by
    rw [spell_add 77 4, List.take_append, List.drop_append, length_spell,
      List.take_of_length_le (by simp), List.drop_eq_nil_of_le (by simp), length_spell]
    rfl
  have h77 := hx 77
  have h78 := hx 78
  have h79 := hx 79
  have h80 := hx 80
  rw [htop, shifted_append, shifted_append, shifted_append, hthree _ h77, hthree _ h78,
    hthree _ h79, htwo _ h80, length_digits, length_digits, length_digits]
  unfold LegibleTop
  omega

theorem legible_row (h : TextLine line) (b : ℕ) :
    Legible (spell 81 fun j => letters line (81 * b + j)) := by
  refine legible_spell (fun j => letters_lt h _) ?_
  rcases Nat.mod_two_eq_zero_or_one b with hb | hb
  · exact .inl ⟨letters_odd h (by omega), letters_odd h (by omega)⟩
  · exact .inr ⟨letters_odd h (by omega), (Nat.mod_le _ 9).trans (letters_odd h (by omega))⟩

theorem getD_row (hj : j < 81) : (row line b).getD j 0 = seen line (81 * b + j) := by
  rw [row, List.getD_eq_getElem?_getD, List.getElem?_map, List.getElem?_range hj]
  rfl

theorem row_getD_lt (h : TextLine line) (b j : ℕ) : (row line b).getD j 0 < 27 := by
  rcases Nat.lt_or_ge j 81 with hj | hj
  · rw [getD_row hj]
    exact seen_lt h _
  · rw [List.getD_eq_getElem?_getD, List.getElem?_eq_none (by rw [row]; simpa using hj)]
    decide

theorem seen_of_lt (hj : j < 80) : seen line (81 * b + j) = letters line (81 * b + j) := by
  rw [seen, if_neg (by omega)]

theorem seen_last : seen line (81 * b + 80) = letters line (81 * b + 80) % 9 := by
  rw [seen, if_pos (by omega)]

theorem legible_seen (h : TextLine line) (b : ℕ) :
    Legible (spell 81 fun j => (row line b).getD j 0) := by
  refine legible_spell (row_getD_lt h b) ?_
  rw [getD_row (by decide), getD_row (by decide), getD_row (by decide), getD_row (by decide),
    seen_of_lt (by decide), seen_of_lt (by decide), seen_of_lt (by decide), seen_last]
  rcases Nat.mod_two_eq_zero_or_one b with hb | hb
  · exact .inl ⟨letters_odd h (by omega), letters_odd h (by omega)⟩
  · refine .inr ⟨letters_odd h (by omega), ?_⟩
    rw [Nat.mod_mod]
    exact (Nat.mod_le _ 9).trans (letters_odd h (by omega))

/-- **A block of a line is converted to what is seen of it**, whatever is on the stack. -/
theorem convertTritsToBytes_letters {bytes : List UInt8} (hb : bytes.length = 48)
    (h : TextLine line) (b : ℕ) :
    convertTritsToBytes bytes (spell 81 fun j => letters line (81 * b + j)) =
      encode (row line b) := by
  rw [encode, convertTritsToBytes_eq_iff hb (by simp) (legible_row h b) (legible_seen h b),
    take_spell_eq_iff (fun j => letters_lt h _) (row_getD_lt h b), getD_row (by decide), seen_last,
    Nat.mod_mod]
  exact ⟨fun j hj => by rw [getD_row (by omega), seen_of_lt hj], rfl⟩

/-- What is seen of a block can be read off its bytes. -/
theorem encode_row_injective {b' : ℕ} (h : TextLine line) (h' : TextLine line')
    (heq : encode (row line b) = encode (row line' b')) : row line b = row line' b' := by
  rw [encode, encode, convertTritsToBytes_eq_iff (by simp) (by simp) (legible_seen h b)
    (legible_seen h' b'), take_spell_eq_iff (row_getD_lt h b) (row_getD_lt h' b')] at heq
  obtain ⟨hlow, hlast⟩ := heq
  refine List.map_congr_left fun j hj => ?_
  have hj81 := List.mem_range.mp hj
  rcases Nat.lt_or_ge j 80 with hj80 | hj80
  · have := hlow j hj80
    rwa [getD_row hj81, getD_row hj81] at this
  · obtain rfl : j = 80 := by omega
    rw [getD_row hj81, getD_row hj81, seen_last, seen_last, Nat.mod_mod, Nat.mod_mod] at hlast
    rw [seen_last, seen_last, hlast]

theorem absorbBlocks_spell {bytes : List UInt8} (hb : bytes.length = 48) (h : TextLine line)
    (n k : ℕ) :
    absorbBlocks bytes n (spell (81 * n) fun j => letters line (81 * k + j)) =
      (List.range n).map fun i => encode (row line (k + i)) := by
  induction n generalizing bytes k with
  | zero => rfl
  | succ n ih =>
    have hsplit : spell (81 * (n + 1)) (fun j => letters line (81 * k + j)) =
        spell 81 (fun j => letters line (81 * k + j)) ++
          spell (81 * n) fun j => letters line (81 * (k + 1) + j) := by
      rw [Nat.mul_add, Nat.add_comm, spell_add]
      simp only [Nat.mul_add, Nat.mul_one, Nat.add_assoc]
    have hlen := length_spell 81 fun j => letters line (81 * k + j)
    have hbytes := length_convertTritsToBytes hb (legible_row h k)
    rw [hsplit, absorbBlocks, List.take_left' hlen, List.drop_left' hlen]
    rw [ih hbytes, convertTritsToBytes_letters hb h, List.range_succ_eq_map, List.map_cons,
      List.map_map]
    simp only [Function.comp_def, Nat.succ_eq_add_one, Nat.add_zero, Nat.add_assoc, Nat.add_comm 1]

/-- **The blocks of a text**, where the digest is made at all. -/
theorem digestLines_eq {M : Memory} {lines : List (List Int8)} {blocks : List (List UInt8)}
    {i : ℕ} (h : ∀ raw ∈ lines, TextLine (strip raw)) (hd : digestLines M i lines = some blocks) :
    blocks = (page (lines.map strip)).map encode := by
  induction lines generalizing i blocks with
  | nil => exact (Option.some_inj.mp hd).symm
  | cons raw lines ih =>
    have hline := h raw List.mem_cons_self
    have hn : tritsSize (strip raw).length / 243 = rows (strip raw) :=
      Nat.mul_div_cancel_left _ (by decide)
    have hblocks := absorbBlocks_spell (M.length_stack i) hline (rows (strip raw)) 0
    simp only [Nat.mul_zero, Nat.zero_add] at hblocks
    rw [digestLines] at hd
    split_ifs at hd
    obtain ⟨rest, hrest, rfl⟩ := Option.map_eq_some_iff.mp hd
    rw [hn, lineTrits_eq hline, hblocks, ih (fun r hr => h r (List.mem_cons_of_mem raw hr)) hrest,
      List.map_cons, page_cons, List.map_append, List.map_map]
    rfl

end SignedFiles

end Entangled
