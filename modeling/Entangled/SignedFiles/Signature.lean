import Entangled.Milestone.Validate
import Entangled.Parallel.Sponge
import Entangled.Prototype.Iss
import Entangled.SignedFiles.LookAlike
import Mathlib.Data.Fin.VecNotation
import Mathlib.Tactic.FinCases
/-!
# The signature of a file

`validate_signature` of `signed_files.c`, with the first version of `iss.c.inc` over Curl and
`merkle_root`. The signature is a text: three lines of 2187 trytes each, the fragments, and a line
with the siblings of the leaf.

The siblings are folded in only if a fourth line is there. Without one the address of the leaf is
compared itself; lines behind the fourth are not looked at; and each line loses its last byte,
newline or not. `validated_full_iff` says from which texts on a signature that is accepted is one
for the whole path to the root.
-/

namespace Entangled

namespace SignedFiles

open Merkle Ternary Trinary Coordinator
open Prototype (CurlP CurlState hashChunk rehash_iterate)

/-! ## The code -/

/-- The codes `validate_signature` returns other than `RC_OK`. -/
inductive Refusal
  | failedToOpenFile
  | invalidSigFile
  deriving DecidableEq, Repr

/-- What the program has around its arrays: the rows that are read off beside
`TRYTES_TRITS_LUT`, and what comes of a run that leaves `siblings`. -/
structure Surroundings where
  row : ℕ → List ℤ
  length_row : ∀ k, (row k).length = 3
  overrun : Except Refusal Bool

section Code

variable (S : Surroundings) (E : Encoding) {σ : Type} (C : Curl σ)

/-- A row of the table, or what is beside it. -/
def lutRow (k : ℕ) : List ℤ := if k < 27 then tryteTrits k else S.row k

/-- `trytes_to_trits`, of any bytes. -/
def bytesToRows (line : List Int8) : List ℤ := line.flatMap fun c => lutRow S (indexOfTryte c)

/-- The loop of `iss_curl_sig_digest`, over the first `m` chunks. -/
def hashChunks (rounds : ℕ → ℕ) (m : ℕ) (p : List ℤ × σ) : List ℤ × σ :=
  (List.range m).foldl (fun p i =>
    let q := (rehash C)^[rounds i] (block 243 p.1 i, p.2)
    (blit p.1 (243 * i) q.1, q.2)) p

/-- `iss_curl_sig_digest`: the digest and the sponge. -/
def issCurlSigDigest (hash sig : List ℤ) (sigLen : ℕ) (c : σ) : List ℤ × σ :=
  let p := hashChunks C (fun i => sizeOfInt (hashTryteVal hash i - -13)) (sigLen / 243) (sig, c)
  ((C.squeeze (C.absorb p.2 (p.1.take sigLen)) 243).1, C.reset)

/-- The loop over the fragments, with the rounds that are left: the digests, the sponge and the
lines that are not read yet. -/
def fragmentLoop (normalizedDigest : List ℤ) : ℕ → ℕ → List (List Int8) → List ℤ × σ →
    Except Refusal ((List ℤ × σ) × List (List Int8))
  | 0, _, lines, p => .ok (p, lines)
  -- `getline` fails, and `i` stays below 3
  | _ + 1, _, [], _ => .error .invalidSigFile
  | left + 1, i, raw :: lines, p =>
    let line := strip raw
    if line.length ≠ 2187 then .error .invalidSigFile
    else
      let d := issCurlSigDigest C (normalizedDigest.drop (81 * i)) (bytesToRows S line)
        (3 * line.length) p.2
      fragmentLoop normalizedDigest left (i + 1) lines (p.1 ++ d.1, d.2)

/-- The comparison with the public key. -/
def compareRoot (publicKey : List FlexTrit) (root : List ℤ) : Except Refusal Bool :=
  .ok (decide (toTrits E 243 publicKey = root))

/-- `validate_signature` behind the fragments, with the lines that are left. Of `depth * 81` and
`depth * 243` only 32 bits are left. -/
def validateSiblings (publicKey : List FlexTrit) (depth : UInt32) (index : UInt64)
    (sigDigests : List ℤ × σ) (lines : List (List Int8)) : Except Refusal Bool :=
  let root := issCurlAddress C sigDigests.1 729 sigDigests.2
  match lines with
  -- no line is no error here: the siblings are left out
  | [] => compareRoot E publicKey root.1
  | raw :: _ =>
    let line := strip raw
    if line.length ≠ 81 * depth.toNat % 2 ^ 32 then .error .invalidSigFile
    else if 2 ^ 32 ≤ 243 * depth.toNat then S.overrun
    else compareRoot E publicKey
      (merkleRoot C root.1 (bytesToRows S line) depth.toNat index.toNat root.2).1

/-- `validate_signature`: what it writes to `valid`, or the code it returns. -/
def validateSignature (signature : Option (List Int8)) (publicKey : List FlexTrit) (depth : UInt32)
    (index : UInt64) (digest : {ts : List ℤ // ts.length = 243 ∧ Trits ts}) :
    Except Refusal Bool :=
  match signature with
  | none => .error .failedToOpenFile
  | some file =>
    match fragmentLoop S C (normalizeFlexHashToTrits E (pack E digest.1)) 3 0 (getlines file)
      ([], C.reset) with
    | .error refusal => .error refusal
    | .ok (sigDigests, lines) => validateSiblings S E C publicKey depth index sigDigests lines

end Code

/-! ## A full signature -/

section Scheme

variable {σ : Type} (C : Curl σ)

/-- The hash of two hashes, the first of them absorbed first. -/
def pairHash (first second : List ℤ) : List ℤ :=
  (C.squeeze (C.absorb (C.absorb C.reset first) second) 243).1

/-- **The fold along the bits** of an index, from the lowest up. -/
def foldAlong (siblings : List ℤ) (index n : ℕ) (hash : List ℤ) : List ℤ :=
  (List.range n).foldl (fun hash i =>
    if index.testBit i then pairHash C (block 243 siblings i) hash
    else pairHash C hash (block 243 siblings i)) hash

/-- The digest of a fragment: each chunk is hashed as often as its tryte is above -13. -/
def fragmentDigest (trytes : ℕ → ℤ) (fragment : List ℤ) : List ℤ :=
  hashChunk C ((mapBlocks 243 (fun j => (hashChunk C)^[(trytes j + 13).toNat]) 27 fragment).take 6561)

/-- The digests of three fragments under a normalized digest, 27 of its trytes for each. -/
def digests (normalizedDigest : List ℤ) (fragments : Fin 3 → List ℤ) : List ℤ :=
  let part (i : Fin 3) :=
    fragmentDigest C (fun j => hashTryteVal normalizedDigest (27 * i + j)) (fragments i)
  part 0 ++ part 1 ++ part 2

/-- **The address recovered** from the fragments. -/
def recoveredAddress (normalizedDigest : List ℤ) (fragments : Fin 3 → List ℤ) : List ℤ :=
  hashChunk C (digests C normalizedDigest fragments)

end Scheme

/-- A line of trytes. -/
def TryteLine (line : List Int8) : Prop := ∀ c ∈ line, c ∈ tryteAlphabet

/-- **A signature file**: three fragments of 2187 trytes and the siblings of a path. -/
structure SignatureFile (depth : ℕ) where
  fragments : Fin 3 → List Int8
  siblings : List Int8
  length_fragments : ∀ i, (fragments i).length = 2187
  tryteLine_fragments : ∀ i, TryteLine (fragments i)
  length_siblings : siblings.length = 81 * depth
  tryteLine_siblings : TryteLine siblings

/-- The text of it: every line ends with a newline. -/
def SignatureFile.text {depth : ℕ} (f : SignatureFile depth) : List Int8 :=
  f.fragments 0 ++ 10 :: (f.fragments 1 ++ 10 :: (f.fragments 2 ++ 10 :: (f.siblings ++ [10])))

/-- **A full signature** of a digest: the text is that of a signature file, and its path leads from
the recovered address to the public key. -/
def FullSignature {σ : Type} (C : Curl σ) (normalizedDigest publicKey : List ℤ)
    (depth index : ℕ) (file : List Int8) : Prop :=
  ∃ f : SignatureFile depth, file = f.text ∧
    publicKey = foldAlong C (trytesToTrits f.siblings) index depth
      (recoveredAddress C normalizedDigest fun i => trytesToTrits (f.fragments i))

/-- The text is not refused: its first three lines keep 2187 bytes each, and the fourth, if there is
one, as many as the siblings are said to have. -/
def Passes (file : List Int8) (depth : ℕ) : Prop :=
  ∃ l₀ l₁ l₂ rest, getlines file = l₀ :: l₁ :: l₂ :: rest ∧ (strip l₀).length = 2187 ∧
    (strip l₁).length = 2187 ∧ (strip l₂).length = 2187 ∧
    ∀ l ∈ rest.head?, (strip l).length = 81 * depth % 2 ^ 32

/-! ## From a reset sponge -/

section Scheme

variable {S : Surroundings} {E : Encoding} {σ : Type} {C : Curl σ}

theorem hashChunks_reset (rounds : ℕ → ℕ) (m : ℕ) (sig : List ℤ) :
    hashChunks C rounds m (sig, C.reset) =
      (mapBlocks 243 (fun i => (hashChunk C)^[rounds i]) m sig, C.reset) := by
  induction m with
  | zero => rfl
  | succ m ih =>
    have hstep : hashChunks C rounds (m + 1) (sig, C.reset) =
        let p := hashChunks C rounds m (sig, C.reset)
        let q := (rehash C)^[rounds m] (block 243 p.1 m, p.2)
        (blit p.1 (243 * m) q.1, q.2) := by
      rw [hashChunks, List.range_succ, List.foldl_append]
      rfl
    rw [hstep, ih, mapBlocks_succ]
    dsimp only
    rw [rehash_iterate]

theorem issCurlSigDigest_eq {normalizedDigest : List ℤ} {i : ℕ}
    (hn : ∀ j < 27, InTryte (hashTryteVal normalizedDigest (27 * i + j))) (fragment : List ℤ) :
    issCurlSigDigest C (normalizedDigest.drop (81 * i)) fragment 6561 C.reset =
      (fragmentDigest C (fun j => hashTryteVal normalizedDigest (27 * i + j)) fragment,
        C.reset) := by
  have hrounds : mapBlocks 243 (fun j => (hashChunk C)^[sizeOfInt
      (hashTryteVal (normalizedDigest.drop (81 * i)) j - -13)]) 27 fragment =
      mapBlocks 243 (fun j => (hashChunk C)^[(hashTryteVal normalizedDigest (27 * i + j) +
        13).toNat]) 27 fragment := by
    unfold mapBlocks
    refine List.foldl_ext _ _ _ fun l j hj => ?_
    have hv := hn j (List.mem_range.1 hj)
    unfold InTryte at hv
    have hsize : sizeOfInt (hashTryteVal (normalizedDigest.drop (81 * i)) j - -13) =
        (hashTryteVal normalizedDigest (27 * i + j) + 13).toNat := by
      rw [hashTryteVal_drop, sizeOfInt, sub_neg_eq_add, Int.emod_eq_of_lt (by omega) (by omega)]
    dsimp only
    rw [hsize]
  rw [issCurlSigDigest, hashChunks_reset]
  dsimp only
  rw [hrounds]
  rfl

/-- The loop goes on exactly behind a line of the right length. -/
theorem fragmentLoop_cons {normalizedDigest : List ℤ} {i left : ℕ} {raw : List Int8}
    {lines : List (List Int8)} {p : List ℤ}
    (hn : ∀ j < 27, InTryte (hashTryteVal normalizedDigest (27 * i + j)))
    (hraw : (strip raw).length = 2187) :
    fragmentLoop S C normalizedDigest (left + 1) i (raw :: lines) (p, C.reset) =
      fragmentLoop S C normalizedDigest left (i + 1) lines
        (p ++ fragmentDigest C (fun j => hashTryteVal normalizedDigest (27 * i + j))
          (bytesToRows S (strip raw)), C.reset) := by
  rw [fragmentLoop]
  dsimp only
  rw [if_neg (not_not.mpr hraw), hraw, issCurlSigDigest_eq hn]

/-- A text that gets through the loop has three lines of this length. -/
theorem fragmentLoop_ok {normalizedDigest : List ℤ} {i left : ℕ} {lines rest : List (List Int8)}
    {p q : List ℤ × σ}
    (hrun : fragmentLoop S C normalizedDigest left i lines p = .ok (q, rest)) :
    ∃ read, lines = read ++ rest ∧ read.length = left ∧ ∀ l ∈ read, (strip l).length = 2187 := by
  induction left generalizing i lines p with
  | zero =>
    obtain ⟨-, rfl⟩ := Prod.mk.inj (Except.ok.inj hrun)
    exact ⟨[], rfl, rfl, fun l hl => absurd hl List.not_mem_nil⟩
  | succ left ih =>
    match lines with
    | [] => cases hrun
    | raw :: lines =>
      rw [fragmentLoop] at hrun
      dsimp only at hrun
      split_ifs at hrun with hraw
      obtain ⟨read, rfl, hlen, hread⟩ := ih hrun
      refine ⟨raw :: read, rfl, by rw [List.length_cons, hlen], fun l hl => ?_⟩
      rcases List.mem_cons.mp hl with rfl | hl
      · exact not_not.mp hraw
      · exact hread l hl

theorem foldAlong_succ (hash siblings : List ℤ) (n index : ℕ) :
    foldAlong C siblings index (n + 1) hash =
      if index.testBit n then pairHash C (block 243 siblings n) (foldAlong C siblings index n hash)
      else pairHash C (foldAlong C siblings index n hash) (block 243 siblings n) := by
  rw [foldAlong, List.range_succ, List.foldl_append]
  rfl

theorem merkleRoot_reset (hash siblings : List ℤ) (n index : ℕ) :
    merkleRoot C hash siblings n index C.reset = (foldAlong C siblings index n hash, C.reset) := by
  induction n with
  | zero => rfl
  | succ n ih =>
    have hstep : merkleRoot C hash siblings (n + 1) index C.reset =
        let p := merkleRoot C hash siblings n index C.reset
        let sibling := block 243 siblings n
        let c :=
          if index.testBit n then C.absorb (C.absorb p.2 sibling) p.1
          else C.absorb (C.absorb p.2 p.1) sibling
        ((C.squeeze c 243).1, C.reset) := by
      rw [merkleRoot, List.range_succ, List.foldl_append]
      rfl
    rw [hstep, ih, foldAlong_succ]
    dsimp only
    split_ifs <;> rfl

theorem length_digests (normalizedDigest : List ℤ) (fragments : Fin 3 → List ℤ) :
    (digests C normalizedDigest fragments).length = 729 := by
  rw [digests, List.length_append, List.length_append]
  simp only [fragmentDigest, hashChunk, C.length_squeeze]

theorem fragmentLoop_three {normalizedDigest : List ℤ} {l₀ l₁ l₂ : List Int8}
    {rest : List (List Int8)} (hn : ∀ k < 81, InTryte (hashTryteVal normalizedDigest k))
    (h₀ : (strip l₀).length = 2187) (h₁ : (strip l₁).length = 2187)
    (h₂ : (strip l₂).length = 2187) :
    fragmentLoop S C normalizedDigest 3 0 (l₀ :: l₁ :: l₂ :: rest) ([], C.reset) =
      .ok ((digests C normalizedDigest fun i => bytesToRows S (strip (![l₀, l₁, l₂] i)), C.reset),
        rest) := by
  rw [fragmentLoop_cons (fun j hj => hn _ (by omega)) h₀,
    fragmentLoop_cons (fun j hj => hn _ (by omega)) h₁,
    fragmentLoop_cons (fun j hj => hn _ (by omega)) h₂, fragmentLoop, List.nil_append]
  rfl

/-- What is compared with the public key once the fragments are read. -/
theorem validateSiblings_eq {rest : List (List Int8)} (publicKey : List FlexTrit)
    {depth : UInt32} (index : UInt64) (normalizedDigest : List ℤ) (fragments : Fin 3 → List ℤ)
    (hrest : ∀ l ∈ rest.head?, (strip l).length = 81 * depth.toNat % 2 ^ 32) :
    validateSiblings S E C publicKey depth index (digests C normalizedDigest fragments, C.reset)
        rest =
      match rest with
      | [] => compareRoot E publicKey (recoveredAddress C normalizedDigest fragments)
      | l :: _ =>
        if 2 ^ 32 ≤ 243 * depth.toNat then S.overrun
        else compareRoot E publicKey (foldAlong C (bytesToRows S (strip l)) index.toNat depth.toNat
          (recoveredAddress C normalizedDigest fragments)) := by
  have haddress : issCurlAddress C (digests C normalizedDigest fragments) 729 C.reset =
      (recoveredAddress C normalizedDigest fragments, C.reset) := by
    rw [issCurlAddress, List.take_of_length_le (Nat.le_of_eq (length_digests _ _))]
    rfl
  unfold validateSiblings
  rw [haddress]
  match rest with
  | [] => rfl
  | l :: _ =>
    dsimp only
    rw [if_neg (not_not.mpr (hrest l rfl)), merkleRoot_reset]

theorem validateSignature_eq {file : List Int8} {l₀ l₁ l₂ : List Int8} {rest : List (List Int8)}
    (publicKey : List FlexTrit) (depth : UInt32) (index : UInt64)
    (digest : {ts : List ℤ // ts.length = 243 ∧ Trits ts})
    (hlines : getlines file = l₀ :: l₁ :: l₂ :: rest) (h₀ : (strip l₀).length = 2187)
    (h₁ : (strip l₁).length = 2187) (h₂ : (strip l₂).length = 2187) :
    validateSignature S E C (some file) publicKey depth index digest =
      validateSiblings S E C publicKey depth index
        (digests C (normalizeHashToTrits digest.1 (List.replicate 243 0))
          fun i => bytesToRows S (strip (![l₀, l₁, l₂] i)), C.reset) rest := by
  have hn : ∀ k < 81, InTryte
      (hashTryteVal (normalizeHashToTrits digest.1 (List.replicate 243 0)) k) := by
    intro k hk
    obtain ⟨hval, hin⟩ := hashTryteVal_normalized digest.2.2 (List.length_replicate) hk
    rw [hval]
    exact hin
  rw [validateSignature, normalizeFlexHashToTrits_eq, hlines, fragmentLoop_three hn h₀ h₁ h₂]

/-- **What is accepted is not refused.** -/
theorem passes_of_valid {file : List Int8} {publicKey : List FlexTrit} {depth : UInt32}
    {index : UInt64} {digest : {ts : List ℤ // ts.length = 243 ∧ Trits ts}}
    (hrun : validateSignature S E C (some file) publicKey depth index digest = .ok true) :
    Passes file depth.toNat := by
  rw [validateSignature] at hrun
  split at hrun
  · cases hrun
  · rename_i sigDigests lines hloop
    obtain ⟨read, hlines, hlen, hread⟩ := fragmentLoop_ok hloop
    obtain ⟨l₀, l₁, l₂, rfl⟩ := List.length_eq_three.mp hlen
    refine ⟨l₀, l₁, l₂, lines, hlines, hread _ (by simp), hread _ (by simp), hread _ (by simp), ?_⟩
    intro l hl
    match lines, hl with
    | raw :: _, rfl =>
      rw [validateSiblings] at hrun
      split_ifs at hrun with hraw
      · exact not_not.mp hraw
      · exact not_not.mp hraw

end Scheme

/-! ## Trits -/

section Trits

variable {F : CurlP} {S : Surroundings}

theorem trits_squeezed {l : List ℤ} {c : CurlState} (hc : Trits c.trits) (hl : Trits l) :
    Trits (F.squeeze (F.absorb c l) 243).1 :=
  Parallel.trits_squeeze (CurlP.trits_absorb hc hl) 243

theorem trits_hashChunk {chunk : List ℤ} (hchunk : Trits chunk) : Trits (hashChunk F.curl chunk) :=
  trits_squeezed CurlP.trits_reset hchunk

theorem trits_iterate_hashChunk (n : ℕ) {chunk : List ℤ} (hchunk : Trits chunk) :
    Trits ((hashChunk F.curl)^[n] chunk) := by
  induction n generalizing chunk with
  | zero => exact hchunk
  | succ n ih => exact ih (trits_hashChunk hchunk)

theorem trits_fragmentDigest (trytes : ℕ → ℤ) {fragment : List ℤ} (hfragment : Trits fragment) :
    Trits (fragmentDigest F.curl trytes fragment) := by
  refine trits_hashChunk (Trits.take ?_ _)
  exact forall_mem_mapBlocks (fun _ _ hb => trits_iterate_hashChunk _ hb) hfragment

theorem trits_recoveredAddress (normalizedDigest : List ℤ) {fragments : Fin 3 → List ℤ}
    (hfragments : ∀ i, Trits (fragments i)) :
    Trits (recoveredAddress F.curl normalizedDigest fragments) :=
  trits_hashChunk (trits_append.mpr ⟨trits_append.mpr
    ⟨trits_fragmentDigest _ (hfragments 0), trits_fragmentDigest _ (hfragments 1)⟩,
    trits_fragmentDigest _ (hfragments 2)⟩)

theorem trits_foldAlong {siblings hash : List ℤ} (hsiblings : Trits siblings) (hhash : Trits hash)
    (index n : ℕ) : Trits (foldAlong F.curl siblings index n hash) := by
  induction n with
  | zero => exact hhash
  | succ n ih =>
    have hblock : Trits (block 243 siblings n) := (hsiblings.drop _).take _
    rw [foldAlong_succ]
    split_ifs
    · exact trits_squeezed (CurlP.trits_absorb CurlP.trits_reset hblock) ih
    · exact trits_squeezed (CurlP.trits_absorb CurlP.trits_reset ih) hblock

theorem length_foldAlong {siblings hash : List ℤ} (hhash : hash.length = 243) (index n : ℕ) :
    (foldAlong F.curl siblings index n hash).length = 243 := by
  cases n with
  | zero => exact hhash
  | succ n =>
    rw [foldAlong_succ]
    split_ifs
    · exact F.length_squeeze _ _
    · exact F.length_squeeze _ _

/-- Where the rows beside the table are trits, so is all that is read. -/
theorem trits_bytesToRows (hS : ∀ k, Trits (S.row k)) (line : List Int8) :
    Trits (bytesToRows S line) := by
  intro t ht
  obtain ⟨c, -, hc⟩ := List.mem_flatMap.mp ht
  unfold lutRow at hc
  split_ifs at hc
  · exact trits_digits 3 _ t hc
  · exact hS _ t hc

/-- Trytes are read off the table. -/
theorem bytesToRows_of_tryteLine {line : List Int8} (h : TryteLine line) :
    bytesToRows S line = trytesToTrits line := by
  have hindex : ∀ c ∈ tryteAlphabet, indexOfTryte c < 27 := by decide +kernel
  unfold bytesToRows trytesToTrits
  refine List.flatMap_congr fun c hc => ?_
  rw [lutRow, if_pos (hindex c (h c hc))]

end Trits

/-! ## The text of a signature file -/

theorem getlines_append {line : List Int8} (hline : 10 ∉ line) (rest : List Int8) :
    getlines (line ++ 10 :: rest) = (line ++ [10]) :: getlines rest := by
  induction line with
  | nil => rfl
  | cons c cs ih =>
    rw [List.mem_cons, not_or] at hline
    rw [List.cons_append, getlines, if_neg fun hc => hline.1 hc.symm, ih hline.2]
    rfl

theorem TryteLine.newline {line : List Int8} (h : TryteLine line) : 10 ∉ line := fun hmem => by
  have hten : (10 : Int8) ∉ tryteAlphabet := by decide
  exact hten (h 10 hmem)

namespace SignatureFile

variable {depth : ℕ} (f : SignatureFile depth)

theorem getlines_text : getlines f.text =
    [f.fragments 0 ++ [10], f.fragments 1 ++ [10], f.fragments 2 ++ [10], f.siblings ++ [10]] := by
  rw [text, getlines_append (f.tryteLine_fragments 0).newline,
    getlines_append (f.tryteLine_fragments 1).newline,
    getlines_append (f.tryteLine_fragments 2).newline,
    getlines_append f.tryteLine_siblings.newline]
  rfl

/-- A text is that of one file. -/
theorem eq_of_text_eq {f g : SignatureFile depth} (h : f.text = g.text) :
    f.fragments = g.fragments ∧ f.siblings = g.siblings := by
  have hlines := congrArg getlines h
  rw [getlines_text, getlines_text] at hlines
  simp only [List.cons.injEq, List.append_cancel_right_eq, and_true] at hlines
  obtain ⟨h₀, h₁, h₂, h₃⟩ := hlines
  refine ⟨funext fun i => ?_, h₃⟩
  fin_cases i
  · exact h₀
  · exact h₁
  · exact h₂

end SignatureFile

/-! ## When accepted signatures are full -/

section Validated

variable {S : Surroundings} {E : Encoding} {F : CurlP} {signature : List Int8} {depth : UInt32}
variable {index : UInt64} {publicKey : List FlexTrit}
variable {digest : {ts : List ℤ // ts.length = 243 ∧ Trits ts}}

/-- On the text of a signature file the path to the root is compared. -/
theorem validateSignature_text (f : SignatureFile depth.toNat) (hlt : 243 * depth.toNat < 2 ^ 32) :
    validateSignature S E F.curl (some f.text) publicKey depth index digest =
      compareRoot E publicKey
        (foldAlong F.curl (trytesToTrits f.siblings) index.toNat depth.toNat
          (recoveredAddress F.curl (normalizeHashToTrits digest.1 (List.replicate 243 0))
            fun i => trytesToTrits (f.fragments i))) := by
  have hstrip : ∀ line : List Int8, strip (line ++ [10]) = line :=
    fun line => List.dropLast_concat
  have hlen : ∀ i, (strip (f.fragments i ++ [10])).length = 2187 := by
    intro i
    rw [hstrip, f.length_fragments]
  have hfragments : (fun i => bytesToRows S (strip (![f.fragments 0 ++ [10],
      f.fragments 1 ++ [10], f.fragments 2 ++ [10]] i))) =
      fun i => trytesToTrits (f.fragments i) := by
    funext i
    rw [← bytesToRows_of_tryteLine (S := S) (f.tryteLine_fragments i)]
    fin_cases i
    · exact congrArg _ (hstrip _)
    · exact congrArg _ (hstrip _)
    · exact congrArg _ (hstrip _)
  rw [validateSignature_eq publicKey depth index digest f.getlines_text (hlen 0) (hlen 1) (hlen 2),
    hfragments, validateSiblings_eq]
  · dsimp only
    rw [if_neg (by omega), hstrip, bytesToRows_of_tryteLine f.tryteLine_siblings]
  · intro l hl
    obtain rfl := Option.some.inj hl
    rw [hstrip, f.length_siblings, Nat.mod_eq_of_lt (by omega)]

/-- Surroundings in which nothing stands in the way: zeros beside the table, and a run that leaves
`siblings` comes to accept. -/
def laxSurroundings : Surroundings where
  row _ := [0, 0, 0]
  length_row _ := rfl
  overrun := .ok true

/-- **What passes is accepted** under some key; under every key, if `siblings` is left. -/
theorem exists_accepted (h : Passes signature depth.toNat)
    (digest : {ts : List ℤ // ts.length = 243 ∧ Trits ts}) (index : UInt64) :
    (∃ key, validateSignature laxSurroundings E F.curl (some signature) key depth index digest =
      .ok true) ∧
    ((getlines signature).length = 4 → 2 ^ 32 ≤ 243 * depth.toNat → ∀ key,
      validateSignature laxSurroundings E F.curl (some signature) key depth index digest =
        .ok true) := by
  obtain ⟨l₀, l₁, l₂, rest, hlines, h₀, h₁, h₂, hrest⟩ := h
  have hrow : ∀ line, Trits (bytesToRows laxSurroundings line) :=
    trits_bytesToRows fun _ => show Trits [0, 0, 0] by decide
  have heq := fun key => validateSignature_eq (S := laxSurroundings) (E := E) (C := F.curl) key depth
    index digest hlines h₀ h₁ h₂
  simp only [heq, validateSiblings_eq _ _ _ _ hrest]
  -- the key is the root that is found
  have hkey : ∀ root : List ℤ, root.length = 243 → Trits root →
      ∃ key, compareRoot E key root = .ok true := fun root hlen htrits =>
    ⟨pack E root, by rw [compareRoot, toTrits_pack ⟨root, hlen, htrits⟩, decide_eq_true rfl]⟩
  have haddress : Trits (recoveredAddress F.curl
      (normalizeHashToTrits digest.1 (List.replicate 243 0))
      fun i => bytesToRows laxSurroundings (strip (![l₀, l₁, l₂] i))) :=
    trits_recoveredAddress _ fun i => hrow _
  have hlen : (recoveredAddress F.curl (normalizeHashToTrits digest.1 (List.replicate 243 0))
      fun i => bytesToRows laxSurroundings (strip (![l₀, l₁, l₂] i))).length = 243 :=
    F.length_squeeze _ _
  match rest with
  | [] =>
    refine ⟨hkey _ hlen haddress, fun hfour => ?_⟩
    rw [hlines] at hfour
    cases hfour
  | l :: _ =>
    dsimp only
    refine ⟨?_, fun _ hle key => if_pos hle⟩
    by_cases hle : 2 ^ 32 ≤ 243 * depth.toNat
    · exact ⟨[], if_pos hle⟩
    · simp only [if_neg hle]
      exact hkey _ (length_foldAlong hlen _ _) (trits_foldAlong (hrow _) haddress _ _)

/-- **When accepted signatures are full.** Whatever file is signed, under whatever key: what is
accepted of a text is a full signature if and only if the text is refused or it is that of a
signature file whose siblings have room. -/
theorem validated_full_iff (E : Encoding) (F : CurlP)
    (keccak : List (List UInt8) → {ts : List ℤ // ts.length = 243 ∧ Trits ts})
    (signature : List Int8) (depth : UInt32) (index : UInt64) :
    (∀ S M file publicKey,
      fileSignatureValidate keccak
          (validateSignature S E F.curl (some signature) publicKey depth index) M file =
        some (.ok true) →
      ∃ blocks, digestFile M file = some blocks ∧
        FullSignature F.curl (normalizeHashToTrits (keccak blocks).1 (List.replicate 243 0))
          (toTrits E 243 publicKey) depth.toNat index.toNat signature) ↔
    (Passes signature depth.toNat →
      (∃ f : SignatureFile depth.toNat, signature = f.text) ∧ 243 * depth.toNat < 2 ^ 32) := by
  constructor
  · intro h hpasses
    obtain ⟨⟨key, hkey⟩, hall⟩ := exists_accepted (E := E) (F := F) hpasses (keccak []) index
    have hfull : ∀ key,
        validateSignature laxSurroundings E F.curl (some signature) key depth index (keccak []) =
          .ok true →
        FullSignature F.curl (normalizeHashToTrits (keccak []).1 (List.replicate 243 0))
          (toTrits E 243 key) depth.toNat index.toNat signature := by
      intro key hkey
      obtain ⟨blocks, hblocks, hfull⟩ := h laxSurroundings .plain [] key (congrArg some hkey)
      obtain rfl := Option.some.inj hblocks
      exact hfull
    obtain ⟨f, htext, -⟩ := hfull key hkey
    refine ⟨⟨f, htext⟩, ?_⟩
    by_contra hle
    -- all keys would be accepted, and they are not all the root
    have hany := hall (by rw [htext, f.getlines_text]; rfl) (Nat.le_of_not_lt hle)
    have hconst : ∀ t : ℤ, (List.replicate 243 t).length = 243 := fun t => List.length_replicate
    obtain ⟨f₀, ht₀, hroot₀⟩ := hfull (pack E (List.replicate 243 0)) (hany _)
    obtain ⟨f₁, ht₁, hroot₁⟩ := hfull (pack E (List.replicate 243 1)) (hany _)
    obtain ⟨hfragments, hsiblings⟩ := SignatureFile.eq_of_text_eq (ht₀.symm.trans ht₁)
    rw [hfragments, hsiblings, ← hroot₁,
      toTrits_pack ⟨List.replicate 243 0, hconst 0, trits_replicate 243⟩,
      toTrits_pack ⟨List.replicate 243 1, hconst 1, fun t ht => by
        rw [List.eq_of_mem_replicate ht]
        decide⟩] at hroot₀
    cases congrArg List.head? hroot₀
  · intro h S M file publicKey hrun
    obtain ⟨blocks, hblocks, hvalid⟩ := Option.map_eq_some_iff.mp hrun
    refine ⟨blocks, hblocks, ?_⟩
    obtain ⟨⟨f, rfl⟩, hlt⟩ := h (passes_of_valid hvalid)
    rw [validateSignature_text f hlt] at hvalid
    exact ⟨f, rfl, of_decide_eq_true (Except.ok.inj hvalid)⟩

end Validated

/-! ## Three lines are enough -/

/-- A fragment of nines. -/
def nines : List Int8 := List.replicate 2187 57

/-- A signature without siblings. -/
def unfinished : List Int8 := nines ++ 10 :: (nines ++ 10 :: (nines ++ [10]))

theorem zeros_spec : (List.replicate 243 (0 : ℤ)).length = 243 ∧ Trits (List.replicate 243 0) :=
  ⟨List.length_replicate, trits_replicate 243⟩

/-- A hash of zeros. -/
def zeroHash : {ts : List ℤ // ts.length = 243 ∧ Trits ts} := ⟨List.replicate 243 0, zeros_spec⟩

/-- What Curl recovers from it. -/
def bareAddress : List ℤ :=
  recoveredAddress (Parallel.curlP 81).curl
    (normalizeHashToTrits zeroHash.1 (List.replicate 243 0)) fun _ => trytesToTrits nines

theorem tryteLine_nines : TryteLine nines := fun c hc => by
  rw [List.eq_of_mem_replicate hc]
  decide

theorem getlines_unfinished :
    getlines unfinished = [nines ++ [10], nines ++ [10], nines ++ [10]] := by
  have hline := tryteLine_nines.newline
  rw [unfinished, getlines_append hline, getlines_append hline, getlines_append hline]
  rfl

/-- **Accepted without a path.** A file without the line of siblings is accepted under its bare
address, at any depth. -/
theorem validated_bare_address :
    (∀ S, fileSignatureValidate (fun _ => zeroHash) (validateSignature S .one
        (Parallel.curlP 81).curl (some unfinished) (pack .one bareAddress) 6 0) .plain [] =
      some (.ok true)) ∧
    ¬ FullSignature (Parallel.curlP 81).curl
      (normalizeHashToTrits zeroHash.1 (List.replicate 243 0))
      (toTrits .one 243 (pack .one bareAddress)) 6 0 unfinished := by
  constructor
  · intro S
    have hstrip : strip (nines ++ [10]) = nines := List.dropLast_concat
    have hlen : (strip (nines ++ [10])).length = 2187 := by rw [hstrip]; exact List.length_replicate
    have hfragments : (fun i => bytesToRows S (strip (![nines ++ [10], nines ++ [10],
        nines ++ [10]] i))) = fun _ => trytesToTrits nines := by
      funext i
      rw [← bytesToRows_of_tryteLine (S := S) tryteLine_nines]
      fin_cases i
      · exact congrArg _ hstrip
      · exact congrArg _ hstrip
      · exact congrArg _ hstrip
    have htrits : Trits bareAddress :=
      trits_recoveredAddress _ fun _ => by
        rw [← bytesToRows_of_tryteLine (S := laxSurroundings) tryteLine_nines]
        exact trits_bytesToRows (fun _ => show Trits [0, 0, 0] by decide) nines
    have hvalid : validateSignature S .one (Parallel.curlP 81).curl (some unfinished)
        (pack .one bareAddress) 6 0 zeroHash = .ok true := by
      rw [validateSignature_eq _ _ _ _ getlines_unfinished hlen hlen hlen, hfragments,
        validateSiblings_eq _ _ _ _ fun _ hl => (by cases hl)]
      show compareRoot .one (pack .one bareAddress) bareAddress = .ok true
      rw [compareRoot, toTrits_pack ⟨bareAddress, CurlP.length_squeeze _ _ _, htrits⟩,
        decide_eq_true rfl]
    exact congrArg some hvalid
  · rintro ⟨f, htext, -⟩
    have hlines := congrArg List.length (congrArg getlines htext)
    rw [getlines_unfinished, f.getlines_text] at hlines
    cases hlines

end SignedFiles

end Entangled
