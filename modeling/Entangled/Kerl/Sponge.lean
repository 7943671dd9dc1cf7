import Entangled.Kerl.Bytes
import Entangled.Signing.Iss
/-!
# Kerl

`kerl.c` over Keccak-384, which is a parameter: `kerl_absorb` hands it the bytes of one block of 243
trits after the other, from one buffer on its stack that nothing has cleared, and `kerl_squeeze`
reads blocks back. Whether the hash is a function of the trits is decided by the buffer of
`kerl_absorb`: the two of `kerl_squeeze` are written before they are read.
-/

namespace Entangled

namespace Kerl

open Ternary (Trits)

/-- `Keccak_HashInitialize`, `Keccak_HashUpdate` and `Keccak_HashSqueeze`, with 384 bits each. -/
structure Keccak (σ : Type) where
  init : σ
  update : σ → List UInt8 → σ
  squeeze : σ → List UInt8 × σ
  length_squeeze : ∀ s, (squeeze s).1.length = 48

variable {σ : Type} (K : Keccak σ)

/-- The loop of `kerl_absorb` over `n` blocks; `bytes` is its buffer. -/
def absorbLoop : σ → List UInt8 → ℕ → List ℤ → σ
  | s, _, 0, _ => s
  | s, bytes, n + 1, trits =>
    let bytes := convertTritsToBytes bytes (trits.take 243)
    absorbLoop (K.update s bytes) bytes n (trits.drop 243)

/-- `kerl_absorb`, of trits whose number is a multiple of 243. -/
def kerlAbsorb (s : σ) (bytes : List UInt8) (trits : List ℤ) : σ :=
  absorbLoop K s bytes (trits.length / 243) trits

/-- The loop of `kerl_squeeze` over `n` blocks; `none` where the conversion fails an assertion. -/
def squeezeLoop : σ → List UInt8 → List UInt8 → ℕ → Option (List ℤ × σ)
  | s, _, _, 0 => some ([], s)
  | s, bytes, tmp, n + 1 =>
    let bytes := blit bytes 0 (K.squeeze s).1
    let tmp := blit tmp 0 bytes
    (convertBytesToTrits tmp).bind fun block =>
      let bytes := bytes.map (· ^^^ 0xff)
      (squeezeLoop (K.update K.init bytes) bytes tmp n).map fun r => (block ++ r.1, r.2)

/-- `kerl_squeeze`, of `length` trits. -/
def kerlSqueeze (s : σ) (bytes tmp : List UInt8) (length : ℕ) : Option (List ℤ × σ) :=
  squeezeLoop K s bytes tmp (length / 243)

/-- What the two functions find on their stacks. -/
structure Stack where
  absorb : List UInt8
  squeeze : List UInt8
  tmp : List UInt8
  length_absorb : absorb.length = 48
  length_squeeze : squeeze.length = 48
  length_tmp : tmp.length = 48

/-- `kerl_absorb` and then `kerl_squeeze`. -/
def kerlHash (s : σ) (stack : Stack) (trits : List ℤ) (length : ℕ) : Option (List ℤ × σ) :=
  kerlSqueeze K (kerlAbsorb K s stack.absorb trits) stack.squeeze stack.tmp length

/-! ## Squeezing -/

/-- A buffer that is written as a whole is what was written. -/
theorem blit_whole {α : Type} {old new : List α} (h : old.length = new.length) :
    blit old 0 new = new := by
  rw [blit, List.take_zero, List.nil_append, Nat.zero_add, ← h, List.drop_length, List.append_nil]

/-- The buffers of `kerl_squeeze` do not matter. -/
theorem squeezeLoop_eq (s : σ) {bytes tmp bytes' tmp' : List UInt8} (n : ℕ)
    (hb : bytes.length = 48) (ht : tmp.length = 48) (hb' : bytes'.length = 48)
    (ht' : tmp'.length = 48) : squeezeLoop K s bytes tmp n = squeezeLoop K s bytes' tmp' n := by
  have hs := K.length_squeeze s
  rcases n with _ | n
  · rfl
  · rw [squeezeLoop, squeezeLoop]
    dsimp only
    rw [blit_whole (hb.trans hs.symm), blit_whole (hb'.trans hs.symm),
      blit_whole (ht.trans hs.symm), blit_whole (ht'.trans hs.symm)]

/-! ## Absorbing -/

variable {trits : List ℤ} {bytes bytes' : List UInt8}

/-- The bytes a block has from a buffer of zeros. -/
def blockBytes (trits : List ℤ) : List UInt8 := convertTritsToBytes (List.replicate 48 0) trits

/-- 48 bytes are known by their number. -/
theorem signed_injective (hb : bytes.length = 48) (hb' : bytes'.length = 48)
    (h : signed bytes = signed bytes') : bytes = bytes' := by
  have hu : unsigned bytes = unsigned bytes' := by
    have hlt := unsigned_lt hb
    have hlt' := unsigned_lt hb'
    have hmod := congrArg (· % (((2 ^ 32) ^ 12 : ℕ) : ℤ)) h
    unfold signed at hmod
    generalize (2 ^ 32) ^ 12 = M at hlt hlt' hmod
    rw [Int.bmod_emod, Int.bmod_emod, Int.emod_eq_of_lt (by omega) (by omega),
      Int.emod_eq_of_lt (by omega) (by omega)] at hmod
    exact Int.ofNat_inj.mp hmod
  have hinj : bytes.reverse.map UInt8.toNat = bytes'.reverse.map UInt8.toNat :=
    Nat.ofDigits_inj_of_len_eq (by decide) (by simp [hb, hb'])
      (fun d hd => by obtain ⟨b, -, rfl⟩ := List.mem_map.mp hd; exact b.toNat_lt)
      (fun d hd => by obtain ⟨b, -, rfl⟩ := List.mem_map.mp hd; exact b.toNat_lt) hu
  have hrev := List.map_injective_iff.mpr (fun a b hab => UInt8.toNat_inj.mp hab) hinj
  exact List.reverse_injective hrev

/-- A determined block has the bytes it has from zeros. -/
theorem convertTritsToBytes_eq_blockBytes (hb : bytes.length = 48) (hts : Trits trits)
    (hl : trits.length = 243) (h : Determined trits) :
    convertTritsToBytes bytes trits = blockBytes trits := by
  obtain ⟨hlen, hs⟩ := signed_convertTritsToBytes hb hts hl h
  obtain ⟨hlen', hs'⟩ := signed_convertTritsToBytes_zeroed hts hl
  exact signed_injective hlen hlen' (hs.trans hs'.symm)

/-- The block that bytes are read back as. -/
def bytesBlock (bytes : List UInt8) : List ℤ :=
  (convertBytesToTrits bytes).getD (List.replicate 243 0)

theorem bytesBlock_spec (hb : bytes.length = 48) :
    (bytesBlock bytes).length = 243 ∧ Trits (bytesBlock bytes) := by
  obtain ⟨hfail, hdec⟩ := convertBytesToTrits_spec hb
  by_cases hs : signed bytes = -(Bigint.value half3 : ℤ) - 1
  · rw [bytesBlock, hfail hs]
    exact ⟨List.length_replicate, Ternary.trits_replicate 243⟩
  · obtain ⟨out, hout, hdecodes⟩ := hdec hs
    rw [bytesBlock, hout]
    exact ⟨hdecodes.length, hdecodes.balanced⟩

/-- Kerl as a function of the trits. -/
def Keccak.kerl : Kerl σ where
  init := K.init
  update s trits := K.update s (blockBytes trits)
  extract s :=
    (bytesBlock (K.squeeze s).1, K.update K.init ((K.squeeze s).1.map (· ^^^ 0xff)))
  length_extract s := (bytesBlock_spec (K.length_squeeze s)).1
  trits_extract s := (bytesBlock_spec (K.length_squeeze s)).2

/-- Every block of the trits is determined. -/
def AllDetermined (trits : List ℤ) : Prop :=
  ∀ i < trits.length / 243, Determined (block 243 trits i)

theorem absorbLoop_eq (s : σ) {n : ℕ} (hb : bytes.length = 48) (hts : Trits trits)
    (hl : 243 * n ≤ trits.length) (h : ∀ i < n, Determined (block 243 trits i)) :
    absorbLoop K s bytes n trits =
      (List.range n).foldl (fun s i => K.update s (blockBytes (block 243 trits i))) s := by
  induction n generalizing s bytes trits with
  | zero => rfl
  | succ n ih =>
    have hhead : block 243 trits 0 = trits.take 243 := by
      rw [block, Nat.mul_zero, List.drop_zero]
    have hdet := h 0 (Nat.succ_pos n)
    rw [hhead] at hdet
    have hlen : (trits.take 243).length = 243 := by
      rw [List.length_take]
      omega
    have hlen48 := (signed_convertTritsToBytes hb (hts.take 243) hlen hdet).1
    have hrest : ∀ i, block 243 (trits.drop 243) i = block 243 trits (i + 1) := by
      intro i
      rw [block, block, List.drop_drop, Nat.mul_succ, Nat.add_comm]
    rw [absorbLoop, List.range_succ_eq_map, List.foldl_cons, List.foldl_map,
      ih _ hlen48 (hts.drop 243) (by rw [List.length_drop]; omega) (fun i hi => by
        rw [hrest]
        exact h (i + 1) (by omega)),
      convertTritsToBytes_eq_blockBytes hb (hts.take 243) hlen hdet, hhead]
    simp only [hrest, Nat.succ_eq_add_one]

/-- **`kerl_absorb` is the sponge's** where the blocks are determined, whatever the stack holds. -/
theorem kerlAbsorb_eq (s : σ) (hb : bytes.length = 48) (hts : Trits trits)
    (h : AllDetermined trits) : kerlAbsorb K s bytes trits = K.kerl.absorb s trits :=
  absorbLoop_eq K s hb hts (by omega) h

/-- **One block is squeezed as the sponge does**, unless it is the one number that fails. -/
theorem kerlSqueeze_eq (s : σ) {tmp : List UInt8} (hb : bytes.length = 48) (ht : tmp.length = 48)
    (h : signed (K.squeeze s).1 ≠ -(Bigint.value half3 : ℤ) - 1) :
    kerlSqueeze K s bytes tmp 243 = some (K.kerl.squeeze s) := by
  have hs := K.length_squeeze s
  obtain ⟨out, hout, -⟩ := (convertBytesToTrits_spec hs).2 h
  have hblock : bytesBlock (K.squeeze s).1 = out := by
    rw [bytesBlock, hout, Option.getD_some]
  rw [kerlSqueeze, show 243 / 243 = 1 from rfl, squeezeLoop]
  dsimp only
  rw [blit_whole (hb.trans hs.symm), blit_whole (ht.trans hs.symm), hout, Option.bind_some,
    squeezeLoop, Option.map_some, List.append_nil, Kerl.squeeze, Keccak.kerl]
  dsimp only
  rw [hblock]

/-! ## A function of the trits -/

/-- What it is for Kerl to be a function of the trits: each block is written as its number in two's
complement whatever the buffer held, and what is squeezed does not depend on the stacks. -/
structure IsFunction (trits : List ℤ) : Prop where
  bytes : ∀ i < trits.length / 243, ∀ buffer : List UInt8, buffer.length = 48 →
    (convertTritsToBytes buffer (block 243 trits i)).length = 48 ∧
      signed (convertTritsToBytes buffer (block 243 trits i)) =
        Ternary.value ((block 243 trits i).take 242)
  hash : ∀ {σ : Type} (K : Keccak σ) (s : σ) (stack stack' : Stack) (length : ℕ),
    kerlHash K s stack trits length = kerlHash K s stack' trits length

/-- **Kerl is a function of its input** exactly where every block is determined. -/
theorem isFunction_iff (hts : Trits trits) (hl : trits.length % 243 = 0) :
    IsFunction trits ↔ AllDetermined trits := by
  have hblock : ∀ i < trits.length / 243, (block 243 trits i).length = 243 := by
    intro i hi
    exact length_block (by omega)
  have htrits : ∀ i, Trits (block 243 trits i) := fun i => (hts.drop _).take _
  constructor
  · intro hfun i hi
    by_contra hdet
    obtain ⟨buffer, hbuf, -, hwrong⟩ := exists_wrong_bytes (htrits i) (hblock i hi) hdet
    refine hwrong ?_
    rw [(hfun.bytes i hi buffer hbuf).2, sub_self]
    exact dvd_zero _
  · intro hdet
    refine ⟨fun i hi buffer hbuf => ?_, fun K s stack stack' length => ?_⟩
    · exact signed_convertTritsToBytes hbuf (htrits i) (hblock i hi) (hdet i hi)
    · rw [kerlHash, kerlHash, kerlAbsorb_eq K s stack.length_absorb hts hdet,
        kerlAbsorb_eq K s stack'.length_absorb hts hdet]
      exact squeezeLoop_eq K _ _ stack.length_squeeze stack.length_tmp stack'.length_squeeze
        stack'.length_tmp

/-- A zero and 242 trits -1, the number of which takes one word. -/
def oneWord : List ℤ := 0 :: List.replicate 242 (-1)

/-- Its bytes are what the buffer held. -/
theorem oneWord_depends :
    ¬ ∀ trits : List ℤ, Trits trits → trits.length = 243 →
      ∀ buffer buffer' : List UInt8, buffer.length = 48 → buffer'.length = 48 →
        convertTritsToBytes buffer trits = convertTritsToBytes buffer' trits := by
  intro hall
  have hts : Trits oneWord := by
    refine Ternary.trits_cons.mpr ⟨Ternary.isTrit_zero, fun t ht => ?_⟩
    rw [List.eq_of_mem_replicate ht]
    decide
  have hlen : oneWord.length = 243 := by rw [oneWord, List.length_cons, List.length_replicate]
  have hsame := hall oneWord hts hlen (List.replicate 48 0) (List.replicate 48 1)
    List.length_replicate List.length_replicate
  have hdiffer : convertTritsToBytes (List.replicate 48 0) oneWord ≠
      convertTritsToBytes (List.replicate 48 1) oneWord := by decide +kernel
  exact hdiffer hsame

/-- Trits that are all -1 are a block of which Kerl is a function. -/
theorem isFunction_minusOnes : IsFunction (List.replicate 243 (-1)) := by
  refine (isFunction_iff (fun t ht => ?_) (by rw [List.length_replicate])).mpr fun i hi => .inl ?_
  · rw [List.eq_of_mem_replicate ht]
    decide
  · rw [List.all_eq_true]
    intro t ht
    rw [List.eq_of_mem_replicate (List.mem_of_mem_drop (List.mem_of_mem_take
      (List.mem_of_mem_take ht)))]
    decide

end Kerl

end Entangled
