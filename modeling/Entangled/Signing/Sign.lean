import Entangled.Signing.Normalize
/-!
# Addresses and signatures

`iota_sign_address_gen_trits`, `iota_sign_signature_gen_trits` and the loop in which
`validate_signatures` digests the fragments of an input into an address. The three walk the
same key: block `i` of it is hashed 26 times for the address, `13 - hᵢ` times for the
signature, and the loop hashes the signature block `13 + hᵢ` times more. So the address that
the fragments of a signature lead to is the address of the key
(`signatureAddress_signatureGen`).
-/

namespace Entangled

open Ternary

section Model

variable {σ : Type} (K : Kerl σ)

/-- The private key that `iota_sign_address_gen_trits` and `iota_sign_signature_gen_trits` both
begin with, and the sponge after it. -/
def privateKey (seed : List ℤ) (index : UInt64) (keyLength : ℕ) : List ℤ × σ :=
  let p := issKerlSubseed K seed index.toInt64 K.init
  issKerlKey K p.1 (List.replicate keyLength 0) keyLength p.2

/-- `iota_sign_address_gen_trits`, where the memory it asks for is there. -/
def iotaSignAddressGenTrits (seed : List ℤ) (index : UInt64) (security : ℕ) :
    Option (List ℤ) :=
  if 0 < security ∧ security ≤ 3 then
    let key := privateKey K seed index (security * 6561)
    let digest := issKerlKeyDigest K key.1 (security * 6561) key.2
    some (issKerlAddress K digest.1 (security * 243) digest.2).1
  else none

/-- `iota_sign_signature_gen_trits`. The normalized hash goes into a buffer on the stack, which
it fills (`normalizeHashToTrits_eq`). -/
def iotaSignSignatureGenTrits (seed : List ℤ) (index : UInt64) (security : ℕ)
    (bundleHash : List ℤ) : Option (List ℤ) :=
  if 0 < security ∧ security ≤ 3 then
    let key := privateKey K seed index (security * 6561)
    let normalized := normalizeHashToTrits bundleHash (List.replicate 243 0)
    some (issKerlSignature K normalized key.1 (security * 6561) key.2).1
  else none

/-- The inner loop of `validate_signatures` over the signature fragments of one input, with the
sponge of the address. -/
def digestFragments (normalizedBundle : List ℤ) : ℕ → List (List ℤ) → σ → σ
  | _, [], addressKerl => addressKerl
  | offset, key :: keys, addressKerl =>
    let nextOffset := (offset + 27 * 3 - 1) % 243 + 1
    let digestedSig := (issKerlSigDigest K (normalizedBundle.drop (offset % 243)) key 6561 K.init).1
    digestFragments normalizedBundle nextOffset keys (K.absorb addressKerl digestedSig)

/-- The address `validate_signatures` compares with that of the input. -/
def signatureAddress (normalizedBundle : List ℤ) (keys : List (List ℤ)) : List ℤ :=
  (K.squeeze (digestFragments K normalizedBundle 0 keys K.init)).1

end Model

/-! ## The three walks over a key -/

section Walks

variable {σ : Type} (K : Kerl σ) {key : List ℤ} {n : ℕ}

/-- The key with every block hashed to the end of its chain. -/
def chainEnds (n : ℕ) (key : List ℤ) : List ℤ :=
  mapBlocks 243 (fun _ => K.hash^[26]) (27 * n) key

theorem length_chainEnds (hl : key.length = 6561 * n) :
    (chainEnds K n key).length = 6561 * n := by
  rw [chainEnds, length_mapBlocks (fun _ _ hb => K.length_iterate_hash _ hb) (by omega), hl]

/-- **The address of a key** is made of the digests of the ends of its chains. -/
theorem address_of_key (hl : key.length = 6561 * n) :
    let digest := issKerlKeyDigest K key (n * 6561) K.init
    issKerlAddress K digest.1 (n * 243) digest.2 =
      ((K.squeeze (K.absorb K.init ((List.range n).flatMap fun d =>
        K.hash (block 6561 (chainEnds K n key) d)))).1, K.init) := by
  have hends := length_chainEnds K hl
  have hlen : ((List.range n).flatMap fun d =>
      K.hash (block 6561 (chainEnds K n key) d)).length = n * 243 := by
    rw [List.length_flatMap]
    simp [K.length_hash]
  have hdigest : issKerlKeyDigest K key (n * 6561) K.init =
      (blit (chainEnds K n key) 0 ((List.range n).flatMap fun d =>
        K.hash (block 6561 (chainEnds K n key) d)), K.init) := by
    have hblocks : n * 6561 / 243 = 27 * n := by omega
    have hkeys : n * 6561 / 6561 = n := by omega
    rw [issKerlKeyDigest, if_neg (by omega), hblocks, hkeys, K.hashBlocks_init]
    exact digestKey_init K (by rw [← chainEnds, hends])
  have htake := take_drop_blit (i := 0) (show 0 + ((List.range n).flatMap fun d =>
    K.hash (block 6561 (chainEnds K n key) d)).length ≤ (chainEnds K n key).length by omega)
  dsimp only
  rw [hdigest, issKerlAddress]
  dsimp only
  rw [List.drop_zero, hlen] at htake
  rw [htake]

theorem sizeOfInt_of_nonneg {v : ℤ} (h₀ : 0 ≤ v) (h : v < 2 ^ 64) : sizeOfInt v = v.toNat := by
  rw [sizeOfInt, Int.emod_eq_of_lt h₀ h]

/-- The signature and its check take a block to the end of its chain between them. -/
theorem rounds_add {v : ℤ} (h : InTryte v) : sizeOfInt (v - -13) + sizeOfInt (13 - v) = 26 := by
  unfold InTryte at h
  rw [sizeOfInt_of_nonneg (by omega) (by omega), sizeOfInt_of_nonneg (by omega) (by omega)]
  omega

theorem hashTryteVal_drop (hash : List ℤ) (j i : ℕ) :
    hashTryteVal (hash.drop (81 * j)) i = hashTryteVal hash (27 * j + i) := by
  have hget : ∀ k, (hash.drop (81 * j)).getD k 0 = hash.getD (81 * j + k) 0 := by
    intro k
    rw [List.getD_eq_getElem?_getD, List.getD_eq_getElem?_getD, List.getElem?_drop]
  have hstart : 81 * j + i * 3 = (27 * j + i) * 3 := by omega
  rw [hashTryteVal, hashTryteVal, hget, hget, hget, ← Nat.add_assoc, ← Nat.add_assoc, hstart]

/-- **One fragment**: hashed on by its segment of the normalized hash, fragment `j` of a signature
is that stretch of the ends of the chains. -/
theorem mapBlocks_fragment {normalized : List ℤ} {j : ℕ} (hl : key.length = 6561 * n) (hj : j < n)
    (hn : ∀ i < 27 * n, InTryte (hashTryteVal normalized i)) :
    mapBlocks 243
        (fun i => K.hash^[sizeOfInt (hashTryteVal (normalized.drop (81 * j)) i - -13)]) 27
        (block 6561 (mapBlocks 243
          (fun i => K.hash^[sizeOfInt (13 - hashTryteVal normalized i)]) (27 * n) key) j) =
      block 6561 (chainEnds K n key) j := by
  have hkeep : ∀ rounds : ℕ → ℕ, ∀ i b, b.length = 243 → (K.hash^[rounds i] b).length = 243 :=
    fun _ _ _ hb => K.length_iterate_hash _ hb
  have hsig : (mapBlocks 243 (fun i => K.hash^[sizeOfInt (13 - hashTryteVal normalized i)])
      (27 * n) key).length = 6561 * n := by
    rw [length_mapBlocks (hkeep _) (by omega), hl]
  have hsub : ∀ (l : List ℤ) i, i < 27 → block 243 (block 6561 l j) i = block 243 l (27 * j + i) := by
    intro l i hi
    have hw : 6561 * j = 243 * (27 * j) := by omega
    rw [← block_take_drop hi, block, ← hw]
    rfl
  have hfrag : (block 6561 (mapBlocks 243
      (fun i => K.hash^[sizeOfInt (13 - hashTryteVal normalized i)]) (27 * n) key) j).length =
      6561 := length_block (by omega)
  refine eq_of_block_eq (w := 243) (m := 27) ?_ ?_ ?_
  · rw [length_mapBlocks (hkeep _) (by omega), hfrag]
  · exact length_block (by rw [length_chainEnds K hl]; omega)
  · intro i hi
    rw [block_mapBlocks (hkeep _) (by omega), if_pos hi, hsub _ i hi, hsub _ i hi,
      block_mapBlocks (hkeep _) (by omega), if_pos (by omega), chainEnds,
      block_mapBlocks (hkeep _) (by omega), if_pos (by omega), hashTryteVal_drop,
      ← Function.iterate_add_apply, rounds_add (hn _ (by omega))]

theorem digestFragments_range' (normalized : List ℤ) (f : ℕ → List ℤ) (m : ℕ) {j offset : ℕ}
    (ho : offset % 243 = 81 * j % 243) (s : σ) :
    digestFragments K normalized offset ((List.range' j m).map f) s =
      (List.range' j m).foldl (fun s i => K.absorb s
        (issKerlSigDigest K (normalized.drop (81 * i % 243)) (f i) 6561 K.init).1) s := by
  induction m generalizing j offset s with
  | zero => rfl
  | succ m ih =>
    rw [List.range'_succ, List.map_cons, digestFragments, List.foldl_cons, ho]
    exact ih (by omega) _

/-- **The check of a signature walks to the address of the key**, up to three fragments. -/
theorem signatureAddress_of_key {normalized : List ℤ} (hl : key.length = 6561 * n) (h3 : n ≤ 3)
    (hn : ∀ i < 27 * n, InTryte (hashTryteVal normalized i)) :
    signatureAddress K normalized ((List.range n).map
        (block 6561 (issKerlSignature K normalized key (n * 6561) K.init).1)) =
      (K.squeeze (K.absorb K.init ((List.range n).flatMap fun d =>
        K.hash (block 6561 (chainEnds K n key) d)))).1 := by
  have hblocks : n * 6561 / 243 = 27 * n := by omega
  have hdigest : ∀ j ∈ List.range n, ∀ s, K.absorb s (issKerlSigDigest K
      (normalized.drop (81 * j % 243))
      (block 6561 (issKerlSignature K normalized key (n * 6561) K.init).1 j) 6561 K.init).1 =
      K.absorb s (K.hash (block 6561 (chainEnds K n key) j)) := by
    intro j hj s
    have hlt := List.mem_range.mp hj
    have hmod : 81 * j % 243 = 81 * j := by omega
    have hend : (block 6561 (chainEnds K n key) j).length = 6561 :=
      length_block (by rw [length_chainEnds K hl]; omega)
    rw [issKerlSigDigest, issKerlSignature, hblocks, K.hashBlocks_init, K.hashBlocks_init, hmod]
    dsimp only
    rw [mapBlocks_fragment K hl hlt hn, List.take_of_length_le (Nat.le_of_eq hend)]
    rfl
  have hfold := digestFragments_range' K normalized
    (block 6561 (issKerlSignature K normalized key (n * 6561) K.init).1) n
    (show 0 % 243 = 81 * 0 % 243 from rfl) K.init
  rw [← List.range_eq_range'] at hfold
  rw [signatureAddress, hfold, List.foldl_ext _ _ _ fun s j hj => hdigest j hj s,
    ← K.absorb_flatMap _ _ fun _ => K.length_hash _]

end Walks

/-! ## Completeness -/

section Completeness

variable {σ : Type} (K : Kerl σ)

/-- A sponge over numbers, to try the definitions on. -/
def countingKerl : Kerl ℤ where
  init := 0
  update s b := 7 * s + value b + 1
  extract s := (digits 242 s ++ [0], s + 1)
  length_extract s := by rw [List.length_append, length_digits]; rfl
  trits_extract s := trits_append.mpr ⟨trits_digits 242 s, by decide⟩

theorem privateKey_spec (seed : List ℤ) (index : UInt64) (n : ℕ) :
    ∃ k : List ℤ, privateKey K seed index (n * 6561) = (k, K.init) ∧ k.length = 6561 * n ∧
      Trits k := by
  rw [privateKey, Nat.mul_comm n]
  exact issKerlKey_spec K _ List.length_replicate (trits_replicate _)

/-- What `iota_sign_signature_gen_trits` returns, and the address it leads to. -/
theorem signatureGen_spec (seed : List ℤ) (index : UInt64) {security : ℕ}
    (hs : 0 < security ∧ security ≤ 3) {bundleHash : List ℤ} (hh : Trits bundleHash) :
    ∃ signature,
      iotaSignSignatureGenTrits K seed index security bundleHash = some signature ∧
      signature.length = security * 6561 ∧ Trits signature ∧
      ∀ buffer : List ℤ, buffer.length = 243 →
        iotaSignAddressGenTrits K seed index security =
          some (signatureAddress K (normalizeHashToTrits bundleHash buffer)
            ((List.range security).map (block 6561 signature))) := by
  obtain ⟨key, hkey, hlen, htrits⟩ := privateKey_spec K seed index security
  have hn : ∀ i < 27 * security,
      InTryte (hashTryteVal (normalizeHashToTrits bundleHash (List.replicate 243 0)) i) := by
    intro i hi
    obtain ⟨he, hv⟩ := hashTryteVal_normalized hh List.length_replicate (show i < 81 by omega)
    rw [he]
    exact hv
  refine ⟨_, by rw [iotaSignSignatureGenTrits, if_pos hs], ?_, ?_, fun buffer hb => ?_⟩
  · rw [hkey, issKerlSignature, K.hashBlocks_init]
    dsimp only
    rw [length_mapBlocks (fun _ _ hb => K.length_iterate_hash _ hb) (by omega), hlen, Nat.mul_comm]
  · rw [hkey, issKerlSignature, K.hashBlocks_init]
    exact forall_mem_mapBlocks (fun _ _ hb => K.trits_iterate_hash _ hb) htrits
  · have hbuf : normalizeHashToTrits bundleHash buffer =
        normalizeHashToTrits bundleHash (List.replicate 243 0) := by
      rw [normalizeHashToTrits_eq hh hb, normalizeHashToTrits_eq hh List.length_replicate]
    rw [hbuf, hkey, iotaSignAddressGenTrits, if_pos hs, hkey]
    dsimp only
    rw [address_of_key K hlen, signatureAddress_of_key K hlen hs.2 hn]

/-- **Completeness.** Cut into fragments and checked as a bundle is, the signature of a hash
leads to the address of the same seed, index and security level. -/
theorem signatureAddress_signatureGen (seed : List ℤ) (index : UInt64) {security : ℕ}
    (hs : 0 < security ∧ security ≤ 3) {bundleHash buffer : List ℤ} (hh : Trits bundleHash)
    (hb : buffer.length = 243) :
    ∃ signature address,
      iotaSignSignatureGenTrits K seed index security bundleHash = some signature ∧
      iotaSignAddressGenTrits K seed index security = some address ∧
      signature.length = security * 6561 ∧
      signatureAddress K (normalizeHashToTrits bundleHash buffer)
        ((List.range security).map (block 6561 signature)) = address := by
  obtain ⟨signature, hsig, hlen, -, haddr⟩ := signatureGen_spec K seed index hs hh
  exact ⟨signature, _, hsig, haddr buffer hb, hlen, rfl⟩

/-- The theorem at the highest level, over a sponge that adds up what it absorbs. -/
theorem signatureAddress_signatureGen_three :
    ∃ signature address,
      iotaSignSignatureGenTrits countingKerl [1, 0, -1] 7 3 (List.replicate 243 1) =
        some signature ∧
      iotaSignAddressGenTrits countingKerl [1, 0, -1] 7 3 = some address ∧
      signature.length = 3 * 6561 ∧
      signatureAddress countingKerl
        (normalizeHashToTrits (List.replicate 243 1) (List.replicate 243 0))
        ((List.range 3).map (block 6561 signature)) = address :=
  signatureAddress_signatureGen countingKerl [1, 0, -1] 7 (by decide)
    (fun _ ht => .inr (.inr (List.eq_of_mem_replicate ht))) List.length_replicate

end Completeness

end Entangled
