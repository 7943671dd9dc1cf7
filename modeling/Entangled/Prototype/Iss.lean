import Entangled.Merkle.Tree
import Entangled.Signing.Normalize
/-!
# Signatures under a window

`iss.c.inc` of the second version, over Curl. A hash is signed as it is: the first `w` of its three
blocks of 81 trits are signed, where `w` is the first number of blocks whose trits sum up to zero.
Each chunk of the key is hashed as many times as the value of its tryte is below 13, and the digest
of a signature hashes it as many times as the value is above -13.
-/

namespace Entangled

namespace Prototype

open Merkle Ternary

/-! ## The window -/

/-- The loop of `signed_window`, with the rounds that are left. -/
def windowFrom : ℕ → ℕ → ℤ → List ℤ → ℕ
  | 0, _, _, _ => 0
  | rounds + 1, i, sum, hash =>
    let sum := sum + (hash.take 81).sum
    if sum = 0 then i else windowFrom rounds (i + 1) sum (hash.drop 81)

/-- `signed_window`. -/
def signedWindow (hash : List ℤ) : ℕ := windowFrom 3 1 0 hash

theorem windowFrom_eq_iff {rounds i w : ℕ} {sum : ℤ} {hash : List ℤ} (hi : 0 < i) (hw : w ≠ 0) :
    windowFrom rounds i sum hash = w ↔
      (i ≤ w ∧ w < i + rounds ∧ sum + (hash.take (81 * (w + 1 - i))).sum = 0 ∧
        ∀ v, i ≤ v → v < w → sum + (hash.take (81 * (v + 1 - i))).sum ≠ 0) := by
  induction rounds generalizing i sum hash with
  | zero =>
    rw [windowFrom]
    exact ⟨fun h => absurd h.symm hw, fun h => absurd h.2.1 (by omega)⟩
  | succ rounds ih =>
    rw [windowFrom]
    have hsplit : ∀ v, i + 1 ≤ v → sum + (hash.take (81 * (v + 1 - i))).sum =
        sum + (hash.take 81).sum + ((hash.drop 81).take (81 * (v + 1 - (i + 1)))).sum := by
      intro v hv
      rw [show 81 * (v + 1 - i) = 81 + 81 * (v + 1 - (i + 1)) by omega, List.take_add,
        List.sum_append, add_assoc]
    have hfirst : 81 * (i + 1 - i) = 81 := by omega
    split_ifs with hzero
    · constructor
      · rintro rfl
        exact ⟨le_rfl, by omega, by rw [hfirst, hzero], fun v hv hlt => by omega⟩
      · rintro ⟨hle, -, -, hbefore⟩
        by_contra hne
        exact hbefore i le_rfl (by omega) (by rw [hfirst, hzero])
    · rw [ih (by omega)]
      constructor
      · rintro ⟨hle, hlt, hsum, hbefore⟩
        refine ⟨by omega, by omega, by rw [hsplit w hle, hsum], fun v hv hlt => ?_⟩
        rcases Nat.eq_or_lt_of_le hv with rfl | hv
        · rwa [hfirst]
        · rw [hsplit v hv]
          exact hbefore v hv hlt
      · rintro ⟨hle, hlt, hsum, hbefore⟩
        have hle : i + 1 ≤ w := by
          rcases Nat.eq_or_lt_of_le hle with rfl | hlt
          · rw [hfirst] at hsum
            exact absurd hsum hzero
          · exact hlt
        refine ⟨hle, by omega, by rw [← hsplit w hle, hsum], fun v hv hlt => ?_⟩
        rw [← hsplit v hv]
        exact hbefore v (by omega) hlt

/-- **The window** is the first number of blocks that sum up to zero. -/
theorem signedWindow_eq_iff {hash : List ℤ} {w : ℕ} (hw : w ≠ 0) :
    signedWindow hash = w ↔
      (w ≤ 3 ∧ (hash.take (81 * w)).sum = 0 ∧ ∀ v, 0 < v → v < w → (hash.take (81 * v)).sum ≠ 0) := by
  rw [signedWindow, windowFrom_eq_iff (by omega) hw]
  simp only [zero_add, Nat.add_sub_cancel]
  constructor
  · rintro ⟨h1, hlt, hsum, hbefore⟩
    exact ⟨by omega, hsum, hbefore⟩
  · rintro ⟨hle, hsum, hbefore⟩
    exact ⟨by omega, by omega, hsum, hbefore⟩

theorem signedWindow_le (hash : List ℤ) : signedWindow hash ≤ 3 := by
  by_cases hw : signedWindow hash = 0
  · omega
  · exact ((signedWindow_eq_iff hw).1 rfl).1

/-! ## Signatures and their digests -/

section Scheme

variable {σ : Type} (C : Curl σ)

/-- `iss_curl_digest`: the chunk and the sponge. -/
def issCurlDigest (chunk : List ℤ) (count : ℤ) (c : σ) : List ℤ × σ :=
  if 27 ≤ count ∨ count < 0 then (chunk, c) else (rehash C)^[count.toNat] (chunk, c)

/-- The loops over the chunks, for as many as are left: `i` is the block of the window, `j` the first
trit of the tryte and `k` the chunk. -/
def chunkLoop (count : ℤ → ℤ) (hash : List ℤ) (window : ℕ) :
    ℕ → ℕ → ℕ → ℕ → List ℤ × σ → List ℤ × σ
  | 0, _, _, _, p => p
  | chunks + 1, i, j, k, p =>
    let s := hash.getD j 0 + hash.getD (j + 1) 0 * 3 + hash.getD (j + 2) 0 * 9
    let q := issCurlDigest C (block 243 p.1 k) (count s) p.2
    let p := (blit p.1 (243 * k) q.1, q.2)
    if j + 3 < (i + 1) * 81 then chunkLoop count hash window chunks i (j + 3) (k + 1) p
    else
      let i := (i + 1) % window
      chunkLoop count hash window chunks i (i * 81) (k + 1) p

/-- The chunks of a buffer, the last one in part. -/
def chunksOf (length : ℕ) : ℕ := (length + 242) / 243

/-- `iss_curl_signature`: the return code, the signature and the sponge. -/
def issCurlSignature (hash : List ℤ) (startOffset : ℕ) (key : List ℤ) (keyLen : ℕ) (c : σ) :
    ℤ × List ℤ × σ :=
  let window := signedWindow hash
  if window = 0 then (1, key, c)
  else
    let i := startOffset % window
    (0, chunkLoop C (fun s => 13 - s) hash window (chunksOf keyLen) i (i * 81) 0 (key, c))

/-- `iss_curl_sig_digest`: the return code, the digest, what is left of the signature and the
sponge. -/
def issCurlSigDigest (dig hash : List ℤ) (offset : ℕ) (sig : List ℤ) (sigLen : ℕ) (c : σ) :
    ℤ × List ℤ × List ℤ × σ :=
  let window := signedWindow hash
  if window = 0 then (1, dig, sig, c)
  else
    let i := offset % window
    let p := chunkLoop C (fun s => s + 13) hash window (chunksOf sigLen) i (i * 81) 0 (sig, c)
    (0, (C.squeeze (C.absorb p.2 (p.1.take (window * issKeyLength))) 243).1, p.1, C.reset)

end Scheme

/-! ## What is made of each chunk -/

section Chunks

variable {σ : Type} {C : Curl σ} {hash : List ℤ}

/-- A hash of a hash, with a sponge that is reset. -/
def hashChunk (C : Curl σ) (chunk : List ℤ) : List ℤ := (C.squeeze (C.absorb C.reset chunk) 243).1

theorem rehash_iterate (n : ℕ) (chunk : List ℤ) :
    (rehash C)^[n] (chunk, C.reset) = ((hashChunk C)^[n] chunk, C.reset) := by
  induction n generalizing chunk with
  | zero => rfl
  | succ n ih =>
    rw [Function.iterate_succ_apply, Function.iterate_succ_apply, ← ih]
    rfl

/-- The tryte for a chunk: the trytes of the window are gone through again and again. -/
def tryteOf (window start k : ℕ) : ℕ := (27 * (start % window) + k) % (27 * window)

/-- The rounds for a chunk. -/
def roundsOf (count : ℤ → ℤ) (hash : List ℤ) (window start k : ℕ) : ℕ :=
  (count (hashTryteVal hash (tryteOf window start k))).toNat

theorem issCurlDigest_eq {count : ℤ} (h0 : 0 ≤ count) (h27 : count < 27) (chunk : List ℤ) :
    issCurlDigest C chunk count C.reset = ((hashChunk C)^[count.toNat] chunk, C.reset) := by
  rw [issCurlDigest, if_neg (by omega), rehash_iterate]

theorem chunkLoop_eq {count : ℤ → ℤ} (hhash : Trits hash)
    (hcount : ∀ s, InTryte s → 0 ≤ count s ∧ count s < 27) {window start : ℕ} (hwindow : 0 < window)
    {chunks i j k : ℕ} {p : List ℤ × σ} (hp : p.2 = C.reset) (hi : i < window)
    (hj : j + 3 ≤ (i + 1) * 81) (hij : i * 81 ≤ j) (hj3 : 3 ∣ j)
    (hpos : tryteOf window start k = j / 3) :
    chunkLoop C count hash window chunks i j k p =
      ((List.range' k chunks).foldl (fun buffer k => blit buffer (243 * k)
        ((hashChunk C)^[roundsOf count hash window start k] (block 243 buffer k))) p.1,
        C.reset) := by
  induction chunks generalizing i j k p with
  | zero =>
    obtain ⟨buffer, c⟩ := p
    obtain rfl : c = C.reset := hp
    rfl
  | succ chunks ih =>
    obtain ⟨m, rfl⟩ := hj3
    have hval : hash.getD (3 * m) 0 + hash.getD (3 * m + 1) 0 * 3 + hash.getD (3 * m + 2) 0 * 9 =
        hashTryteVal hash (tryteOf window start k) := by
      rw [hpos, Nat.mul_div_cancel_left m (by decide), hashTryteVal, Nat.mul_comm m 3]
    obtain ⟨h0, h27⟩ := hcount _ (inTryte_hashTryteVal hhash (tryteOf window start k))
    have hnext : tryteOf window start (k + 1) = (3 * m / 3 + 1) % (27 * window) := by
      rw [← hpos, tryteOf, tryteOf, Nat.mod_add_mod, Nat.add_assoc]
    rw [Nat.mul_div_cancel_left m (by decide)] at hnext
    rw [chunkLoop]
    dsimp only
    rw [hval, hp, issCurlDigest_eq h0 h27, List.range'_succ, List.foldl_cons]
    split_ifs with hinner
    · refine ih rfl hi (by omega) (by omega) ⟨m + 1, by omega⟩ ?_
      rw [hnext, Nat.mod_eq_of_lt (by nlinarith)]
      omega
    · have hend : m + 1 = 27 * (i + 1) := by omega
      have hmod : (i + 1) % window < window := Nat.mod_lt _ hwindow
      refine ih rfl hmod (by omega) le_rfl ⟨27 * ((i + 1) % window), by ring⟩ ?_
      rw [hnext, hend, Nat.mul_mod_mul_left]
      omega

/-- **The loops over the chunks** hash each chunk by its tryte. -/
theorem chunkLoop_block {count : ℤ → ℤ} (hhash : Trits hash)
    (hcount : ∀ s, InTryte s → 0 ≤ count s ∧ count s < 27) {window : ℕ} (hwindow : 0 < window)
    (start chunks : ℕ) (buffer : List ℤ) :
    chunkLoop C count hash window chunks (start % window) (start % window * 81) 0
        (buffer, C.reset) =
      (mapBlocks 243 (fun k => (hashChunk C)^[roundsOf count hash window start k]) chunks buffer,
        C.reset) := by
  have hmod : start % window < window := Nat.mod_lt _ hwindow
  rw [@chunkLoop_eq _ C hash count hhash hcount window start hwindow _ _ _ _ _ rfl hmod (by omega) le_rfl
    ⟨27 * (start % window), by ring⟩ ?_]
  · rw [mapBlocks, List.range_eq_range']
  · rw [tryteOf, Nat.add_zero, Nat.mul_mod_mul_left, Nat.mod_mod]
    omega

end Chunks

end Prototype

end Entangled
