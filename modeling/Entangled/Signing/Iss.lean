import Entangled.Common.Blocks
import Entangled.Common.Ternary
/-!
# Keys, signatures and digests

`iss.c.inc` over Kerl: the subseed of an index, the private key, its digest and address,
the signature under a normalized hash and the digest of a signature fragment. The buffers
are worked on in place and the sponge is passed along from call to call, as the source does.

Kerl itself is a parameter. Every call leaves it reset, and from a reset sponge each loop is
`mapBlocks` of an iterate of one function, `Kerl.hash`: a key block is hashed 26 times for the
digest of the key, and the signature and its digest split these 26 between them.
-/

namespace Entangled

open Ternary

/-- The sponge: its state after `kerl_init`, what absorbing one block of 243 trits makes of a
state, and the block that squeezing one gives. -/
structure Kerl (σ : Type) where
  init : σ
  update : σ → List ℤ → σ
  extract : σ → List ℤ × σ
  length_extract : ∀ s, (extract s).1.length = 243
  trits_extract : ∀ s, Trits (extract s).1

namespace Kerl

variable {σ : Type} (K : Kerl σ)

/-- `kerl_absorb`. -/
def absorb (s : σ) (trits : List ℤ) : σ :=
  (List.range (trits.length / 243)).foldl (fun s i => K.update s (block 243 trits i)) s

/-- `kerl_squeeze` of one block. -/
def squeeze (s : σ) : List ℤ × σ := K.extract s

/-- Absorb a block, squeeze it back over itself, reset: the body of every inner loop. -/
def rehash (p : List ℤ × σ) : List ℤ × σ := ((K.squeeze (K.absorb p.2 p.1)).1, K.init)

/-- A loop that hashes block `i` of a buffer in place, `rounds i` times. -/
def hashBlocks (rounds : ℕ → ℕ) (m : ℕ) (p : List ℤ × σ) : List ℤ × σ :=
  (List.range m).foldl (fun p i =>
    let q := K.rehash^[rounds i] (block 243 p.1 i, p.2)
    (blit p.1 (243 * i) q.1, q.2)) p

end Kerl

/-! ## Adding an index to a seed -/

/-- `trit_cons`. -/
def tritCons (a b : ℤ) : ℤ := if a = b then a else 0

/-- `trit_sum`. -/
def tritSum (a b : ℤ) : ℤ :=
  if a + b = 2 then -1 else if a + b = -2 then 1 else a + b

/-- `trit_full_add`: the sum and the carry. -/
def tritFullAdd (a b c : ℤ) : ℤ × ℤ :=
  let sab := tritSum a b
  let x := tritCons a b + tritCons sab c
  (tritSum sab c, x.sign)

/-- `add_internal`, from the carry `c`. -/
def addInternal (negative : Bool) : List ℤ → Int64 → ℤ → List ℤ
  | [], _, _ => []
  | t :: ts, v, c =>
    if v = 0 ∧ c = 0 then t :: ts
    else
      let trit := ((v + 1) % 3 - 1).toInt
      let trit := if negative then -trit else trit
      let r := tritFullAdd t trit c
      r.1 :: addInternal negative ts ((v + 1) / 3) r.2

/-- `add_assign`. -/
def addAssign (t : List ℤ) (v : Int64) : List ℤ := addInternal (v < 0) t v 0

/-! ## The signature scheme -/

section Scheme

variable {σ : Type} (K : Kerl σ)

/-- The conversion of an `int` to `size_t`. -/
def sizeOfInt (v : ℤ) : ℕ := (v % 2 ^ 64).toNat

/-- `iss_kerl_subseed`. -/
def issKerlSubseed (seed : List ℤ) (index : Int64) (s : σ) : List ℤ × σ :=
  let out := addAssign (seed.take 243) index
  ((K.squeeze (K.absorb s out)).1, K.init)

/-- The loop of `iss_kerl_key`, which fills `key` with squeezed blocks. -/
def squeezeKey (m : ℕ) (p : List ℤ × σ) : List ℤ × σ :=
  (List.range m).foldl (fun p i =>
    let q := K.squeeze p.2
    (blit p.1 (243 * i) q.1, q.2)) p

/-- `iss_kerl_key`. -/
def issKerlKey (subseed key : List ℤ) (keyLength : ℕ) (s : σ) : List ℤ × σ :=
  if keyLength % 243 ≠ 0 then (key, s)
  else
    let p := squeezeKey K (keyLength / 243) (key, K.absorb s (subseed.take 243))
    (p.1, K.init)

/-- The second loop of `iss_kerl_key_digest` where the digest goes over the head of the key:
each digest is written below the stretch of key that is read next. -/
def digestKey (m : ℕ) (p : List ℤ × σ) : List ℤ × σ :=
  (List.range m).foldl (fun p d =>
    (blit p.1 (243 * d) (K.squeeze (K.absorb p.2 (block 6561 p.1 d))).1, K.init)) p

/-- `iss_kerl_key_digest` called with `digest = key`. -/
def issKerlKeyDigest (key : List ℤ) (keyLength : ℕ) (s : σ) : List ℤ × σ :=
  if keyLength % 6561 ≠ 0 then (key, s)
  else digestKey K (keyLength / 6561) (K.hashBlocks (fun _ => 26) (keyLength / 243) (key, s))

/-- `iss_kerl_address`. -/
def issKerlAddress (digest : List ℤ) (digestLength : ℕ) (s : σ) : List ℤ × σ :=
  ((K.squeeze (K.absorb s (digest.take digestLength))).1, K.init)

/-- `HASH_TRYTE_VAL`. -/
def hashTryteVal (hash : List ℤ) (i : ℕ) : ℤ :=
  hash.getD (i * 3) 0 + hash.getD (i * 3 + 1) 0 * 3 + hash.getD (i * 3 + 2) 0 * 9

/-- `iss_kerl_signature` called with `sig = key`. -/
def issKerlSignature (hash key : List ℤ) (keyLen : ℕ) (s : σ) : List ℤ × σ :=
  K.hashBlocks (fun i => sizeOfInt (13 - hashTryteVal hash i)) (keyLen / 243) (key, s)

/-- `iss_kerl_sig_digest`: the digest. -/
def issKerlSigDigest (hash sig : List ℤ) (sigLen : ℕ) (s : σ) : List ℤ × σ :=
  let p := K.hashBlocks (fun i => sizeOfInt (hashTryteVal hash i - -13)) (sigLen / 243) (sig, s)
  ((K.squeeze (K.absorb p.2 (p.1.take sigLen))).1, K.init)

end Scheme

/-! ## The loops from a reset sponge -/

namespace Kerl

variable {σ : Type} (K : Kerl σ)

/-- The hash of one block. -/
def hash (b : List ℤ) : List ℤ := (K.squeeze (K.absorb K.init b)).1

theorem length_hash (b : List ℤ) : (K.hash b).length = 243 := K.length_extract _

theorem iterate_rehash (n : ℕ) (b : List ℤ) :
    K.rehash^[n] (b, K.init) = (K.hash^[n] b, K.init) := by
  induction n generalizing b with
  | zero => rfl
  | succ n ih =>
    rw [Function.iterate_succ_apply, Function.iterate_succ_apply, ← ih]
    rfl

theorem length_iterate_hash (n : ℕ) {b : List ℤ} (hb : b.length = 243) :
    (K.hash^[n] b).length = 243 := by
  cases n with
  | zero => exact hb
  | succ n =>
    rw [Function.iterate_succ_apply']
    exact K.length_extract _

theorem trits_iterate_hash (n : ℕ) {b : List ℤ} (hb : Trits b) : Trits (K.hash^[n] b) := by
  cases n with
  | zero => exact hb
  | succ n =>
    rw [Function.iterate_succ_apply']
    exact K.trits_extract _

theorem hashBlocks_init (rounds : ℕ → ℕ) (m : ℕ) (buffer : List ℤ) :
    K.hashBlocks rounds m (buffer, K.init) =
      (mapBlocks 243 (fun i => K.hash^[rounds i]) m buffer, K.init) := by
  induction m with
  | zero => rfl
  | succ m ih =>
    have hstep : K.hashBlocks rounds (m + 1) (buffer, K.init) =
        let p := K.hashBlocks rounds m (buffer, K.init)
        let q := K.rehash^[rounds m] (block 243 p.1 m, p.2)
        (blit p.1 (243 * m) q.1, q.2) := by
      rw [hashBlocks, List.range_succ, List.foldl_append]
      rfl
    rw [hstep, ih, mapBlocks_succ]
    dsimp only
    rw [K.iterate_rehash]

/-- Absorbing whole blocks one after the other is absorbing them in one go. -/
theorem absorb_append (s : σ) {l l' : List ℤ} (hl : l.length % 243 = 0) :
    K.absorb s (l ++ l') = K.absorb (K.absorb s l) l' := by
  obtain ⟨n, hn⟩ : ∃ n, l.length = 243 * n := ⟨l.length / 243, by omega⟩
  have hdiv : l.length / 243 = n := by omega
  have hdiv' : (l ++ l').length / 243 = n + l'.length / 243 := by
    rw [List.length_append]
    omega
  have hleft : ∀ i ∈ List.range n, ∀ s, K.update s (block 243 (l ++ l') i) =
      K.update s (block 243 l i) := by
    intro i hi s
    have hlt := List.mem_range.mp hi
    rw [block, block, List.drop_append_of_le_length (by omega), List.take_append_of_le_length]
    rw [List.length_drop]
    omega
  have hright : ∀ i, block 243 (l ++ l') (n + i) = block 243 l' i := by
    intro i
    rw [← block_drop, ← hn, List.drop_left]
  rw [absorb, absorb, absorb, hdiv, hdiv', List.range_add, List.foldl_append, List.foldl_map]
  simp only [hright]
  rw [List.foldl_ext _ _ _ fun s i hi => hleft i hi s]

theorem absorb_flatMap (s : σ) {m : ℕ} (f : ℕ → List ℤ) (hf : ∀ i, (f i).length = 243) :
    K.absorb s ((List.range m).flatMap f) =
      (List.range m).foldl (fun s i => K.absorb s (f i)) s := by
  induction m with
  | zero => simp [absorb]
  | succ m ih =>
    have hlen : ((List.range m).flatMap f).length % 243 = 0 := by
      rw [List.length_flatMap]
      simp [hf]
    rw [List.range_succ, List.flatMap_append, List.foldl_append, K.absorb_append s hlen, ih]
    simp

end Kerl

section Scheme

variable {σ : Type} (K : Kerl σ)

theorem squeezeKey_succ (m : ℕ) (p : List ℤ × σ) :
    squeezeKey K (m + 1) p =
      let q := squeezeKey K m p
      (blit q.1 (243 * m) (K.squeeze q.2).1, (K.squeeze q.2).2) := by
  rw [squeezeKey, List.range_succ, List.foldl_append]
  rfl

theorem squeezeKey_spec {m : ℕ} {key : List ℤ} (s : σ) (hm : 243 * m ≤ key.length)
    (ht : Trits key) :
    (squeezeKey K m (key, s)).1.length = key.length ∧ Trits (squeezeKey K m (key, s)).1 := by
  induction m with
  | zero => exact ⟨rfl, ht⟩
  | succ m ih =>
    obtain ⟨hl, htr⟩ := ih (by omega)
    have hq : (K.squeeze (squeezeKey K m (key, s)).2).1.length = 243 := K.length_extract _
    rw [squeezeKey_succ]
    dsimp only
    refine ⟨by rw [length_blit (by omega), hl], ?_⟩
    rw [blit, trits_append, trits_append]
    exact ⟨⟨htr.take _, K.trits_extract _⟩, htr.drop _⟩

/-- The private key is as long as its buffer and made of trits. -/
theorem issKerlKey_spec {subseed key : List ℤ} {n : ℕ} (s : σ) (hl : key.length = 6561 * n)
    (ht : Trits key) :
    ∃ k : List ℤ, issKerlKey K subseed key (6561 * n) s = (k, K.init) ∧ k.length = 6561 * n ∧
      Trits k := by
  have hspec := squeezeKey_spec K (m := 6561 * n / 243) (K.absorb s (subseed.take 243))
    (by omega) ht
  refine ⟨_, ?_, hspec.1.trans hl, hspec.2⟩
  rw [issKerlKey, if_neg (by omega)]

/-- **The digests over the head of the key.** Each is that of a stretch of key no write has
reached yet. -/
theorem digestKey_init {m : ℕ} {key : List ℤ} (hm : 6561 * m ≤ key.length) :
    digestKey K m (key, K.init) =
      (blit key 0 ((List.range m).flatMap fun d => K.hash (block 6561 key d)), K.init) := by
  induction m with
  | zero => simp [digestKey]
  | succ m ih =>
    have hlen : ((List.range m).flatMap fun d => K.hash (block 6561 key d)).length = 243 * m := by
      rw [List.length_flatMap]
      simp [K.length_hash, Nat.mul_comm]
    have hread : block 6561 (blit key 0
        ((List.range m).flatMap fun d => K.hash (block 6561 key d))) m = block 6561 key m :=
      take_drop_blit_of_disjoint (by omega) (.inr (by omega))
    have hstep : digestKey K (m + 1) (key, K.init) =
        let p := digestKey K m (key, K.init)
        (blit p.1 (243 * m) (K.squeeze (K.absorb p.2 (block 6561 p.1 m))).1, K.init) := by
      rw [digestKey, List.range_succ, List.foldl_append]
      rfl
    have hnew := K.length_hash (block 6561 key m)
    have hwrite := blit_blit key ((List.range m).flatMap fun d => K.hash (block 6561 key d))
      (K.hash (block 6561 key m)) 0 (by omega)
    rw [hstep, ih (by omega)]
    dsimp only
    rw [hread, List.range_succ, List.flatMap_append, List.flatMap_singleton, ← hwrite, hlen,
      Nat.zero_add]
    rfl

end Scheme

end Entangled
