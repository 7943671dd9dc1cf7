import Entangled.Prototype.Iss
import Mathlib.Algebra.BigOperators.Group.Finset.Basic
import Mathlib.Algebra.Order.BigOperators.Group.Finset
import Mathlib.Tactic.FinCases
/-!
# Signatures that can be shifted

A chunk of a signature is a hash of the same chunk for a higher tryte, so who has the signature of a
hash has those of all hashes whose trytes are nowhere higher. The window is there to exclude them,
but it sums up trits and not trytes: a tryte can be lowered without a change of the sum of its trits,
unless it is the least of all trytes with this sum.
-/

namespace Entangled

namespace Prototype

open Merkle Ternary Finset

/-- A hash. -/
abbrev Hash := {hash : List ℤ // hash.length = 243 ∧ Trits hash}

/-- How often `iss_curl_signature` hashes the chunk for a tryte. -/
def iterations (hash : List ℤ) (p : ℕ) : ℕ := (13 - hashTryteVal hash p).toNat

/-- The signature of each chunk. -/
theorem issCurlSignature_eq {σ : Type} {C : Curl σ} {hash : List ℤ} (hhash : Trits hash)
    (hw : signedWindow hash ≠ 0) (start : ℕ) (key : List ℤ) (keyLen : ℕ) :
    issCurlSignature C hash start key keyLen C.reset =
      (0, mapBlocks 243 (fun k => (hashChunk C)^[iterations hash
        (tryteOf (signedWindow hash) start k)]) (chunksOf keyLen) key, C.reset) := by
  unfold issCurlSignature
  dsimp only
  rw [if_neg hw, chunkLoop_block hhash (fun s hs => ?_) (Nat.pos_of_ne_zero hw)]
  · rfl
  · unfold InTryte at hs
    omega

/-- **The hash keeps its signature**: every other hash with the same window needs a chunk to be hashed
less often. -/
def Unshiftable (hash : Hash) : Prop :=
  ∀ hash' : Hash, signedWindow hash.1 ≠ 0 → signedWindow hash'.1 = signedWindow hash.1 →
    hash'.1.take (81 * signedWindow hash.1) ≠ hash.1.take (81 * signedWindow hash.1) →
      ∃ p < 27 * signedWindow hash.1, iterations hash'.1 p < iterations hash.1 p

/-- The trytes that are the least with the sum of their trits. -/
def leastTrytes : List ℤ := [-13, -12, -11, -8, -5, 4, 13]

/-! ## Trytes -/

/-- The sum of the trits of a tryte. -/
def tryteSum (hash : List ℤ) (p : ℕ) : ℤ := (block 3 hash p).sum

/-- The trits of the least tryte with a sum. -/
def leastTrits (sum : ℤ) : List ℤ :=
  if sum ≤ -3 then [-1, -1, -1]
  else if sum = -2 then [0, -1, -1]
  else if sum = -1 then [1, -1, -1]
  else if sum = 0 then [1, 0, -1]
  else if sum = 1 then [1, 1, -1]
  else if sum = 2 then [1, 1, 0]
  else [1, 1, 1]

theorem length_leastTrits (sum : ℤ) : (leastTrits sum).length = 3 := by
  unfold leastTrits
  split_ifs <;> rfl

theorem trits_leastTrits (sum : ℤ) : Trits (leastTrits sum) := by
  unfold leastTrits
  split_ifs <;> decide

/-- A higher sum, a higher tryte. -/
theorem value_leastTrits_lt {sum sum' : ℤ} (hlow : -3 ≤ sum) (hlt : sum < sum') (hhigh : sum' ≤ 3) :
    value (leastTrits sum) < value (leastTrits sum') := by
  have hcases : ∀ s : ℤ, -3 ≤ s → s ≤ 3 → s = -3 ∨ s = -2 ∨ s = -1 ∨ s = 0 ∨ s = 1 ∨ s = 2 ∨ s = 3 :=
    fun s h1 h2 => by omega
  rcases hcases sum hlow (by omega) with rfl | rfl | rfl | rfl | rfl | rfl | rfl <;>
    rcases hcases sum' (by omega) hhigh with rfl | rfl | rfl | rfl | rfl | rfl | rfl <;>
    first | omega | decide

/-- A tryte, its sum and the least one with it. -/
theorem tryte_facts {b : List ℤ} (hlen : b.length = 3) (hb : Trits b) :
    (-3 ≤ b.sum ∧ b.sum ≤ 3) ∧ value (leastTrits b.sum) ≤ value b ∧
      (leastTrits b.sum).sum = b.sum ∧
      (value b ∈ leastTrytes ↔ value b = value (leastTrits b.sum)) := by
  obtain ⟨t, u, v, rfl⟩ := List.length_eq_three.1 hlen
  simp only [trits_cons] at hb
  obtain ⟨ht, hu, hv, -⟩ := hb
  rcases ht with rfl | rfl | rfl <;> rcases hu with rfl | rfl | rfl <;>
    rcases hv with rfl | rfl | rfl <;> decide

section Sums

variable {hash : List ℤ}

theorem length_block_three (hlen : hash.length = 243) {p : ℕ} (hp : p < 81) :
    (block 3 hash p).length = 3 := length_block (by omega)

theorem trits_block (hhash : Trits hash) (p : ℕ) : Trits (block 3 hash p) :=
  (hhash.drop _).take _

/-- The trits of the first trytes. -/
theorem sum_take (n : ℕ) : (hash.take (3 * n)).sum = ∑ p ∈ range n, tryteSum hash p := by
  induction n with
  | zero => rfl
  | succ n ih =>
    rw [sum_range_succ, ← ih, tryteSum, block, Nat.mul_succ, List.take_add, List.sum_append]

theorem sum_window (v : ℕ) : (hash.take (81 * v)).sum = ∑ p ∈ range (27 * v), tryteSum hash p := by
  rw [← sum_take]
  congr 2
  omega

/-- The window sees the sums of the trytes only. -/
theorem signedWindow_congr {hash' : List ℤ} (hw : signedWindow hash ≠ 0)
    (hsame : ∀ p, tryteSum hash' p = tryteSum hash p) : signedWindow hash' = signedWindow hash := by
  have hsum : ∀ v, (hash'.take (81 * v)).sum = (hash.take (81 * v)).sum := by
    intro v
    rw [sum_window, sum_window]
    exact sum_congr rfl fun p _ => hsame p
  obtain ⟨hle, hzero, hbefore⟩ := (signedWindow_eq_iff hw).1 rfl
  refine (signedWindow_eq_iff hw).2 ⟨hle, by rw [hsum, hzero], fun v hv hlt => ?_⟩
  rw [hsum]
  exact hbefore v hv hlt

/-- The trytes of the window. -/
theorem block_take_window {w p : ℕ} (hp : p < 27 * w) :
    block 3 (hash.take (81 * w)) p = block 3 hash p := by
  rw [block, block, List.drop_take, List.take_take, min_eq_left (by omega)]

theorem iterations_lt_iff {hash' : List ℤ} (hhash : Trits hash) (hhash' : Trits hash') (p : ℕ) :
    iterations hash' p < iterations hash p ↔ hashTryteVal hash p < hashTryteVal hash' p := by
  have h1 := inTryte_hashTryteVal hhash p
  have h2 := inTryte_hashTryteVal hhash' p
  unfold InTryte at h1 h2
  unfold iterations
  omega

end Sums

/-! ## Where every tryte is the least -/

/-- **Nothing is below** least trytes. -/
theorem unshiftable_of_least {hash : Hash}
    (hleast : ∀ p < 27 * signedWindow hash.1, hashTryteVal hash.1 p ∈ leastTrytes) :
    Unshiftable hash := by
  obtain ⟨hash, hlen, hhash⟩ := hash
  rintro ⟨hash', hlen', hhash'⟩ hw hsame hdiff
  dsimp only at hleast hw hsame hdiff ⊢
  have hw3 := signedWindow_le hash
  by_contra! hnone
  have hlow : ∀ p < 27 * signedWindow hash, value (block 3 hash' p) ≤ value (block 3 hash p) := by
    intro p hp
    have hge := hnone p hp
    rw [← not_lt, iterations_lt_iff hhash hhash', not_lt, hashTryteVal_eq (by omega),
      hashTryteVal_eq (by omega)] at hge
    exact hge
  have hvalue : ∀ p < 27 * signedWindow hash,
      value (block 3 hash p) = value (leastTrits (tryteSum hash p)) := by
    intro p hp
    have hfacts := tryte_facts (length_block_three hlen (by omega)) (trits_block hhash p)
    have hmem := hleast p hp
    rw [hashTryteVal_eq (by omega)] at hmem
    exact hfacts.2.2.2.1 hmem
  -- a lower tryte has a lower sum
  have hsum : ∀ p ∈ range (27 * signedWindow hash), tryteSum hash' p ≤ tryteSum hash p := by
    intro p hp
    rw [mem_range] at hp
    obtain ⟨⟨hbound, -⟩, -⟩ := tryte_facts (length_block_three hlen (by omega)) (trits_block hhash p)
    obtain ⟨⟨-, hbound'⟩, hle', -⟩ :=
      tryte_facts (length_block_three hlen' (by omega)) (trits_block hhash' p)
    by_contra! hlt
    have hvals := value_leastTrits_lt hbound hlt hbound'
    have hle := hlow p hp
    rw [hvalue p hp] at hle
    exact absurd (hvals.trans_le hle') (not_lt.2 hle)
  have hzero := ((signedWindow_eq_iff hw).1 rfl).2.1
  have hzero' := ((signedWindow_eq_iff hw).1 hsame).2.1
  rw [sum_window] at hzero hzero'
  have hequal := (sum_eq_sum_iff_of_le hsum).1 (hzero'.trans hzero.symm)
  refine hdiff (eq_of_block_eq (w := 3) (m := 27 * signedWindow hash) ?_ ?_ fun p hp => ?_)
  · rw [List.length_take]
    omega
  · rw [List.length_take]
    omega
  · rw [block_take_window hp, block_take_window hp]
    have hlen3 := length_block_three hlen (show p < 81 by omega)
    have hlen3' := length_block_three hlen' (show p < 81 by omega)
    refine value_injective (trits_block hhash' p) (trits_block hhash p) (hlen3'.trans hlen3.symm)
      (le_antisymm (hlow p hp) ?_)
    obtain ⟨-, hle', -⟩ := tryte_facts hlen3' (trits_block hhash' p)
    rw [hvalue p hp, ← hequal p (mem_range.2 hp)]
    exact hle'

/-! ## Where a tryte is not -/

/-- The hash with a tryte lowered. -/
def lowered (hash : Hash) (p : ℕ) (hp : p < 81) : Hash :=
  ⟨blit hash.1 (3 * p) (leastTrits (tryteSum hash.1 p)), by
    have hlen := length_leastTrits (tryteSum hash.1 p)
    have hhash := hash.2.1
    refine ⟨by rw [length_blit (by omega), hhash], fun t ht => ?_⟩
    rw [blit, List.mem_append, List.mem_append] at ht
    rcases ht with (ht | ht) | ht
    · exact hash.2.2 t (List.mem_of_mem_take ht)
    · exact trits_leastTrits _ t ht
    · exact hash.2.2 t (List.mem_of_mem_drop ht)⟩

theorem block_lowered (hash : Hash) {p : ℕ} (hp : p < 81) (q : ℕ) :
    block 3 (lowered hash p hp).1 q =
      if q = p then leastTrits (tryteSum hash.1 p) else block 3 hash.1 q :=
  block_blit (length_leastTrits _) (by have hlen := hash.2.1; omega)

theorem tryteSum_lowered (hash : Hash) {p : ℕ} (hp : p < 81) (q : ℕ) :
    tryteSum (lowered hash p hp).1 q = tryteSum hash.1 q := by
  rw [tryteSum, block_lowered]
  split_ifs with hq
  · rw [hq]
    exact (tryte_facts (length_block_three hash.2.1 hp) (trits_block hash.2.2 p)).2.2.1
  · rfl

/-- **A tryte that is not the least** can be lowered: the signature of what comes out is made by
hashing on. -/
theorem lowered_spec {hash : Hash} {p : ℕ} (hp : p < 27 * signedWindow hash.1)
    (hnot : hashTryteVal hash.1 p ∉ leastTrytes) (hp81 : p < 81) :
    signedWindow (lowered hash p hp81).1 = signedWindow hash.1 ∧
      (lowered hash p hp81).1.take (81 * signedWindow hash.1) ≠
        hash.1.take (81 * signedWindow hash.1) ∧
      ∀ q, q < 81 → iterations hash.1 q ≤ iterations (lowered hash p hp81).1 q := by
  have hlen := hash.2.1
  have hlen' := (lowered hash p hp81).2.1
  have hw : signedWindow hash.1 ≠ 0 := fun h => by rw [h] at hp; omega
  obtain ⟨-, hle, -, hiff⟩ := tryte_facts (length_block_three hlen hp81) (trits_block hash.2.2 p)
  rw [hashTryteVal_eq (by omega), hiff] at hnot
  refine ⟨signedWindow_congr hw (tryteSum_lowered hash hp81), fun hsame => ?_, fun q hq => ?_⟩
  · have hblock := congrArg (fun l => block 3 l p) hsame
    rw [block_take_window hp, block_take_window hp, block_lowered, if_pos rfl] at hblock
    exact hnot (congrArg value hblock).symm
  · rw [← not_lt, iterations_lt_iff hash.2.2 (lowered hash p hp81).2.2, not_lt,
      hashTryteVal_eq (by omega), hashTryteVal_eq (by omega), block_lowered]
    split_ifs with hqp
    · rw [hqp]
      exact hle
    · exact le_rfl

/-- **A hash keeps its signature exactly when** every tryte of its window is the least of those with
the sum of its trits. -/
theorem unshiftable_iff (hash : Hash) :
    Unshiftable hash ↔ ∀ p < 27 * signedWindow hash.1, hashTryteVal hash.1 p ∈ leastTrytes := by
  refine ⟨fun hkeeps p hp => ?_, unshiftable_of_least⟩
  by_contra hnot
  have hw3 := signedWindow_le hash.1
  have hw : signedWindow hash.1 ≠ 0 := fun h => by rw [h] at hp; omega
  obtain ⟨hsame, hdiff, hmore⟩ := lowered_spec hp hnot (by omega)
  obtain ⟨q, hq, hless⟩ := hkeeps _ hw hsame hdiff
  exact absurd hless (not_lt.2 (hmore q (by omega)))

set_option maxRecDepth 4000 in
/-- The trytes `3` and `-1`, and zeros. -/
def highTryte : Hash := ⟨[0, 1, 0, -1, 0, 0] ++ List.replicate 237 0, by decide⟩

set_option maxRecDepth 4000 in
/-- The trytes `1` and `-1`, and zeros. -/
def lowTryte : Hash := ⟨[1, 0, 0, -1, 0, 0] ++ List.replicate 237 0, by decide⟩

set_option maxRecDepth 4000 in
/-- **A signature that is shifted**: two more rounds for the first chunk, and no more for the others. -/
theorem not_unshiftable_highTryte :
    ¬ ∀ hash hash' : Hash, signedWindow hash.1 ≠ 0 → signedWindow hash'.1 = signedWindow hash.1 →
      hash'.1.take (81 * signedWindow hash.1) ≠ hash.1.take (81 * signedWindow hash.1) →
        ∃ p < 27 * signedWindow hash.1, iterations hash'.1 p < iterations hash.1 p := by
  intro hall
  have hw : signedWindow highTryte.1 = 1 := by decide
  obtain ⟨p, hp, hless⟩ := hall highTryte lowTryte (by rw [hw]; decide) (by rw [hw]; decide)
    (by rw [hw]; decide)
  have hmore : ∀ p < 27, iterations highTryte.1 p ≤ iterations lowTryte.1 p := by decide
  rw [hw] at hp
  exact absurd hless (not_lt.2 (hmore p hp))

end Prototype

end Entangled
