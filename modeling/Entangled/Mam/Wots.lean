import Entangled.Common.Blocks
import Entangled.Mam.Spongos
import Entangled.Mam.Trits
/-!
# Keys and one-time signatures

The pseudorandom generator, which makes every secret key from one and some nonces, and the
one-time signatures. A part of a private key is hashed 26 times for the public key; a signature
stops on the way, how far is told by the hash that is signed, and who checks it goes the rest.
-/

namespace Entangled

namespace Mam

open Spongos

/-! ## The generator -/

section Prng

variable (T : Troika)

/-- `sponge_set_control012`: `trits_drop` returns what the source throws away, so the three trits
go to one place. -/
def spongeSetControl012 (state : List Trit) (c0 c1 c2 : Trit) : List Trit :=
  ((state.set spongeRate c0).set spongeRate c1).set spongeRate c2

/-- `sponge_set_control345`, likewise. -/
def spongeSetControl345 (state : List Trit) (c3 c4 c5 : Trit) : List Trit :=
  ((state.set (spongeRate + 3) c3).set (spongeRate + 3) c4).set (spongeRate + 3) c5

/-- `trits_padc` with a one. -/
def padc (n : ℕ) : List Trit := (Trit.pos :: List.replicate n .zero).take n

/-- `mam_sponge_absorbn`, of what the buffers hold one after the other. -/
def spongeAbsorbn (c2 : Trit) (state data : List Trit) : List Trit :=
  let chunk := data.take spongeRate
  let data' := data.drop spongeRate
  let c0 := if chunk.length < spongeRate then Trit.zero else .pos
  let c1 := if data' = [] then Trit.neg else .pos
  let state :=
    if state.getD (spongeRate + 1) .zero ≠ .zero then
      T.transform (spongeSetControl345 state c0 c1 c2)
    else state
  let state := blit state 0 (chunk ++ padc (spongeRate - chunk.length))
  let state := spongeSetControl012 state c0 c1 c2
  if data' = [] then state else spongeAbsorbn c2 state data'
termination_by data.length
decreasing_by
  rename_i hne
  have hlt : spongeRate < data.length := by
    by_contra hle
    exact hne (List.drop_of_length_le (not_lt.mp hle))
  have hpos : 0 < spongeRate := by decide
  rw [List.length_drop]
  omega

/-- `mam_sponge_squeeze`, of `n` trits. -/
def spongeSqueeze (c2 : Trit) (state : List Trit) (n : ℕ) : List Trit :=
  let ni := min n spongeRate
  let c1 := if n - ni = 0 then Trit.neg else .pos
  let state := T.transform (spongeSetControl345 state .neg c1 c2)
  let squeezed := state.take ni
  let state := blit state 0 (List.replicate ni .zero ++ padc (spongeRate - ni))
  let state := spongeSetControl012 state .neg c1 c2
  if n - ni = 0 then squeezed else squeezed ++ spongeSqueeze c2 state (n - ni)
termination_by n
decreasing_by
  rename_i hne
  have hpos : 0 < spongeRate := by decide
  omega

/-- `mam_prng_gen5`, of `n` trits. -/
def prngGen5 (secretKey : List Trit) (destination : ℤ) (nonces : List (List Trit)) (n : ℕ) :
    List Trit :=
  let inputs := secretKey :: put3 destination :: nonces
  spongeSqueeze T .pos
    (spongeAbsorbn T .pos (List.replicate spongeWidth .zero) inputs.flatten) n

variable {T}

@[simp] theorem length_spongeSetControl012 (state : List Trit) (c0 c1 c2 : Trit) :
    (spongeSetControl012 state c0 c1 c2).length = state.length := by
  simp only [spongeSetControl012, List.length_set]

@[simp] theorem length_spongeSetControl345 (state : List Trit) (c3 c4 c5 : Trit) :
    (spongeSetControl345 state c3 c4 c5).length = state.length := by
  simp only [spongeSetControl345, List.length_set]

@[simp] theorem length_padc (n : ℕ) : (padc n).length = n := by
  rw [padc, List.length_take, List.length_cons, List.length_replicate]
  omega

/-- The rate overwritten by something and its padding. -/
theorem length_blit_padc {state chunk : List Trit} (hstate : state.length = spongeWidth)
    (hchunk : chunk.length ≤ spongeRate) :
    (blit state 0 (chunk ++ padc (spongeRate - chunk.length))).length = spongeWidth := by
  rw [length_blit, hstate]
  rw [List.length_append, length_padc, hstate]
  unfold spongeRate spongeWidth at *
  omega

theorem length_spongeAbsorbn {c2 : Trit} (data : List Trit) {state : List Trit}
    (hstate : state.length = spongeWidth) :
    (spongeAbsorbn T c2 state data).length = spongeWidth := by
  induction hn : data.length using Nat.strong_induction_on generalizing data state with
  | _ n ih =>
    have htransformed : ∀ c0 c1 : Trit, (if state.getD (spongeRate + 1) .zero ≠ .zero then
        T.transform (spongeSetControl345 state c0 c1 c2) else state).length = spongeWidth := by
      intro c0 c1
      split_ifs
      · exact T.length_transform _ (by rw [length_spongeSetControl345, hstate])
      · exact hstate
    have hchunk : (data.take spongeRate).length ≤ spongeRate := List.length_take_le _ _
    rw [spongeAbsorbn]
    by_cases hlast : data.drop spongeRate = []
    · rw [if_pos hlast, length_spongeSetControl012, length_blit_padc (htransformed _ _) hchunk]
    · have hlt : (data.drop spongeRate).length < n := by
        have hne := List.length_pos_iff.mpr hlast
        have hpos : 0 < spongeRate := by decide
        rw [List.length_drop] at hne ⊢
        omega
      rw [if_neg hlast]
      refine ih _ hlt _ ?_ rfl
      rw [length_spongeSetControl012, length_blit_padc (htransformed _ _) hchunk]

theorem length_spongeSqueeze {c2 : Trit} (n : ℕ) {state : List Trit}
    (hstate : state.length = spongeWidth) : (spongeSqueeze T c2 state n).length = n := by
  induction n using Nat.strong_induction_on generalizing state with
  | _ n ih =>
    have hwidth : spongeRate ≤ spongeWidth := by decide
    have htransformed : ∀ c1 : Trit,
        (T.transform (spongeSetControl345 state .neg c1 c2)).length = spongeWidth := fun c1 =>
      T.length_transform _ (by rw [length_spongeSetControl345, hstate])
    have htake : ∀ c1 : Trit,
        ((T.transform (spongeSetControl345 state .neg c1 c2)).take (min n spongeRate)).length =
          min n spongeRate := by
      intro c1
      rw [List.length_take, htransformed]
      omega
    rw [spongeSqueeze]
    by_cases hlast : n - min n spongeRate = 0
    · rw [if_pos hlast, htake]
      omega
    · have hzeros : (List.replicate (min n spongeRate) Trit.zero).length = min n spongeRate :=
        List.length_replicate
      have hfits : (List.replicate (min n spongeRate) Trit.zero).length ≤ spongeRate := by
        rw [hzeros]
        omega
      have hpad :=
        length_blit_padc (htransformed (if n - min n spongeRate = 0 then .neg else .pos)) hfits
      rw [hzeros] at hpad
      rw [if_neg hlast, List.length_append, htake, ih (n - min n spongeRate) (by
        have hpos : 0 < spongeRate := by decide
        omega)]
      · omega
      · rw [length_spongeSetControl012, hpad]

@[simp] theorem length_prngGen5 (secretKey : List Trit) (destination : ℤ)
    (nonces : List (List Trit)) (n : ℕ) :
    (prngGen5 T secretKey destination nonces n).length = n :=
  length_spongeSqueeze n (length_spongeAbsorbn _ List.length_replicate)

end Prng

/-! ## One-time signatures -/

/-- `MAM_WOTS_PRIVATE_KEY_PART_SIZE`. -/
def wotsPrivateKeyPartSize : ℕ := 162

/-- `MAM_WOTS_PRIVATE_KEY_PART_COUNT`. -/
def wotsPrivateKeyPartCount : ℕ := 81

/-- `MAM_WOTS_PRIVATE_KEY_SIZE`, which is the size of a signature. -/
def wotsPrivateKeySize : ℕ := wotsPrivateKeyPartSize * wotsPrivateKeyPartCount

/-- `MAM_WOTS_PUBLIC_KEY_SIZE`. -/
def wotsPublicKeySize : ℕ := 243

/-- `MAM_WOTS_HASH_SIZE`. -/
def wotsHashSize : ℕ := 234

/-- `wots_hash_operation_t`. -/
inductive WotsHashOperation
  | sign
  | recover

/-- What part `i` takes its number of rounds from: a tryte of the hash, or a digit of what the
trytes lack to zero. -/
def wotsDigit (hash : List Trit) (i : ℕ) : ℤ :=
  let t := -((List.range (wotsPrivateKeyPartCount - 3)).map fun i => get3 (hash.drop (i * 3))).sum
  if i < wotsPrivateKeyPartCount - 3 then get3 (hash.drop (i * 3))
  else if i = wotsPrivateKeyPartCount - 3 then mods t 19683 27
  else if i = wotsPrivateKeyPartCount - 2 then mods (divs t 19683 27) 19683 27
  else mods (divs (divs t 19683 27) 19683 27) 19683 27

/-- The rounds of the inner loops, `for (j = -13; j < h; ++j)`. -/
def wotsRounds (operation : WotsHashOperation) (hash : List Trit) (i : ℕ) : ℕ :=
  match operation with
  | .sign => (wotsDigit hash i + 13).toNat
  | .recover => (-wotsDigit hash i + 13).toNat

section Wots

variable (T : Troika)

/-- A part hashed over itself. -/
def wotsHash (part : List Trit) : List Trit := hash T part wotsPrivateKeyPartSize

/-- `wots_hash_sign_or_recover`. -/
def wotsHashSignOrRecover (hash signature : List Trit) (operation : WotsHashOperation) :
    List Trit :=
  mapBlocks wotsPrivateKeyPartSize (fun i part => (wotsHash T)^[wotsRounds operation hash i] part)
    wotsPrivateKeyPartCount signature

/-- `mam_wots_gen_pk`. -/
def wotsGenPk (privateKey : List Trit) : List Trit :=
  let parts := (List.range wotsPrivateKeyPartCount).map fun i =>
    (wotsHash T)^[26] (block wotsPrivateKeyPartSize privateKey i)
  hashn T parts wotsPublicKeySize

/-- `mam_wots_sign`. -/
def wotsSign (privateKey hash : List Trit) : List Trit :=
  wotsHashSignOrRecover T hash privateKey .sign

/-- `mam_wots_recover`. -/
def wotsRecover (hash signature : List Trit) : List Trit :=
  Spongos.hash T (wotsHashSignOrRecover T hash signature .recover) wotsPublicKeySize

end Wots

/-! ## Sign and recover -/

section

variable {T : Troika} {privateKey h : List Trit}

/-- What is cut off by `mods` is a tryte. -/
theorem mods_bound {t M : ℤ} (ht : 0 ≤ t + (M - 1) / 2) : -13 ≤ mods t M 27 ∧ mods t M 27 ≤ 13 := by
  rw [mods_eq ht]
  omega

theorem sum_get3_bound (hs : List (List Trit)) :
    -(13 * hs.length : ℤ) ≤ (hs.map get3).sum ∧ (hs.map get3).sum ≤ 13 * hs.length := by
  induction hs with
  | nil => simp
  | cons h hs ih =>
    have hh := get3_bound h
    rw [List.map_cons, List.sum_cons, List.length_cons]
    push_cast
    omega

/-- A digit is a tryte. -/
theorem wotsDigit_bound (h : List Trit) (i : ℕ) : -13 ≤ wotsDigit h i ∧ wotsDigit h i ≤ 13 := by
  unfold wotsDigit
  generalize ht :
    -((List.range (wotsPrivateKeyPartCount - 3)).map fun i => get3 (h.drop (i * 3))).sum = t
  have hrange : -1014 ≤ t ∧ t ≤ 1014 := by
    have hsum := sum_get3_bound
      ((List.range (wotsPrivateKeyPartCount - 3)).map fun i => h.drop (i * 3))
    rw [List.map_map, List.length_map, List.length_range] at hsum
    rw [← ht, neg_le_neg_iff, neg_le]
    exact ⟨hsum.2, hsum.1⟩
  have h1 : divs t 19683 27 = (t + 9841) / 27 - 364 := by
    rw [divs_eq (by omega)]
    rfl
  have h2 : divs (divs t 19683 27) 19683 27 = ((t + 9841) / 27 - 364 + 9841) / 27 - 364 := by
    rw [divs_eq (by omega), h1]
    rfl
  dsimp only
  split_ifs
  · exact get3_bound _
  · exact mods_bound (by omega)
  · exact mods_bound (by omega)
  · exact mods_bound (by omega)

/-- The rounds of the two sum up to those of the public key. -/
theorem wotsRounds_add (h : List Trit) (i : ℕ) :
    wotsRounds .recover h i + wotsRounds .sign h i = 26 := by
  obtain ⟨hlo, hhi⟩ := wotsDigit_bound h i
  show (-wotsDigit h i + 13).toNat + (wotsDigit h i + 13).toNat = 26
  omega

theorem length_iterate_wotsHash (n : ℕ) {part : List Trit}
    (hpart : part.length = wotsPrivateKeyPartSize) :
    ((wotsHash T)^[n] part).length = wotsPrivateKeyPartSize := by
  cases n with
  | zero => exact hpart
  | succ n =>
    rw [Function.iterate_succ_apply']
    exact length_hash _ _

theorem length_wotsHashSignOrRecover {signature : List Trit} (operation : WotsHashOperation)
    (hsize : signature.length = wotsPrivateKeySize) :
    (wotsHashSignOrRecover T h signature operation).length = wotsPrivateKeySize := by
  rw [wotsHashSignOrRecover, length_mapBlocks (fun i b hb => length_iterate_wotsHash _ hb) hsize.ge,
    hsize]

/-- **A signature leads to the public key** of the key it was made with. -/
theorem wotsRecover_wotsSign (hsize : privateKey.length = wotsPrivateKeySize) :
    wotsRecover T h (wotsSign T privateKey h) = wotsGenPk T privateKey := by
  have hkeep : ∀ n i b, b.length = wotsPrivateKeyPartSize →
      ((wotsHash T)^[wotsRounds n h i] b).length = wotsPrivateKeyPartSize :=
    fun n i b hb => length_iterate_wotsHash _ hb
  have hsigned : (wotsSign T privateKey h).length = wotsPrivateKeySize :=
    length_wotsHashSignOrRecover .sign hsize
  have hpart : ∀ i < wotsPrivateKeyPartCount,
      ((wotsHash T)^[26] (block wotsPrivateKeyPartSize privateKey i)).length =
        wotsPrivateKeyPartSize := by
    intro i hi
    refine length_iterate_wotsHash _ (length_block ?_)
    rw [hsize]
    exact Nat.mul_le_mul_left _ hi
  have hparts : wotsHashSignOrRecover T h (wotsSign T privateKey h) .recover =
      ((List.range wotsPrivateKeyPartCount).map fun i =>
        (wotsHash T)^[26] (block wotsPrivateKeyPartSize privateKey i)).flatten := by
    refine eq_of_block_eq (length_wotsHashSignOrRecover .recover hsigned)
      (length_flatten_range hpart) fun i hi => ?_
    rw [block_flatten_range hpart hi, wotsHashSignOrRecover,
      block_mapBlocks (hkeep .recover) hsigned.ge, if_pos hi, wotsSign, wotsHashSignOrRecover,
      block_mapBlocks (hkeep .sign) hsize.ge, if_pos hi, ← Function.iterate_add_apply,
      wotsRounds_add]
  rw [wotsRecover, hparts, wotsGenPk, hashn_eq]

end

end Mam

end Entangled
