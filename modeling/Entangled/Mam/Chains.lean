import Entangled.Mam.Wots
import Mathlib.Algebra.Order.BigOperators.Group.Finset
/-!
# The chains of a one-time signature

`wots.c` as it is written: one loop over the trytes of the hash and one over the digits of the
checksum, with the running sum in 16 bits and what is read in 8, and the functions of the library
around it with what they refuse.

The loops hash part `i` of the signature `wotsRounds` times. For two hashes the numbers of rounds
cannot all go up: where the trytes do, the checksum goes down.
-/

namespace Entangled

namespace Mam

open Spongos

/-- What `wots.c` returns other than `RC_OK`. -/
inductive WotsRefusal
  | nullParam
  | invalidParam
  deriving DecidableEq, Repr

section Code

variable (T : Troika)

/-- How far the inner loops go for a tryte. -/
def wotsBound (operation : WotsHashOperation) (h : Int8) : Int8 :=
  match operation with
  | .sign => h
  | .recover => -h

/-- The inner loop, `for (j = -13; j < h; ++j)`: the number of its rounds and what it leaves. -/
def wotsChain (h : Int8) (part : List Trit) : ℕ × List Trit :=
  let rounds := (h.toInt - -13).toNat
  (rounds, (wotsHash T)^[rounds] part)

/-- The loop of `wots_hash_sign_or_recover` over the trytes of the hash, from `i` on and with the
rounds that are left: the sum, the parts, and what is left of the signature. -/
def messageLoop (operation : WotsHashOperation) (hash : List Trit) :
    ℕ → ℕ → Int16 → List Trit → Int16 × List (ℕ × List Trit) × List Trit
  | 0, _, t, signature => (t, [], signature)
  | left + 1, i, t, signature =>
    let signaturePart := signature.take wotsPrivateKeyPartSize
    let signature := signature.drop wotsPrivateKeyPartSize
    let h := Int8.ofInt (get3 (hash.drop (i * 3)))
    let r := messageLoop operation hash left (i + 1) (t + h.toInt16) signature
    (r.1, wotsChain T (wotsBound operation h) signaturePart :: r.2.1, r.2.2)

/-- The loop over the digits of the checksum. -/
def checksumLoop (operation : WotsHashOperation) :
    ℕ → Int16 → List Trit → List (ℕ × List Trit)
  | 0, _, _ => []
  | left + 1, t, signature =>
    let signaturePart := signature.take wotsPrivateKeyPartSize
    let signature := signature.drop wotsPrivateKeyPartSize
    let h := Int8.ofInt (mods t.toInt 19683 27)
    let t := Int16.ofInt (divs t.toInt 19683 27)
    wotsChain T (wotsBound operation h) signaturePart :: checksumLoop operation left t signature

/-- `wots_hash_sign_or_recover`: of each part the rounds and what it becomes. -/
def wotsChains (hash signature : List Trit) (operation : WotsHashOperation) :
    List (ℕ × List Trit) :=
  let r := messageLoop T operation hash (wotsPrivateKeyPartCount - 3) 0 0 signature
  r.2.1 ++ checksumLoop T operation 3 (-r.1) r.2.2

/-- `mam_wots_gen_pk`, into a buffer of so many trits; the pointer may be null. -/
def mamWotsGenPk (wots : Option (List Trit)) (publicKeySize : ℕ) : Except WotsRefusal (List Trit) :=
  match wots with
  | none => .error .nullParam
  | some privateKey =>
    if publicKeySize ≠ wotsPublicKeySize then .error .invalidParam
    else .ok (wotsGenPk T privateKey)

/-- `mam_wots_sign`. -/
def mamWotsSign (wots : Option (List Trit)) (hash : List Trit) (signatureSize : ℕ) :
    Except WotsRefusal (List Trit) :=
  match wots with
  | none => .error .nullParam
  | some privateKey =>
    if hash.length ≠ wotsHashSize ∨ signatureSize ≠ wotsPrivateKeySize then .error .invalidParam
    else .ok ((wotsChains T hash privateKey .sign).map Prod.snd).flatten

/-- `mam_wots_recover`. -/
def mamWotsRecover (hash signature : List Trit) (publicKeySize : ℕ) :
    Except WotsRefusal (List Trit) :=
  if hash.length ≠ wotsHashSize ∨ signature.length ≠ wotsPrivateKeySize ∨
      publicKeySize ≠ wotsPublicKeySize then .error .invalidParam
  else
    .ok (Spongos.hash T ((wotsChains T hash signature .recover).map Prod.snd).flatten
      wotsPublicKeySize)

end Code

/-! ## The loops -/

section Loops

variable {T : Troika} {operation : WotsHashOperation} {hash signature : List Trit}

/-- The sum of some trytes of the hash. -/
def tryteSumFrom (hash : List Trit) (i n : ℕ) : ℤ :=
  ((List.range n).map fun k => get3 (hash.drop ((i + k) * 3))).sum

theorem tryteSumFrom_succ (hash : List Trit) (i n : ℕ) :
    tryteSumFrom hash i (n + 1) = get3 (hash.drop (i * 3)) + tryteSumFrom hash (i + 1) n := by
  rw [tryteSumFrom, List.range_succ_eq_map, List.map_cons, List.sum_cons, List.map_map]
  simp only [tryteSumFrom, Nat.add_zero, Function.comp_def, Nat.succ_eq_add_one, Nat.add_assoc,
    Nat.add_comm 1]

theorem tryteSumFrom_bound (hash : List Trit) (i n : ℕ) :
    -(13 * n : ℤ) ≤ tryteSumFrom hash i n ∧ tryteSumFrom hash i n ≤ 13 * n := by
  have hsum := sum_get3_bound ((List.range n).map fun k => hash.drop ((i + k) * 3))
  rwa [List.map_map, List.length_map, List.length_range] at hsum

/-- A tryte fits 8 bits, and the inner loop runs as often as it is above -13. -/
theorem toInt_wotsBound {i : ℕ} {v : ℤ} (hv : wotsDigit hash i = v) (hlo : -13 ≤ v) (hhi : v ≤ 13) :
    ((wotsBound operation (Int8.ofInt v)).toInt - -13).toNat = wotsRounds operation hash i := by
  cases operation with
  | sign =>
    show ((Int8.ofInt v).toInt - -13).toNat = (wotsDigit hash i + 13).toNat
    rw [hv, Int8.toInt_ofInt_of_le (by omega) (by omega), sub_neg_eq_add]
  | recover =>
    show ((-Int8.ofInt v).toInt - -13).toNat = (-wotsDigit hash i + 13).toNat
    rw [hv, ← Int8.ofInt_neg, Int8.toInt_ofInt_of_le (by omega) (by omega), sub_neg_eq_add]

/-- What a chain is to give. -/
def chainOf (T : Troika) (operation : WotsHashOperation) (hash signature : List Trit) (i k : ℕ) :
    ℕ × List Trit :=
  (wotsRounds operation hash i,
    (wotsHash T)^[wotsRounds operation hash i] (block wotsPrivateKeyPartSize signature k))

theorem block_zero (signature : List Trit) :
    block wotsPrivateKeyPartSize signature 0 = signature.take wotsPrivateKeyPartSize := by
  rw [block, Nat.mul_zero, List.drop_zero]

theorem block_succ (signature : List Trit) (k : ℕ) :
    block wotsPrivateKeyPartSize (signature.drop wotsPrivateKeyPartSize) k =
      block wotsPrivateKeyPartSize signature (k + 1) := by
  have hdrop := block_drop (w := wotsPrivateKeyPartSize) (l := signature) (k := 1) (i := k)
  rwa [Nat.mul_one, Nat.add_comm 1 k] at hdrop

theorem chainOf_zero {i : ℕ} (signature : List Trit) {v : ℤ} (hv : wotsDigit hash i = v)
    (hlo : -13 ≤ v) (hhi : v ≤ 13) :
    wotsChain T (wotsBound operation (Int8.ofInt v)) (signature.take wotsPrivateKeyPartSize) =
      chainOf T operation hash signature i 0 := by
  rw [wotsChain, toInt_wotsBound hv hlo hhi, chainOf, block_zero]

/-- The digits of the message are the trytes of the hash. -/
theorem wotsDigit_message {i : ℕ} (hi : i < wotsPrivateKeyPartCount - 3) :
    wotsDigit hash i = get3 (hash.drop (i * 3)) := by
  unfold wotsDigit
  exact if_pos hi

/-- **The first loop**: the sum does not leave 16 bits, and each part is hashed by its tryte. -/
theorem messageLoop_eq {left i : ℕ} {t : Int16} (hcount : i + left = wotsPrivateKeyPartCount - 3)
    (ht : |t.toInt| ≤ 13 * i) (signature : List Trit) :
    messageLoop T operation hash left i t signature =
      (Int16.ofInt (t.toInt + tryteSumFrom hash i left),
        (List.range left).map fun k => chainOf T operation hash signature (i + k) k,
        signature.drop (left * wotsPrivateKeyPartSize)) := by
  induction left generalizing i t signature with
  | zero =>
    rw [messageLoop, Nat.zero_mul, List.drop_zero, show tryteSumFrom hash i 0 = 0 from rfl, add_zero,
      Int16.ofInt_toInt]
    rfl
  | succ left ih =>
    unfold wotsPrivateKeyPartCount at hcount
    obtain ⟨hlo, hhi⟩ := get3_bound (hash.drop (i * 3))
    obtain ⟨hneg, hpos⟩ := abs_le.mp ht
    -- the sum after this tryte
    have hwide : (Int8.ofInt (get3 (hash.drop (i * 3)))).toInt16.toInt =
        get3 (hash.drop (i * 3)) := by
      rw [Int8.toInt_toInt16]
      exact Int8.toInt_ofInt_of_le (by omega) (by omega)
    have hsum : (t + (Int8.ofInt (get3 (hash.drop (i * 3)))).toInt16).toInt =
        t.toInt + get3 (hash.drop (i * 3)) := by
      rw [Int16.toInt_add, hwide]
      exact Int.bmod_eq_of_le (by omega) (by omega)
    have hdigit : wotsDigit hash i = get3 (hash.drop (i * 3)) :=
      wotsDigit_message (by unfold wotsPrivateKeyPartCount; omega)
    rw [messageLoop, ih (by unfold wotsPrivateKeyPartCount; omega)
        (by rw [hsum, abs_le]; push_cast; omega), hsum,
      chainOf_zero signature hdigit hlo hhi, tryteSumFrom_succ, List.drop_drop,
      List.range_succ_eq_map, List.map_cons, List.map_map, add_assoc]
    refine Prod.ext rfl (Prod.ext ?_ ?_)
    · refine congrArg (List.cons _) (List.map_congr_left fun k hk => ?_)
      show chainOf T operation hash _ (i + 1 + k) k =
        chainOf T operation hash signature (i + (k + 1)) (k + 1)
      rw [chainOf, chainOf, block_succ, Nat.add_assoc, Nat.add_comm 1 k]
    · show (signature.drop (wotsPrivateKeyPartSize + left * wotsPrivateKeyPartSize)) = _
      rw [Nat.succ_mul, Nat.add_comm]

/-- What is cut off stays in 16 bits, with room. -/
theorem toInt_divs {t : ℤ} (ht : |t| ≤ 1014) :
    (Int16.ofInt (divs t 19683 27)).toInt = divs t 19683 27 ∧ |divs t 19683 27| ≤ 1014 := by
  obtain ⟨hneg, hpos⟩ := abs_le.mp ht
  have heq : divs t 19683 27 = (t + 9841) / 27 - 364 := by
    rw [divs_eq (by omega)]
    rfl
  rw [heq]
  exact ⟨Int16.toInt_ofInt_of_le (by omega) (by omega), abs_le.mpr ⟨by omega, by omega⟩⟩

/-- The number that is spelled in the digits of the checksum. -/
theorem wotsDigit_checksum (hash : List Trit) (k : ℕ) (hk : k < 3) :
    wotsDigit hash (wotsPrivateKeyPartCount - 3 + k) =
      mods ((fun t => divs t 19683 27)^[k]
        (-tryteSumFrom hash 0 (wotsPrivateKeyPartCount - 3))) 19683 27 := by
  unfold wotsDigit tryteSumFrom
  simp only [Nat.zero_add]
  unfold wotsPrivateKeyPartCount
  rcases k with _ | _ | _ | k
  · rfl
  · rfl
  · rfl
  · omega

/-- **The second loop.** -/
theorem checksumLoop_eq {left k : ℕ} {t : Int16} (hk : k + left = 3)
    (ht : t.toInt = (fun t => divs t 19683 27)^[k]
      (-tryteSumFrom hash 0 (wotsPrivateKeyPartCount - 3))) (hbound : |t.toInt| ≤ 1014)
    (signature : List Trit) :
    checksumLoop T operation left t signature = (List.range left).map fun j =>
      chainOf T operation hash signature (wotsPrivateKeyPartCount - 3 + k + j) j := by
  induction left generalizing k t signature with
  | zero => rfl
  | succ left ih =>
    obtain ⟨hneg, hpos⟩ := abs_le.mp hbound
    obtain ⟨hdiv, hdivBound⟩ := toInt_divs hbound
    obtain ⟨hlo, hhi⟩ := mods_bound (t := t.toInt) (M := 19683) (by omega)
    have hdigit : wotsDigit hash (wotsPrivateKeyPartCount - 3 + k) = mods t.toInt 19683 27 := by
      rw [wotsDigit_checksum hash k (by omega), ht]
    rw [checksumLoop, chainOf_zero signature hdigit hlo hhi, ih (k := k + 1) (by omega)
      (by rw [hdiv, ht, Function.iterate_succ_apply']) (by rwa [hdiv]),
      List.range_succ_eq_map, List.map_cons, List.map_map]
    refine congrArg (List.cons _) (List.map_congr_left fun j hj => ?_)
    show chainOf T operation hash _ (wotsPrivateKeyPartCount - 3 + (k + 1) + j) j =
      chainOf T operation hash signature (wotsPrivateKeyPartCount - 3 + k + (j + 1)) (j + 1)
    rw [chainOf, chainOf, block_succ]
    simp only [Nat.add_assoc, Nat.add_comm 1]

/-- **Each part is hashed as often as its digit tells.** -/
theorem wotsChains_eq (hash signature : List Trit) (operation : WotsHashOperation) :
    wotsChains T hash signature operation =
      (List.range wotsPrivateKeyPartCount).map fun i => chainOf T operation hash signature i i := by
  obtain ⟨hlo, hhi⟩ := tryteSumFrom_bound hash 0 (wotsPrivateKeyPartCount - 3)
  have hsize : ((wotsPrivateKeyPartCount - 3 : ℕ) : ℤ) = 78 := rfl
  rw [hsize] at hlo hhi
  rw [wotsChains, messageLoop_eq (by rw [Nat.zero_add]) (by decide)]
  dsimp only
  rw [Int16.toInt_zero, zero_add]
  have hneg : (-Int16.ofInt (tryteSumFrom hash 0 (wotsPrivateKeyPartCount - 3))).toInt =
      -tryteSumFrom hash 0 (wotsPrivateKeyPartCount - 3) := by
    rw [← Int16.ofInt_neg]
    exact Int16.toInt_ofInt_of_le (by omega) (by omega)
  rw [checksumLoop_eq (k := 0) rfl hneg (by rw [hneg, abs_le]; omega)]
  have hcount : wotsPrivateKeyPartCount = wotsPrivateKeyPartCount - 3 + 3 := rfl
  conv_rhs => rw [hcount, List.range_add, List.map_append, List.map_map]
  refine congrArg₂ (· ++ ·) (List.map_congr_left fun k _ => by rw [Nat.zero_add])
    (List.map_congr_left fun j _ => ?_)
  show chainOf T operation hash _ (wotsPrivateKeyPartCount - 3 + 0 + j) j =
    chainOf T operation hash signature (wotsPrivateKeyPartCount - 3 + j)
      (wotsPrivateKeyPartCount - 3 + j)
  rw [chainOf, chainOf, Nat.add_zero, Nat.mul_comm (wotsPrivateKeyPartCount - 3), block_drop]

/-- The parts one after the other are the signature. -/
theorem flatten_wotsChains (hsize : signature.length = wotsPrivateKeySize) :
    ((wotsChains T hash signature operation).map Prod.snd).flatten =
      wotsHashSignOrRecover T hash signature operation := by
  have hkeep : ∀ i b, b.length = wotsPrivateKeyPartSize →
      ((wotsHash T)^[wotsRounds operation hash i] b).length = wotsPrivateKeyPartSize :=
    fun i b hb => length_iterate_wotsHash _ hb
  have hpart : ∀ i < wotsPrivateKeyPartCount, ((wotsHash T)^[wotsRounds operation hash i]
      (block wotsPrivateKeyPartSize signature i)).length = wotsPrivateKeyPartSize := by
    intro i hi
    refine hkeep i _ (length_block ?_)
    rw [hsize]
    exact Nat.mul_le_mul_left _ hi
  rw [wotsChains_eq, List.map_map]
  refine eq_of_block_eq (length_flatten_range hpart)
    (length_wotsHashSignOrRecover operation hsize) fun i hi => ?_
  rw [wotsHashSignOrRecover, block_mapBlocks hkeep hsize.ge, if_pos hi]
  exact block_flatten_range hpart hi

end Loops

/-! ## No hash is above another -/

section Dominance

variable {h h' : List Trit}

/-- Three trits are told by their number. -/
theorem get3_inj {h h' : List Trit} (heq : get3 h = get3 h') {j : ℕ} (hj : j < 3) :
    h.getD j .zero = h'.getD j .zero := by
  have hvalue : ∀ a b c a' b' c' : Trit,
      a.toInt + 3 * b.toInt + 9 * c.toInt = a'.toInt + 3 * b'.toInt + 9 * c'.toInt →
      a = a' ∧ b = b' ∧ c = c' := by
    intro a b c a' b' c'
    cases a <;> cases b <;> cases c <;> cases a' <;> cases b' <;> cases c' <;> decide
  obtain ⟨h0, h1, h2⟩ := hvalue _ _ _ _ _ _ heq
  rcases j with _ | _ | _ | j
  · exact h0
  · exact h1
  · exact h2
  · omega

/-- A hash is told by its trytes. -/
theorem eq_of_get3_eq (hh : h.length = wotsHashSize) (hh' : h'.length = wotsHashSize)
    (heq : ∀ i < wotsPrivateKeyPartCount - 3, get3 (h.drop (i * 3)) = get3 (h'.drop (i * 3))) :
    h = h' := by
  refine List.ext_getElem (hh.trans hh'.symm) fun n hn hn' => ?_
  rw [hh] at hn
  unfold wotsHashSize at hn
  have htryte := get3_inj (heq (n / 3) (by unfold wotsPrivateKeyPartCount; omega))
    (Nat.mod_lt n (by decide))
  have hplace : n / 3 * 3 + n % 3 = n := by omega
  rw [List.getD_eq_getElem?_getD, List.getD_eq_getElem?_getD, List.getElem?_drop,
    List.getElem?_drop, hplace, List.getElem?_eq_getElem, List.getElem?_eq_getElem] at htryte
  exact htryte

/-- The digits of the checksum spell what the trytes lack to zero. -/
theorem checksum_eq (h : List Trit) :
    -tryteSumFrom h 0 (wotsPrivateKeyPartCount - 3) =
      wotsDigit h (wotsPrivateKeyPartCount - 3) +
        27 * (wotsDigit h (wotsPrivateKeyPartCount - 3 + 1) +
          27 * wotsDigit h (wotsPrivateKeyPartCount - 3 + 2)) := by
  obtain ⟨hlo, hhi⟩ := tryteSumFrom_bound h 0 (wotsPrivateKeyPartCount - 3)
  have hsize : ((wotsPrivateKeyPartCount - 3 : ℕ) : ℤ) = 78 := rfl
  rw [hsize] at hlo hhi
  have h0 := wotsDigit_checksum h 0 (by decide)
  rw [wotsDigit_checksum h 1 (by decide), wotsDigit_checksum h 2 (by decide)]
  rw [Nat.add_zero] at h0
  rw [h0]
  obtain ⟨t, ht⟩ : ∃ t, t = -tryteSumFrom h 0 (wotsPrivateKeyPartCount - 3) := ⟨_, rfl⟩
  rw [← ht]
  show t = mods t 19683 27 + 27 * (mods (divs t 19683 27) 19683 27 +
    27 * mods (divs (divs t 19683 27) 19683 27) 19683 27)
  have h1 : divs t 19683 27 = (t + 9841) / 27 - 364 := by
    rw [divs_eq (by omega)]
    rfl
  have hcut : t = mods t 19683 27 + 27 * divs t 19683 27 := mods_add_divs (by omega) (by decide)
  have hcut' : divs t 19683 27 = mods (divs t 19683 27) 19683 27 +
      27 * divs (divs t 19683 27) 19683 27 := mods_add_divs (by omega) (by decide)
  -- what is left is one tryte
  have hlast : mods (divs (divs t 19683 27) 19683 27) 19683 27 =
      divs (divs t 19683 27) 19683 27 := by
    have h2 : divs (divs t 19683 27) 19683 27 = (divs t 19683 27 + 9841) / 27 - 364 := by
      rw [divs_eq (by omega)]
      rfl
    rw [mods_eq (by omega)]
    omega
  rw [hlast, ← hcut']
  exact hcut

theorem sum_tryteDigits (h : List Trit) : tryteSumFrom h 0 (wotsPrivateKeyPartCount - 3) =
    ∑ i ∈ Finset.range (wotsPrivateKeyPartCount - 3), wotsDigit h i := by
  have hsum : tryteSumFrom h 0 (wotsPrivateKeyPartCount - 3) =
      ∑ i ∈ Finset.range (wotsPrivateKeyPartCount - 3), get3 (h.drop ((0 + i) * 3)) := rfl
  rw [hsum]
  refine Finset.sum_congr rfl fun i hi => ?_
  rw [Nat.zero_add, wotsDigit_message (Finset.mem_range.mp hi)]

/-- **One chain goes back.** If all trytes of a hash were at most those of the other, the sums would
be in that order and the checksums in the other one, so all are the same. -/
theorem exists_wotsRounds_lt (hh : h.length = wotsHashSize) (hh' : h'.length = wotsHashSize)
    (hne : h ≠ h') :
    ∃ i < wotsPrivateKeyPartCount, wotsRounds .sign h' i < wotsRounds .sign h i := by
  by_contra hall
  push Not at hall
  have hdigit : ∀ i < wotsPrivateKeyPartCount, wotsDigit h i ≤ wotsDigit h' i := by
    intro i hi
    have hrounds : (wotsDigit h i + 13).toNat ≤ (wotsDigit h' i + 13).toNat := hall i hi
    have := wotsDigit_bound h i
    have := wotsDigit_bound h' i
    omega
  have hmessage : ∀ i ∈ Finset.range (wotsPrivateKeyPartCount - 3),
      wotsDigit h i ≤ wotsDigit h' i := by
    intro i hi
    have := Finset.mem_range.mp hi
    exact hdigit i (by omega)
  have hsum := Finset.sum_le_sum hmessage
  have hchecksum : -tryteSumFrom h 0 (wotsPrivateKeyPartCount - 3) ≤
      -tryteSumFrom h' 0 (wotsPrivateKeyPartCount - 3) := by
    have h0 := hdigit (wotsPrivateKeyPartCount - 3) (by decide)
    have h1 := hdigit (wotsPrivateKeyPartCount - 3 + 1) (by decide)
    have h2 := hdigit (wotsPrivateKeyPartCount - 3 + 2) (by decide)
    rw [checksum_eq, checksum_eq]
    omega
  rw [sum_tryteDigits, sum_tryteDigits] at hchecksum
  have heq := (Finset.sum_eq_sum_iff_of_le hmessage).mp (by omega)
  refine hne (eq_of_get3_eq hh hh' fun i hi => ?_)
  rw [← wotsDigit_message hi, ← wotsDigit_message hi]
  exact heq i (Finset.mem_range.mpr hi)

/-- **Signatures are complete, and none holds another.** A signature leads to the public key of its
private key; and for two hashes some chain is hashed fewer times for the one than for the other. -/
theorem wots_complete_undominated (T : Troika) :
    (∀ (privateKey : {k : List Trit // k.length = wotsPrivateKeySize})
      (hash : {h : List Trit // h.length = wotsHashSize}), ∃ signature publicKey,
      mamWotsSign T (some privateKey.1) hash.1 wotsPrivateKeySize = .ok signature ∧
      mamWotsGenPk T (some privateKey.1) wotsPublicKeySize = .ok publicKey ∧
      mamWotsRecover T hash.1 signature wotsPublicKeySize = .ok publicKey) ∧
    ∀ (privateKey : {k : List Trit // k.length = wotsPrivateKeySize})
      (hash hash' : {h : List Trit // h.length = wotsHashSize}), hash ≠ hash' →
      ∃ i < wotsPrivateKeyPartCount,
        ((wotsChains T hash'.1 privateKey.1 .sign).map Prod.fst).getD i 0 <
          ((wotsChains T hash.1 privateKey.1 .sign).map Prod.fst).getD i 0 := by
  refine ⟨fun privateKey hash => ?_, fun privateKey hash hash' hne => ?_⟩
  · have hsigned : mamWotsSign T (some privateKey.1) hash.1 wotsPrivateKeySize =
        .ok (wotsSign T privateKey.1 hash.1) := by
      have hargs : ¬ (hash.1.length ≠ wotsHashSize ∨ wotsPrivateKeySize ≠ wotsPrivateKeySize) :=
        fun h => h.elim (fun h => h hash.2) fun h => h rfl
      rw [mamWotsSign, if_neg hargs, flatten_wotsChains privateKey.2]
      rfl
    have hsize : (wotsSign T privateKey.1 hash.1).length = wotsPrivateKeySize :=
      length_wotsHashSignOrRecover .sign privateKey.2
    have hpublic : mamWotsGenPk T (some privateKey.1) wotsPublicKeySize =
        .ok (wotsGenPk T privateKey.1) := by
      rw [mamWotsGenPk, if_neg fun h => h rfl]
    refine ⟨_, _, hsigned, hpublic, ?_⟩
    have hargs : ¬ (hash.1.length ≠ wotsHashSize ∨
        (wotsSign T privateKey.1 hash.1).length ≠ wotsPrivateKeySize ∨
        wotsPublicKeySize ≠ wotsPublicKeySize) :=
      fun h => h.elim (fun h => h hash.2) fun h => h.elim (fun h => h hsize) fun h => h rfl
    rw [mamWotsRecover, if_neg hargs, flatten_wotsChains hsize]
    exact congrArg Except.ok (wotsRecover_wotsSign privateKey.2)
  · obtain ⟨i, hi, hlt⟩ := exists_wotsRounds_lt hash.2 hash'.2 fun heq => hne (Subtype.ext heq)
    have hrounds : ∀ h : List Trit,
        ((wotsChains T h privateKey.1 .sign).map Prod.fst).getD i 0 = wotsRounds .sign h i := by
      intro h
      rw [wotsChains_eq, List.map_map, List.getD_eq_getElem?_getD, List.getElem?_map,
        List.getElem?_range hi]
      rfl
    exact ⟨i, hi, by rwa [hrounds, hrounds]⟩

end Dominance

end Mam

end Entangled
