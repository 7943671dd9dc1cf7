import Entangled.Signing.Balanced
import Entangled.Signing.Exact
import Entangled.Trinary.Add
import Entangled.Trinary.ByteCodec
/-!
# What finalizing leaves

`bundle_finalize` counts the tag of the first transaction up until the hash of the bundle is secure.
The tag is counted in a buffer of trits of its own and packed over the old one before each hash, so
after `n` retries the bundle is the one it was with the tag plus `n`; and the hash that is stored is
that of the last round.
-/

namespace Entangled

open Ternary Trinary

variable {σ : Type} {K : Kerl σ} {E : Encoding} {head : Transaction (List FlexTrit)}
variable {rest out : List (Transaction (List FlexTrit))} {tag : List FlexTrit} {t : List ℤ}

/-- The 81 trits of a packed tag. -/
def tagTrits (E : Encoding) (tag : List FlexTrit) : List ℤ :=
  (flexTritsToTrits E (List.replicate 81 0) 81 tag 81 81).1

/-- The first transaction with its tag counted up `n` times. -/
def retriedHead (E : Encoding) (head : Transaction (List FlexTrit)) :
    ℕ → Transaction (List FlexTrit)
  | 0 => head
  | n + 1 => { head with
      obsoleteTag := pack E (digits 81 (value (tagTrits E head.obsoleteTag) + (n + 1 : ℕ))) }

/-- The hash of round `n`. -/
def roundHash (K : Kerl σ) (E : Encoding) (head : Transaction (List FlexTrit))
    (rest : List (Transaction (List FlexTrit))) (n : ℕ) : List FlexTrit :=
  essenceHash (kerlSponge K E) (retriedHead E head n :: rest)

/-- A finalized bundle, after a number of retries. -/
structure Finalized (K : Kerl σ) (E : Encoding) (head : Transaction (List FlexTrit))
    (rest out : List (Transaction (List FlexTrit))) (retries : ℕ) (tag : List FlexTrit) : Prop where
  /-- Every transaction holds the hash that `bundle_validate` computes. -/
  bundle : ∀ tx ∈ out, tx.bundle = essenceHash (kerlSponge K E) out
  secure : ∀ v ∈ normalizeFlexHash E (essenceHash (kerlSponge K E) out), v ≠ 13
  /-- Of the essences only the first tag is another one. -/
  essences : out.map (·.essence) =
    { head.essence with obsoleteTag := tag } :: rest.map (·.essence)
  tag : tagTrits E tag = digits 81 (value (tagTrits E head.obsoleteTag) + retries)
  /-- The retries are those of the rounds before, whose hashes had the tryte. -/
  retried : ∀ n < retries, (13 : ℤ) ∈ normalizeFlexHash E (roundHash K E head rest n)

/-! ## The tag -/

/-- The trits of a tag are as many as it has, in all encodings. -/
theorem length_tagTrits (h : tag.length = E.numFlexTritsForTrits 81) :
    (tagTrits E tag).length = 81 := by
  have hmem : (memset (List.replicate 81 (0 : ℤ)) 0 81).length = 81 := by
    rw [length_memset (by rw [List.length_replicate]), List.length_replicate]
  have htake : (tag.take (E.numFlexTritsForTrits 81)).length = E.numFlexTritsForTrits 81 := by
    rw [List.length_take, h, Nat.min_self]
  unfold tagTrits flexTritsToTrits
  rw [if_neg (by decide)]
  generalize memset (List.replicate 81 (0 : ℤ)) 0 81 = buf at hmem
  cases E with
  | one =>
    dsimp only
    rw [length_blit (by rw [List.length_map, htake, hmem]; decide), hmem]
  | three =>
    have htrytes : (trytesToTrits (tag.take (Encoding.three.numFlexTritsForTrits 81))).length =
        81 := by
      rw [trytesToTrits, List.length_flatMap]
      simp [tryteTrits, h, Encoding.numFlexTritsForTrits]
    dsimp only
    rw [length_blit (by rw [htrytes, hmem]), hmem]
  | four =>
    dsimp only
    rw [foldl_set_eq_blit _ hmem.ge, length_blit (by simp [hmem]), hmem]
  | five =>
    have hbytes : (bytesToTrits (tag.take (Encoding.five.numFlexTritsForTrits 81)) 81).length =
        81 := length_bytesToTrits (by rw [htake]; decide)
    dsimp only
    rw [length_blit (by rw [hbytes, hmem]), hmem]

theorem tagTrits_pack (ht : Trits t) (hl : t.length = 81) : tagTrits E (pack E t) = t := by
  have h := flexTritsToTrits_pack (E := E) (List.replicate 81 0) 81 ht List.prefix_rfl
    (by omega) (fun _ => by rw [hl]; decide) (by omega) (by rw [List.length_replicate]; omega)
  rw [hl] at h
  rw [tagTrits, h, blit_full (by rw [List.length_replicate, hl])]

/-- A tag is packed over another one. -/
theorem flexTritsFromTrits_tag (ht : Trits t) (hl : t.length = 81)
    (htag : tag.length = E.numFlexTritsForTrits 81) :
    (flexTritsFromTrits E tag 81 t 81 81).1 = pack E t := by
  have h := flexTritsFromTrits_pack (E := E) tag t 81 ht List.take_length (by omega) (by omega)
    (by rw [hl, htag])
  rw [hl] at h
  rw [h, blit_full (by rw [length_pack, hl, htag])]

/-- **Counting up** the trits counts up the number, modulo `3 ^ 81`. -/
theorem addAssign_digits (v : ℤ) : addAssign (digits 81 v) 1 = digits 81 (v + 1) := by
  obtain ⟨k, hk⟩ := exists_value_digits_add 81 v
  have hone : (1 : Int64).toInt = 1 := rfl
  have hadd := addAssign_of_fits (t := digits 81 v) (w := 1) (trits_digits 81 v) (by decide)
    (by decide) (by rw [length_digits]; decide)
  rw [hadd, length_digits, hone]
  have hsum : v + 1 = value (digits 81 v) + 1 + 3 ^ 81 * k := by
    rw [Int.add_right_comm, hk]
  rw [hsum, digits_add_mul]

/-- The tag of round `n` has the trits it is counted in. -/
theorem tagTrits_retriedHead (htag : head.obsoleteTag.length = E.numFlexTritsForTrits 81)
    (ht : Trits (tagTrits E head.obsoleteTag)) (n : ℕ) :
    (retriedHead E head n).obsoleteTag.length = E.numFlexTritsForTrits 81 ∧
      tagTrits E (retriedHead E head n).obsoleteTag =
        digits 81 (value (tagTrits E head.obsoleteTag) + n) := by
  cases n with
  | zero =>
    have hself := digits_value_length ht
    rw [length_tagTrits htag] at hself
    exact ⟨htag, by rw [Nat.cast_zero, Int.add_zero, hself, retriedHead]⟩
  | succ n =>
    refine ⟨?_, tagTrits_pack (trits_digits 81 _) (length_digits 81 _)⟩
    rw [retriedHead, length_pack, length_digits]

/-! ## The rounds -/

theorem not_secure_iff {hash : List FlexTrit} :
    ¬ normalizedHashIsSecure (normalizeFlexHash E hash) = true ↔
      (13 : ℤ) ∈ normalizeFlexHash E hash := by
  simp [normalizedHashIsSecure]

/-- **The run of the loop** from round `n` on: it ends in the first round with a secure hash. -/
theorem finalizeLoop_eq {rounds n : ℕ}
    (htag : head.obsoleteTag.length = E.numFlexTritsForTrits 81)
    (ht : Trits (tagTrits E head.obsoleteTag))
    (h : finalizeLoop K E rounds (digits 81 (value (tagTrits E head.obsoleteTag) + n))
      (retriedHead E head n :: rest) = some out) :
    ∃ m, n ≤ m ∧ (∀ j, n ≤ j → j < m →
        (13 : ℤ) ∈ normalizeFlexHash E (roundHash K E head rest j)) ∧
      (∀ v ∈ normalizeFlexHash E (roundHash K E head rest m), v ≠ 13) ∧
      out = (retriedHead E head m :: rest).map fun tx =>
        { tx with bundle := roundHash K E head rest m } := by
  induction rounds generalizing n with
  | zero => cases h
  | succ rounds ih =>
    have hhash : bundleCalculateHash K E ((retriedHead E head n :: rest).map (·.essence)) =
        roundHash K E head rest n := rfl
    rw [finalizeLoop, hhash] at h
    dsimp only at h
    by_cases hsecure : normalizedHashIsSecure (normalizeFlexHash E (roundHash K E head rest n)) = true
    · rw [if_pos hsecure] at h
      refine ⟨n, le_rfl, fun j hj hjn => absurd hjn (not_lt.mpr hj), fun v hv h13 => ?_,
        (Option.some.inj h).symm⟩
      exact not_secure_iff.mpr (h13 ▸ hv) hsecure
    · rw [if_neg hsecure, addAssign_digits] at h
      have hnext : (retriedHead E head n :: rest).modifyHead (fun tx => { tx with
          obsoleteTag := (flexTritsFromTrits E tx.obsoleteTag 81
            (digits 81 (value (tagTrits E head.obsoleteTag) + n + 1)) 81 81).1 }) =
          retriedHead E head (n + 1) :: rest := by
        rw [List.modifyHead_cons, flexTritsFromTrits_tag (trits_digits 81 _) (length_digits 81 _)
          (tagTrits_retriedHead htag ht n).1]
        cases n with
        | zero => simp [retriedHead]
        | succ n => simp [retriedHead, Int.add_assoc]
      rw [hnext, Int.add_assoc, ← Nat.cast_succ] at h
      obtain ⟨m, hm, hbefore, hlast⟩ := ih h
      refine ⟨m, by omega, fun j hj hjm => ?_, hlast⟩
      rcases hj.eq_or_lt with rfl | hlt
      · exact not_secure_iff.mp hsecure
      · exact hbefore j hlt hjm

/-- **Whenever finalizing returns**, the bundle is the one it was with the tag counted up, under the
secure hash of what it has become. -/
theorem bundleFinalize_finalized (K : Kerl σ) (E : Encoding) {rounds : ℕ}
    (htag : head.obsoleteTag.length = E.numFlexTritsForTrits 81)
    (ht : Trits (tagTrits E head.obsoleteTag))
    (h : bundleFinalize K E rounds (head :: rest) = some out) :
    ∃ retries tag, Finalized K E head rest out retries tag := by
  have hstart := (tagTrits_retriedHead htag ht 0).2
  rw [bundleFinalize, ← tagTrits] at h
  obtain ⟨m, -, hbefore, hsecure, rfl⟩ := finalizeLoop_eq (n := 0) htag ht (hstart ▸ h)
  have hessence : ∀ n, (retriedHead E head n).essence =
      { head.essence with obsoleteTag := (retriedHead E head n).obsoleteTag } := by
    intro n
    cases n <;> rfl
  have hsame : essenceHash (kerlSponge K E) ((retriedHead E head m :: rest).map fun tx =>
      { tx with bundle := roundHash K E head rest m }) = roundHash K E head rest m := by
    rw [essenceHash, List.map_map]
    rfl
  refine ⟨m, (retriedHead E head m).obsoleteTag, ⟨?_, ?_, ?_,
    (tagTrits_retriedHead htag ht m).2, fun n hn => hbefore n (Nat.zero_le n) hn⟩⟩
  · intro tx htx
    obtain ⟨tx₀, -, rfl⟩ := List.mem_map.mp htx
    exact hsame.symm
  · rwa [hsame]
  · rw [List.map_map, List.map_cons, ← hessence]
    rfl

/-- A single transaction, three trits to a byte, under the sponge that squeezes zeros. -/
theorem bundleFinalize_finalized_null : ∃ out retries tag,
    Finalized nullKerl .three (transferTx nineAddress 0) [] out retries tag := by
  have hnull : (transferTx nineAddress 0).obsoleteTag = pack .three (List.replicate 81 0) :=
    replicate_null .three 81
  have ht : Trits (tagTrits .three (transferTx nineAddress 0).obsoleteTag) := by
    rw [hnull, tagTrits_pack (trits_replicate 81) List.length_replicate]
    exact trits_replicate 81
  exact ⟨_, bundleFinalize_finalized nullKerl .three (by decide) ht
    (bundleFinalize_nullKerl .three (List.cons_ne_nil _ []))⟩

end Entangled
