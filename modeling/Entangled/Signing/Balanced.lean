import Entangled.Signing.Normalize
import Mathlib.Algebra.BigOperators.Group.List.Basic
/-!
# A normalized hash is balanced

Each round of `normalize_hash` moves the sum of its fragment by one, towards zero: as long as the sum
is above zero one of the trytes is, and can go down. So the rounds end at sum zero, have only gone
one way, and there are none where the sum was zero to begin with. Of two lists of one sum neither is
above the other: raising one tryte of a normalized hash lowers another.
-/

namespace Entangled

open Ternary Trinary

variable {us vs : List ℤ} {hash hash' out : List ℤ} {i n : ℕ}

/-- The trytes of fragment `i` of a hash, as numbers. -/
def hashFragment (hash : List ℤ) (i : ℕ) : List ℤ :=
  (List.range' (27 * i) 27).map (hashTryteVal hash)

/-- Not below the other list in any position, and not the same. -/
def Dominates (us vs : List ℤ) : Prop := List.Forall₂ (· ≤ ·) vs us ∧ us ≠ vs

/-- What `normalize_hash` makes of a hash. -/
structure Balanced (hash : List ℤ) : Prop where
  length : (normalizeHash hash).length = 81
  range : ∀ v ∈ normalizeHash hash, -13 ≤ v ∧ v ≤ 13
  sum : ∀ i < 3, (block 27 (normalizeHash hash) i).sum = 0
  /-- A balanced fragment stays as it is. -/
  fixed : ∀ i < 3, (hashFragment hash i).sum = 0 →
    block 27 (normalizeHash hash) i = hashFragment hash i
  /-- All trytes that change go down, or all go up. -/
  down : ∀ i < 3, 0 ≤ (hashFragment hash i).sum →
    List.Forall₂ (· ≤ ·) (block 27 (normalizeHash hash) i) (hashFragment hash i)
  up : ∀ i < 3, (hashFragment hash i).sum ≤ 0 →
    List.Forall₂ (· ≤ ·) (hashFragment hash i) (block 27 (normalizeHash hash) i)
  /-- Normalized once more, from the trits it is written as, it is the same. -/
  idempotent : ∀ out : List ℤ, out.length = 243 →
    normalizeHash (normalizeHashToTrits hash out) = normalizeHash hash

/-! ## One round -/

/-- **A round takes one** from a sum above zero. -/
theorem sum_decrementFirst (h : 0 < vs.sum) : (decrementFirst vs).sum = vs.sum - 1 := by
  induction vs with
  | nil => exact absurd h (lt_irrefl 0)
  | cons v vs ih =>
    rw [List.sum_cons] at h ⊢
    rw [decrementFirst]
    split_ifs with hlt
    · rw [List.sum_cons]
      omega
    · rw [List.sum_cons, ih (by omega)]
      omega

theorem sum_incrementFirst (h : vs.sum < 0) : (incrementFirst vs).sum = vs.sum + 1 := by
  induction vs with
  | nil => exact absurd h (lt_irrefl 0)
  | cons v vs ih =>
    rw [List.sum_cons] at h ⊢
    rw [incrementFirst]
    split_ifs with hlt
    · rw [List.sum_cons]
      omega
    · rw [List.sum_cons, ih (by omega)]
      omega

theorem decrementFirst_le (vs : List ℤ) : List.Forall₂ (· ≤ ·) (decrementFirst vs) vs := by
  induction vs with
  | nil => exact .nil
  | cons v vs ih =>
    rw [decrementFirst]
    split_ifs
    · exact .cons (by omega) (List.forall₂_refl vs)
    · exact .cons le_rfl ih

theorem le_incrementFirst (vs : List ℤ) : List.Forall₂ (· ≤ ·) vs (incrementFirst vs) := by
  induction vs with
  | nil => exact .nil
  | cons v vs ih =>
    rw [incrementFirst]
    split_ifs
    · exact .cons (by omega) (List.forall₂_refl vs)
    · exact .cons le_rfl ih

/-! ## The rounds -/

theorem le_trans₂ {ws : List ℤ} (h : List.Forall₂ (· ≤ ·) us vs)
    (h' : List.Forall₂ (· ≤ ·) vs ws) : List.Forall₂ (· ≤ ·) us ws := by
  induction h generalizing ws with
  | nil => exact h'
  | cons hle _ ih =>
    obtain ⟨w, ws, hw, hws, rfl⟩ := List.forall₂_cons_left_iff.mp h'
    exact .cons (hle.trans hw) (ih hws)

/-- **As many rounds as the sum counts** end at zero, all trytes at or below where they were. -/
theorem iterate_decrementFirst (h : (n : ℤ) ≤ vs.sum) :
    (decrementFirst^[n] vs).sum = vs.sum - n ∧
      List.Forall₂ (· ≤ ·) (decrementFirst^[n] vs) vs := by
  induction n with
  | zero => exact ⟨(Int.sub_zero _).symm, List.forall₂_refl vs⟩
  | succ n ih =>
    obtain ⟨hsum, hle⟩ := ih (by omega)
    rw [Function.iterate_succ_apply']
    refine ⟨?_, le_trans₂ (decrementFirst_le _) hle⟩
    rw [sum_decrementFirst (by omega), hsum]
    omega

theorem iterate_incrementFirst (h : vs.sum ≤ -(n : ℤ)) :
    (incrementFirst^[n] vs).sum = vs.sum + n ∧
      List.Forall₂ (· ≤ ·) vs (incrementFirst^[n] vs) := by
  induction n with
  | zero => exact ⟨(Int.add_zero _).symm, List.forall₂_refl vs⟩
  | succ n ih =>
    obtain ⟨hsum, hle⟩ := ih (by omega)
    rw [Function.iterate_succ_apply']
    refine ⟨?_, le_trans₂ hle (le_incrementFirst _)⟩
    rw [sum_incrementFirst (by omega), hsum]
    omega

/-- **A fragment is balanced** and has gone one way. -/
theorem normalizeFragment_balanced (vs : List ℤ) :
    (normalizeFragment vs).sum = 0 ∧ (vs.sum = 0 → normalizeFragment vs = vs) ∧
      (0 ≤ vs.sum → List.Forall₂ (· ≤ ·) (normalizeFragment vs) vs) ∧
      (vs.sum ≤ 0 → List.Forall₂ (· ≤ ·) vs (normalizeFragment vs)) := by
  have hfixed : vs.sum = 0 → normalizeFragment vs = vs := by
    intro h
    rw [normalizeFragment, h, if_neg (lt_irrefl 0)]
    rfl
  rcases Int.lt_trichotomy vs.sum 0 with hlt | hzero | hgt
  · have hneg : vs.sum ≤ -((-vs.sum).toNat : ℤ) := by omega
    obtain ⟨hsum, hle⟩ := iterate_incrementFirst hneg
    have heq : normalizeFragment vs = incrementFirst^[(-vs.sum).toNat] vs :=
      if_neg (not_lt.mpr hlt.le)
    rw [heq] at hfixed ⊢
    exact ⟨by omega, hfixed, fun h => by omega, fun _ => hle⟩
  · rw [hfixed hzero]
    exact ⟨hzero, fun _ => rfl, fun _ => List.forall₂_refl vs, fun _ => List.forall₂_refl vs⟩
  · have hpos : (vs.sum.toNat : ℤ) ≤ vs.sum := by omega
    obtain ⟨hsum, hle⟩ := iterate_decrementFirst hpos
    have heq : normalizeFragment vs = decrementFirst^[vs.sum.toNat] vs := if_pos hgt
    rw [heq] at hfixed ⊢
    exact ⟨by omega, hfixed, fun _ => hle, fun h => by omega⟩

/-! ## Lists of one sum -/

theorem sum_le_sum_of_forall₂ (h : List.Forall₂ (· ≤ ·) us vs) : us.sum ≤ vs.sum := by
  induction h with
  | nil => exact le_rfl
  | cons hle _ ih =>
    rw [List.sum_cons, List.sum_cons]
    omega

/-- Below in every position, and of one sum: the same. -/
theorem eq_of_forall₂_le (h : List.Forall₂ (· ≤ ·) us vs) (hs : us.sum = vs.sum) : us = vs := by
  induction h with
  | nil => rfl
  | @cons u v us vs hle htail ih =>
    rw [List.sum_cons, List.sum_cons] at hs
    have hsum := sum_le_sum_of_forall₂ htail
    have hhead : u = v := by omega
    rw [hhead, ih (by omega)]

/-! ## The hash -/

theorem length_hashFragment (hash : List ℤ) (i : ℕ) : (hashFragment hash i).length = 27 := by
  rw [hashFragment, List.length_map, List.length_range']

theorem inTryte_hashFragment (h : Trits hash) (i : ℕ) : ∀ v ∈ hashFragment hash i, InTryte v := by
  intro v hv
  obtain ⟨j, -, rfl⟩ := List.mem_map.mp hv
  exact inTryte_hashTryteVal h j

/-- **A third of the normalized hash** is made of the same third of the hash. -/
theorem block_normalizeHash (h : Trits hash) (hi : i < 3) :
    block 27 (normalizeHash hash) i = normalizeFragment (hashFragment hash i) := by
  have hlen : ∀ j < 3, (normalizeFragment (hashFragment hash j)).length = 27 := fun j _ =>
    (normalizeFragment_spec (inTryte_hashFragment h j)).1.trans (length_hashFragment hash j)
  exact block_flatten_range hlen hi

/-- The trytes of the trits that are written are the normalized ones. -/
theorem hashFragment_normalized (h : Trits hash) (hl : out.length = 243) (hi : i < 3) :
    hashFragment (normalizeHashToTrits hash out) i = block 27 (normalizeHash hash) i := by
  obtain ⟨hlen, -⟩ := normalizeHash_spec h
  have hblock : (block 27 (normalizeHash hash) i).length = 27 := length_block (by omega)
  apply List.ext_getElem
  · rw [length_hashFragment, hblock]
  · intro j hj hj'
    rw [length_hashFragment] at hj
    obtain ⟨hval, -⟩ := hashTryteVal_normalized h hl (i := 27 * i + j) (by omega)
    simp only [hashFragment, List.getElem_map, List.getElem_range', Nat.one_mul, hval, block,
      List.getElem_take, List.getElem_drop]
    rw [List.getD_eq_getElem?_getD, List.getElem?_eq_getElem (by omega), Option.getD_some]

/-- The trits that are written are trits. -/
theorem trits_normalizeHashToTrits (h : Trits hash) (hl : out.length = 243) :
    Trits (normalizeHashToTrits hash out) := by
  rw [normalizeHashToTrits_eq h hl]
  intro t ht
  obtain ⟨v, -, hv⟩ := List.mem_flatMap.mp ht
  exact trits_digits 3 v t hv

theorem normalizeHash_idempotent (h : Trits hash) (hl : out.length = 243) :
    normalizeHash (normalizeHashToTrits hash out) = normalizeHash hash := by
  have ht := trits_normalizeHashToTrits h hl
  refine eq_of_block_eq (w := 27) (m := 3) (normalizeHash_spec ht).1 (normalizeHash_spec h).1 ?_
  intro i hi
  have hsum := (normalizeFragment_balanced (hashFragment hash i)).1
  rw [block_normalizeHash ht hi, hashFragment_normalized h hl hi]
  rw [← block_normalizeHash h hi] at hsum
  exact (normalizeFragment_balanced _).2.1 hsum

/-- **Normalized hashes are balanced**, and no fragment of one dominates that of another. -/
theorem normalizeHash_balanced (h : Trits hash) (h' : Trits hash') :
    Balanced hash ∧ ∀ i < 3,
      ¬ Dominates (block 27 (normalizeHash hash) i) (block 27 (normalizeHash hash') i) := by
  obtain ⟨hlen, hrange⟩ := normalizeHash_spec h
  refine ⟨⟨hlen, hrange, fun i hi => ?_, fun i hi => ?_, fun i hi => ?_, fun i hi => ?_,
    fun out hl => normalizeHash_idempotent h hl⟩, fun i hi hdom => ?_⟩
  · rw [block_normalizeHash h hi]
    exact (normalizeFragment_balanced _).1
  · rw [block_normalizeHash h hi]
    exact (normalizeFragment_balanced _).2.1
  · rw [block_normalizeHash h hi]
    exact (normalizeFragment_balanced _).2.2.1
  · rw [block_normalizeHash h hi]
    exact (normalizeFragment_balanced _).2.2.2
  · rw [block_normalizeHash h hi, block_normalizeHash h' hi] at hdom
    have hsum := (normalizeFragment_balanced (hashFragment hash' i)).1
    exact hdom.2 (eq_of_forall₂_le hdom.1
      (hsum.trans (normalizeFragment_balanced (hashFragment hash i)).1.symm)).symm

/-- The hash of trits 1, whose trytes are all 13, beside the hash of zeros. -/
theorem normalizeHash_balanced_ones : Balanced (List.replicate 243 1) ∧ ∀ i < 3,
    ¬ Dominates (block 27 (normalizeHash (List.replicate 243 1)) i)
      (block 27 (normalizeHash (List.replicate 243 0)) i) := by
  refine normalizeHash_balanced (fun t ht => ?_) (trits_replicate 243)
  rw [List.eq_of_mem_replicate ht]
  decide

end Entangled
