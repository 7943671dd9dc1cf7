import Entangled.Signing.Iss
import Entangled.Trinary.Long
/-!
# Normalized hashes

`normalize_hash` takes the 81 trytes of a hash as numbers and moves each third of them to sum
zero; `normalize_hash_to_trits` writes them back as trits. A normalized tryte stays between
-13 and 13, so 13 minus it and 13 plus it are the numbers of hashes of a signature block and
of its check.
-/

namespace Entangled

open Ternary Trinary

/-- One round of the loop for a positive sum: the first tryte above -13 loses one. -/
def decrementFirst : List ℤ → List ℤ
  | [] => []
  | v :: vs => if -13 < v then (v - 1) :: vs else v :: decrementFirst vs

/-- One round of the loop for a negative sum: the first tryte below 13 gains one. -/
def incrementFirst : List ℤ → List ℤ
  | [] => []
  | v :: vs => if v < 13 then (v + 1) :: vs else v :: incrementFirst vs

/-- The trytes of one third of a hash moved until their sum is spent. -/
def normalizeFragment (vs : List ℤ) : List ℤ :=
  if 0 < vs.sum then decrementFirst^[vs.sum.toNat] vs
  else incrementFirst^[(-vs.sum).toNat] vs

/-- `normalize_hash`. -/
def normalizeHash (hash : List ℤ) : List ℤ :=
  (List.range 3).flatMap fun i =>
    normalizeFragment ((List.range' (27 * i) 27).map (hashTryteVal hash))

/-- `normalize_hash_to_trits`, into the buffer `normalizedHash`. -/
def normalizeHashToTrits (hash normalizedHash : List ℤ) : List ℤ :=
  (List.range 81).foldl (fun out c => out.take (c * 3) ++
    (longToTrits (Int64.ofInt ((normalizeHash hash).getD c 0)) (out.drop (c * 3))).1)
    normalizedHash

/-- `normalized_hash_is_secure`. -/
def normalizedHashIsSecure (normalizedHash : List ℤ) : Bool :=
  normalizedHash.all fun v => v != 13

/-! ## The range of a normalized tryte -/

/-- A number one tryte can hold. -/
def InTryte (v : ℤ) : Prop := -13 ≤ v ∧ v ≤ 13

theorem inTryte_hashTryteVal {hash : List ℤ} (h : Trits hash) (i : ℕ) :
    InTryte (hashTryteVal hash i) := by
  have h₀ := h.getD (i * 3)
  have h₁ := h.getD (i * 3 + 1)
  have h₂ := h.getD (i * 3 + 2)
  unfold IsTrit at h₀ h₁ h₂
  unfold InTryte hashTryteVal
  omega

theorem length_decrementFirst (vs : List ℤ) : (decrementFirst vs).length = vs.length := by
  induction vs with
  | nil => rfl
  | cons v vs ih =>
    rw [decrementFirst]
    split_ifs <;> simp [ih]

theorem length_incrementFirst (vs : List ℤ) : (incrementFirst vs).length = vs.length := by
  induction vs with
  | nil => rfl
  | cons v vs ih =>
    rw [incrementFirst]
    split_ifs <;> simp [ih]

theorem inTryte_decrementFirst {vs : List ℤ} (h : ∀ v ∈ vs, InTryte v) :
    ∀ v ∈ decrementFirst vs, InTryte v := by
  induction vs with
  | nil => exact h
  | cons v vs ih =>
    obtain ⟨hv, hvs⟩ := List.forall_mem_cons.mp h
    unfold InTryte at hv
    rw [decrementFirst]
    split_ifs with hlt
    · exact List.forall_mem_cons.mpr ⟨⟨by omega, by omega⟩, hvs⟩
    · exact List.forall_mem_cons.mpr ⟨hv, ih hvs⟩

theorem inTryte_incrementFirst {vs : List ℤ} (h : ∀ v ∈ vs, InTryte v) :
    ∀ v ∈ incrementFirst vs, InTryte v := by
  induction vs with
  | nil => exact h
  | cons v vs ih =>
    obtain ⟨hv, hvs⟩ := List.forall_mem_cons.mp h
    unfold InTryte at hv
    rw [incrementFirst]
    split_ifs with hlt
    · exact List.forall_mem_cons.mpr ⟨⟨by omega, by omega⟩, hvs⟩
    · exact List.forall_mem_cons.mpr ⟨hv, ih hvs⟩

/-- **What the rounds keep**: the number of trytes and their range. -/
theorem normalizeFragment_spec {vs : List ℤ} (h : ∀ v ∈ vs, InTryte v) :
    (normalizeFragment vs).length = vs.length ∧ ∀ v ∈ normalizeFragment vs, InTryte v := by
  have hkeeps : ∀ (f : List ℤ → List ℤ) (n : ℕ), (∀ us, (f us).length = us.length) →
      (∀ us : List ℤ, (∀ v ∈ us, InTryte v) → ∀ v ∈ f us, InTryte v) →
      (f^[n] vs).length = vs.length ∧ ∀ v ∈ f^[n] vs, InTryte v := by
    intro f n hl hr
    induction n with
    | zero => exact ⟨rfl, h⟩
    | succ n ih =>
      rw [Function.iterate_succ_apply', hl]
      exact ⟨ih.1, hr _ ih.2⟩
  unfold normalizeFragment
  split_ifs
  · exact hkeeps _ _ length_decrementFirst fun _ => inTryte_decrementFirst
  · exact hkeeps _ _ length_incrementFirst fun _ => inTryte_incrementFirst

theorem normalizeHash_spec {hash : List ℤ} (h : Trits hash) :
    (normalizeHash hash).length = 81 ∧ ∀ v ∈ normalizeHash hash, InTryte v := by
  have hfrag : ∀ i, (normalizeFragment
      ((List.range' (27 * i) 27).map (hashTryteVal hash))).length = 27 ∧
      ∀ v ∈ normalizeFragment ((List.range' (27 * i) 27).map (hashTryteVal hash)), InTryte v := by
    intro i
    have hrange : ∀ v ∈ (List.range' (27 * i) 27).map (hashTryteVal hash), InTryte v := by
      intro v hv
      obtain ⟨j, -, rfl⟩ := List.mem_map.mp hv
      exact inTryte_hashTryteVal h j
    have hspec := normalizeFragment_spec hrange
    rwa [List.length_map, List.length_range'] at hspec
  refine ⟨?_, ?_⟩
  · rw [normalizeHash, List.length_flatMap]
    simp [hfrag]
  · intro v hv
    obtain ⟨i, -, hi⟩ := List.mem_flatMap.mp hv
    exact (hfrag i).2 v hi

/-! ## The normalized hash as trits -/

theorem two_mul_abs_lt_of_inTryte {v : ℤ} (h : InTryte v) : 2 * |v| < 3 ^ 3 := by
  unfold InTryte at h
  rw [two_mul_abs_lt]
  omega

theorem toInt_of_inTryte {v : ℤ} (h : InTryte v) : (Int64.ofInt v).toInt = v := by
  unfold InTryte at h
  exact Int64.toInt_ofInt_of_le (by omega) (by omega)

theorem getElem?_eq_some_getD {l : List ℤ} {i : ℕ} (h : i < l.length) :
    l[i]? = some (l.getD i 0) := by
  rw [List.getD_eq_getElem?_getD, List.getElem?_eq_getElem h, Option.getD_some]

/-- The trits of the first trytes, one behind the other. -/
theorem length_flatMap_digits (vs : List ℤ) : (vs.flatMap (digits 3)).length = 3 * vs.length := by
  rw [List.length_flatMap]
  simp [Nat.mul_comm]

/-- **The trits of a normalized hash**, whatever the buffer held before. -/
theorem normalizeHashToTrits_eq {hash out : List ℤ} (h : Trits hash) (hl : out.length = 243) :
    normalizeHashToTrits hash out = (normalizeHash hash).flatMap (digits 3) := by
  obtain ⟨hlen, hrange⟩ := normalizeHash_spec h
  generalize hn : normalizeHash hash = vs at hlen hrange
  -- after `m` rounds the head of the buffer holds the first `m` trytes
  have hrounds : ∀ m ≤ 81, (List.range m).foldl (fun out c => out.take (c * 3) ++
      (longToTrits (Int64.ofInt (vs.getD c 0)) (out.drop (c * 3))).1) out =
      blit out 0 ((vs.take m).flatMap (digits 3)) := by
    intro m hm
    induction m with
    | zero => simp
    | succ m ih =>
      have hwritten : ((vs.take m).flatMap (digits 3)).length = m * 3 := by
        rw [length_flatMap_digits, List.length_take]
        omega
      have hbuf : (blit out 0 ((vs.take m).flatMap (digits 3))).length = 243 := by
        rw [length_blit (by omega), hl]
      have hget : vs[m]? = some (vs.getD m 0) := getElem?_eq_some_getD (by omega)
      have hv : InTryte (vs.getD m 0) := hrange _ (List.mem_of_getElem? hget)
      have hfits : 2 * |(Int64.ofInt (vs.getD m 0)).toInt| < 3 ^ 3 := by
        rw [toInt_of_inTryte hv]
        exact two_mul_abs_lt_of_inTryte hv
      have hplace : 3 ≤ ((blit out 0 ((vs.take m).flatMap (digits 3))).drop (m * 3)).length := by
        rw [List.length_drop]
        omega
      have htryte := longToTrits_tryte hfits hplace
      have hwrite := blit_blit out ((vs.take m).flatMap (digits 3)) (digits 3 (vs.getD m 0)) 0
        (by rw [length_digits]; omega)
      rw [List.range_succ, List.foldl_append, ih (by omega), List.foldl_cons, List.foldl_nil, htryte,
        toInt_of_inTryte hv, take_append_blit_drop, List.take_add_one, hget, List.flatMap_append,
        Option.toList_some, List.flatMap_singleton, ← hwrite, hwritten, Nat.zero_add]
  have hall := hrounds 81 le_rfl
  rw [normalizeHashToTrits, hn, hall, ← hlen, List.take_length, blit_full]
  rw [length_flatMap_digits, hlen, hl]

theorem block_three {l : List ℤ} {i : ℕ} (h : 3 * (i + 1) ≤ l.length) :
    block 3 l i = [l.getD (i * 3) 0, l.getD (i * 3 + 1) 0, l.getD (i * 3 + 2) 0] := by
  apply List.ext_getElem?
  intro k
  rcases Nat.lt_or_ge k 3 with hk | hk
  · rw [block, List.getElem?_take_of_lt hk, List.getElem?_drop, getElem?_eq_some_getD (by omega)]
    rcases (by omega : k = 0 ∨ k = 1 ∨ k = 2) with rfl | rfl | rfl <;>
      simp [Nat.mul_comm 3 i]
  · rw [block, List.getElem?_take_eq_none hk, List.getElem?_eq_none hk]

theorem hashTryteVal_eq {l : List ℤ} {i : ℕ} (h : 3 * (i + 1) ≤ l.length) :
    hashTryteVal l i = value (block 3 l i) := by
  rw [block_three h, hashTryteVal]
  simp only [value_cons, value_nil]
  ring

/-- The blocks of a list written three trits a number. -/
theorem block_flatMap_digits {vs : List ℤ} {i : ℕ} (h : i < vs.length) :
    block 3 (vs.flatMap (digits 3)) i = digits 3 (vs.getD i 0) := by
  induction vs generalizing i with
  | nil => simp at h
  | cons v vs ih =>
    rw [List.flatMap_cons]
    cases i with
    | zero =>
      rw [block, Nat.mul_zero, List.drop_zero, List.take_left' (length_digits 3 v)]
      rfl
    | succ i =>
      rw [Nat.add_comm i 1, ← block_drop, Nat.mul_one, List.drop_left' (length_digits 3 v),
        ih (by simpa using h), Nat.add_comm 1 i, List.getD_cons_succ]

/-- **The trytes read off the trits are the normalized ones.** -/
theorem hashTryteVal_normalized {hash out : List ℤ} (h : Trits hash) (hl : out.length = 243)
    {i : ℕ} (hi : i < 81) :
    hashTryteVal (normalizeHashToTrits hash out) i = (normalizeHash hash).getD i 0 ∧
      InTryte ((normalizeHash hash).getD i 0) := by
  obtain ⟨hlen, hrange⟩ := normalizeHash_spec h
  have hv := hrange _ (List.mem_of_getElem? (getElem?_eq_some_getD (show i < _ by omega)))
  rw [normalizeHashToTrits_eq h hl,
    hashTryteVal_eq (by rw [length_flatMap_digits, hlen]; omega),
    block_flatMap_digits (by omega), value_digits (two_mul_abs_lt_of_inTryte hv)]
  exact ⟨rfl, hv⟩

end Entangled
