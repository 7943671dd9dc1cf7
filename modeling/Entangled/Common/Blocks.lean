import Entangled.Common.Packing
/-!
# Lists of blocks

A buffer that is worked on block by block, in place: `block` is the `i`-th block of
width `w`, `mapBlocks` a loop that replaces each of the first `m` blocks by what a
function makes of it. Two buffers of whole blocks are equal when their blocks are.
-/

namespace Entangled

variable {α : Type} {w m i k : ℕ} {l l' : List α}

/-- The `i`-th block of width `w`. -/
def block (w : ℕ) (l : List α) (i : ℕ) : List α := (l.drop (w * i)).take w

theorem length_block (h : w * (i + 1) ≤ l.length) : (block w l i).length = w := by
  rw [Nat.mul_add, Nat.mul_one] at h
  rw [block, List.length_take, List.length_drop]
  omega

/-- A block of a stretch of whole blocks. -/
theorem block_take_drop {n : ℕ} (h : i < n) :
    block w ((l.drop (w * k)).take (w * n)) i = block w l (k + i) := by
  have hn := Nat.mul_le_mul_left w (show i + 1 ≤ n by omega)
  rw [Nat.mul_add, Nat.mul_one] at hn
  rw [block, block, List.drop_take, List.take_take, List.drop_drop, Nat.mul_add]
  congr 1
  omega

theorem block_drop : block w (l.drop (w * k)) i = block w l (k + i) := by
  rw [block, block, List.drop_drop, Nat.mul_add]

/-- Buffers with the same blocks are the same. -/
theorem eq_of_block_eq (hl : l.length = w * m) (hl' : l'.length = w * m)
    (h : ∀ i < m, block w l i = block w l' i) : l = l' := by
  induction m generalizing l l' with
  | zero =>
    rw [List.length_eq_zero_iff.mp hl, List.length_eq_zero_iff.mp hl']
  | succ m ih =>
    rw [Nat.mul_add, Nat.mul_one] at hl hl'
    have hhead : l.take w = l'.take w := by
      have h0 := h 0 (Nat.succ_pos m)
      rwa [block, block, Nat.mul_zero, List.drop_zero, List.drop_zero] at h0
    have htail : l.drop w = l'.drop w := by
      refine ih (by rw [List.length_drop]; omega) (by rw [List.length_drop]; omega) ?_
      intro i hi
      have hs := h (1 + i) (by omega)
      rwa [← block_drop, ← block_drop, Nat.mul_one] at hs
    rw [← List.take_append_drop w l, hhead, htail, List.take_append_drop]

/-- Blocks laid end to end. -/
theorem length_flatten_range {f : ℕ → List α} (hf : ∀ i < m, (f i).length = w) :
    ((List.range m).map f).flatten.length = w * m := by
  induction m with
  | zero => rfl
  | succ m ih =>
    rw [List.range_succ, List.map_append, List.flatten_append, List.length_append,
      ih fun i hi => hf i (Nat.lt_succ_of_lt hi), List.map_singleton, List.flatten_singleton,
      hf m (Nat.lt_succ_self m), Nat.mul_succ]

theorem block_flatten_range {f : ℕ → List α} (hf : ∀ i < m, (f i).length = w) (hi : i < m) :
    block w ((List.range m).map f).flatten i = f i := by
  induction m with
  | zero => exact absurd hi (Nat.not_lt_zero i)
  | succ m ih =>
    have hlen := length_flatten_range fun i hi => hf i (Nat.lt_succ_of_lt hi)
    rw [List.range_succ, List.map_append, List.flatten_append, List.map_singleton,
      List.flatten_singleton]
    rcases Nat.lt_or_ge i m with hlt | hge
    · have hle := Nat.mul_le_mul_left w (show i + 1 ≤ m from hlt)
      rw [Nat.mul_succ] at hle
      rw [← ih (fun i hi => hf i (Nat.lt_succ_of_lt hi)) hlt, block, block,
        List.drop_append_of_le_length (by omega), List.take_append_of_le_length (by
          rw [List.length_drop]
          omega)]
    · obtain rfl : i = m := by omega
      rw [block, List.drop_left' hlen, List.take_of_length_le (Nat.le_of_eq (hf i hi))]

section FlatMap

variable {β : Type} {g : β → List α}

/-- One block for each element. -/
theorem length_flatMap_blocks (hg : ∀ b, (g b).length = w) (bs : List β) :
    (bs.flatMap g).length = w * bs.length := by
  induction bs with
  | nil => rfl
  | cons b bs ih =>
    rw [List.flatMap_cons, List.length_append, hg, ih, List.length_cons, Nat.mul_succ, Nat.add_comm]

theorem drop_flatMap_blocks (hg : ∀ b, (g b).length = w) (bs : List β) (k : ℕ) :
    (bs.flatMap g).drop (w * k) = (bs.drop k).flatMap g := by
  induction k generalizing bs with
  | zero => rfl
  | succ k ih =>
    rcases bs with _ | ⟨b, bs⟩
    · rw [List.flatMap_nil, List.drop_nil, List.drop_nil, List.flatMap_nil]
    · rw [List.flatMap_cons, List.drop_succ_cons, ← ih bs, Nat.mul_succ, Nat.add_comm,
        ← List.drop_drop, List.drop_left' (hg b)]

theorem block_flatMap (hg : ∀ b, (g b).length = w) {bs : List β} (hk : k < bs.length) :
    block w (bs.flatMap g) k = g bs[k] := by
  rw [block, drop_flatMap_blocks hg, List.drop_eq_getElem_cons hk, List.flatMap_cons,
    List.take_left' (hg _)]

end FlatMap

/-- Writing one block leaves the others alone. -/
theorem block_blit {b : List α} (hb : b.length = w) (hi : w * (i + 1) ≤ l.length) :
    block w (blit l (w * i) b) k = if k = i then b else block w l k := by
  rw [Nat.mul_add, Nat.mul_one] at hi
  split_ifs with h
  · subst h
    have ht : ((blit l (w * k) b).drop (w * k)).take b.length = b := take_drop_blit (by omega)
    rwa [hb] at ht
  · refine take_drop_blit_of_disjoint (by omega) ?_
    rcases Nat.lt_or_ge k i with hk | hk
    · have := Nat.mul_le_mul_left w (show k + 1 ≤ i by omega)
      rw [Nat.mul_add, Nat.mul_one] at this
      omega
    · have := Nat.mul_le_mul_left w (show i + 1 ≤ k by omega)
      rw [Nat.mul_add, Nat.mul_one] at this
      omega

/-- The first `m` blocks replaced one after the other. -/
def mapBlocks (w : ℕ) (f : ℕ → List α → List α) (m : ℕ) (l : List α) : List α :=
  (List.range m).foldl (fun l i => blit l (w * i) (f i (block w l i))) l

section MapBlocks

variable {f : ℕ → List α → List α}

theorem mapBlocks_succ (m : ℕ) (l : List α) :
    mapBlocks w f (m + 1) l =
      blit (mapBlocks w f m l) (w * m) (f m (block w (mapBlocks w f m l) m)) := by
  rw [mapBlocks, List.range_succ, List.foldl_append]
  rfl

variable (hf : ∀ i b, b.length = w → (f i b).length = w)

include hf

theorem length_mapBlocks (hm : w * m ≤ l.length) : (mapBlocks w f m l).length = l.length := by
  induction m with
  | zero => rfl
  | succ m ih =>
    have hm' := hm
    rw [Nat.mul_add, Nat.mul_one] at hm'
    have hl := ih (by omega)
    rw [mapBlocks_succ, length_blit, hl]
    rw [hf _ _ (length_block (by rw [hl]; exact hm)), hl]
    omega

/-- **What the loop leaves**: the blocks it came by replaced, the others untouched. -/
theorem block_mapBlocks (hm : w * m ≤ l.length) :
    block w (mapBlocks w f m l) k = if k < m then f k (block w l k) else block w l k := by
  induction m generalizing k with
  | zero => rfl
  | succ m ih =>
    have hm' := hm
    rw [Nat.mul_add, Nat.mul_one] at hm'
    have hl := length_mapBlocks hf (l := l) (m := m) (by omega)
    have hblock : block w (mapBlocks w f m l) m = block w l m := by
      rw [ih (by omega), if_neg (Nat.lt_irrefl m)]
    rw [mapBlocks_succ, hblock, block_blit (hf _ _ (length_block hm)) (by rw [hl]; exact hm)]
    rcases Nat.lt_trichotomy k m with hk | rfl | hk
    · rw [if_neg (by omega), ih (by omega), if_pos hk, if_pos (by omega)]
    · rw [if_pos rfl, if_pos (by omega)]
    · rw [if_neg (by omega), ih (by omega), if_neg (by omega), if_neg (by omega)]

omit hf in
/-- A property of elements that the function keeps is kept by the loop. -/
theorem forall_mem_mapBlocks {P : α → Prop} (hP : ∀ i b, (∀ a ∈ b, P a) → ∀ a ∈ f i b, P a)
    (hl : ∀ a ∈ l, P a) : ∀ a ∈ mapBlocks w f m l, P a := by
  induction m with
  | zero => exact hl
  | succ m ih =>
    intro a ha
    rw [mapBlocks_succ, blit, List.mem_append, List.mem_append] at ha
    rcases ha with (ha | ha) | ha
    · exact ih a (List.mem_of_mem_take ha)
    · exact hP _ _ (fun a ha => ih a (List.mem_of_mem_drop (List.mem_of_mem_take ha))) a ha
    · exact ih a (List.mem_of_mem_drop ha)

end MapBlocks

end Entangled
