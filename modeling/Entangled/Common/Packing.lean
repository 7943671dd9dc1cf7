import Mathlib.Data.List.Basic
/-!
# Packed arrays

A `Packing` puts `width` symbols into one cell; `pack` lays a list of symbols out
in cells, the last one filled up with `zero`. The lemmas say how the packed array
answers what programs do to it: reading a symbol, overwriting one, copying whole
cells over, and cutting out a stretch that starts on a cell. Above them stands
`blit`, a list written over a stretch of another.
-/

namespace Entangled

/-! ## Overwriting a stretch of a list -/

/-- `src` written over `dst` from position `i` on. -/
def blit {α : Type} (dst : List α) (i : ℕ) (src : List α) : List α :=
  dst.take i ++ src ++ dst.drop (i + src.length)

section Blit

variable {α : Type} {dst src : List α} {i k : ℕ}

theorem length_blit (h : i + src.length ≤ dst.length) : (blit dst i src).length = dst.length := by
  simp only [blit, List.length_append, List.length_take, List.length_drop]
  omega

@[simp] theorem blit_nil : blit dst i ([] : List α) = dst := by simp [blit]

theorem getElem?_blit (h : i + src.length ≤ dst.length) :
    (blit dst i src)[k]? = if i ≤ k ∧ k < i + src.length then src[k - i]? else dst[k]? := by
  have hlen : (dst.take i).length = i := by
    rw [List.length_take]
    omega
  simp only [blit, List.append_assoc]
  rcases Nat.lt_or_ge k i with hk | hk
  · rw [List.getElem?_append_left (by omega), List.getElem?_take_of_lt hk, if_neg (by omega)]
  rw [List.getElem?_append_right (by omega), hlen]
  rcases Nat.lt_or_ge k (i + src.length) with hk' | hk'
  · rw [List.getElem?_append_left (by omega), if_pos ⟨hk, hk'⟩]
  · rw [List.getElem?_append_right (by omega), List.getElem?_drop, if_neg (by omega)]
    congr 1
    omega

theorem blit_full (h : src.length = dst.length) : blit dst 0 src = src := by
  simp [blit, h]

/-- What was written is found again. -/
theorem take_drop_blit (h : i + src.length ≤ dst.length) :
    ((blit dst i src).drop i).take src.length = src := by
  have hlen : (dst.take i).length = i := by
    rw [List.length_take]
    omega
  rw [blit, List.append_assoc, List.drop_left' hlen, List.take_left]

/-- What stands clear of the stretch is untouched. -/
theorem take_drop_blit_of_disjoint {j n : ℕ} (h : i + src.length ≤ dst.length)
    (hd : j + n ≤ i ∨ i + src.length ≤ j) :
    ((blit dst i src).drop j).take n = (dst.drop j).take n := by
  apply List.ext_getElem?
  intro k
  rcases Nat.lt_or_ge k n with hk | hk
  · rw [List.getElem?_take_of_lt hk, List.getElem?_take_of_lt hk, List.getElem?_drop,
      List.getElem?_drop, getElem?_blit h, if_neg (by omega)]
  · rw [List.getElem?_take_eq_none hk, List.getElem?_take_eq_none hk]

/-- Writing back what stands there changes nothing. -/
theorem blit_self {n : ℕ} (h : i + n ≤ dst.length) : blit dst i ((dst.drop i).take n) = dst := by
  have hl : ((dst.drop i).take n).length = n := by
    rw [List.length_take, List.length_drop]
    omega
  apply List.ext_getElem?
  intro k
  rw [getElem?_blit (by omega), hl]
  split
  · rw [List.getElem?_take_of_lt (by omega), List.getElem?_drop]
    congr 1
    omega
  · rfl

/-- Two stretches written one behind the other are one stretch. -/
theorem blit_blit (dst src src' : List α) (i : ℕ) (h : i + src.length + src'.length ≤ dst.length) :
    blit (blit dst i src) (i + src.length) src' = blit dst i (src ++ src') := by
  apply List.ext_getElem?
  intro k
  rw [getElem?_blit (by rw [length_blit (by omega)]; exact h), getElem?_blit (by omega),
    getElem?_blit (by rw [List.length_append]; omega), List.length_append]
  rcases Nat.lt_or_ge k i with hk | hk
  · rw [if_neg (by omega), if_neg (by omega), if_neg (by omega)]
  rcases Nat.lt_or_ge k (i + src.length) with hk₁ | hk₁
  · rw [if_neg (by omega), if_pos (by omega), if_pos (by omega),
      List.getElem?_append_left (by omega)]
  rcases Nat.lt_or_ge k (i + src.length + src'.length) with hk₂ | hk₂
  · rw [if_pos (by omega), if_pos (by omega), List.getElem?_append_right (by omega)]
    congr 1
    omega
  · rw [if_neg (by omega), if_neg (by omega), if_neg (by omega)]

theorem take_append_blit_drop : dst.take i ++ blit (dst.drop i) 0 src = blit dst i src := by
  simp [blit]

/-- Writing over the head of a stretch leaves its tail. -/
theorem blit_over (src' : List α) (hl : src'.length ≤ src.length)
    (h : i + src.length ≤ dst.length) :
    blit (blit dst i src) i src' = blit dst i (src' ++ src.drop src'.length) := by
  have hlen : (src' ++ src.drop src'.length).length = src.length := by
    rw [List.length_append, List.length_drop]
    omega
  apply List.ext_getElem?
  intro k
  rw [getElem?_blit (by rw [length_blit h]; omega), getElem?_blit h, getElem?_blit (by omega), hlen]
  split_ifs with h₁ h₂ h₂
  · rw [List.getElem?_append_left (by omega)]
  · omega
  · rw [List.getElem?_append_right (by omega), List.getElem?_drop]
    congr 1
    omega
  · rfl

theorem blit_singleton {a : α} (h : i < dst.length) : blit dst i [a] = dst.set i a := by
  apply List.ext_getElem?
  intro k
  rw [getElem?_blit (by rw [List.length_singleton]; omega), List.getElem?_set]
  simp only [List.length_singleton]
  rcases Nat.lt_trichotomy k i with hk | rfl | hk
  · rw [if_neg (by omega), if_neg (by omega)]
  · rw [if_pos (by omega), if_pos rfl, if_pos h]
    simp
  · rw [if_neg (by omega), if_neg (by omega)]

/-- Writing one element behind a stretch makes it longer. -/
theorem set_blit_length {a : α} {n : ℕ} (hl : src.length = n) (h : n < dst.length) :
    (blit dst 0 src).set n a = blit dst 0 (src ++ [a]) := by
  have hb := blit_blit dst src [a] 0 (by rw [List.length_singleton]; omega)
  rw [← hb, Nat.zero_add, hl, blit_singleton (by rw [length_blit (by omega)]; exact h)]

/-- A loop that sets one element after the other writes a stretch. -/
theorem foldl_set_eq_blit (f : ℕ → α) {n : ℕ} (h : n ≤ dst.length) :
    (List.range n).foldl (fun l j => l.set j (f j)) dst = blit dst 0 ((List.range n).map f) := by
  induction n with
  | zero => simp
  | succ n ih =>
    rw [List.range_succ, List.foldl_append, ih (by omega), List.map_append]
    exact set_blit_length (by simp) h

/-- The same loop, where each element comes out of a state the loop carries along:
the states form a sequence, and the loop ends in its last one. -/
theorem foldl_set_state {β : Type} (g : β → ℕ → β) (out : β → α) (b : β) (dst : List α) :
    ∃ states : ℕ → β, states 0 = b ∧ (∀ j, states (j + 1) = g (states j) j) ∧
      ∀ n ≤ dst.length, (List.range n).foldl (fun s j => (g s.1 j, s.2.set j (out (g s.1 j))))
        (b, dst) = (states n, blit dst 0 ((List.range n).map fun j => out (states (j + 1)))) := by
  refine ⟨fun n => n.rec b fun j s => g s j, rfl, fun j => rfl, ?_⟩
  intro n hn
  induction n with
  | zero =>
    simp only [List.range_zero, List.foldl_nil, List.map_nil, blit_nil]
    rfl
  | succ n ih =>
    rw [← foldl_set_eq_blit _ hn, List.range_succ, List.foldl_append, List.foldl_append,
      ih (by omega), foldl_set_eq_blit _ (by omega)]
    rfl

theorem set_blit {a : α} (hk : k < src.length) :
    (blit dst 0 src).set k a = blit dst 0 (src.set k a) := by
  rw [blit, blit, List.length_set, List.take_zero, List.nil_append, List.nil_append,
    List.set_append_left _ _ hk]

/-- A list that agrees with `src` as far as that goes, and with `dst` behind it. -/
theorem eq_blit_of_getElem? {l : List α} (h : src.length ≤ dst.length)
    (hlow : ∀ k < src.length, l[k]? = src[k]?) (hhigh : ∀ k, src.length ≤ k → l[k]? = dst[k]?) :
    l = blit dst 0 src := by
  apply List.ext_getElem?
  intro k
  rw [getElem?_blit (by omega)]
  rcases Nat.lt_or_ge k src.length with hk | hk
  · rw [if_pos (by omega), hlow k hk, Nat.sub_zero]
  · rw [if_neg (by omega), hhigh k hk]

end Blit

/-! ## Packings -/

/-- A way to put up to `width` symbols into a cell. A cell that holds fewer is one
filled up with `zero`. Only lists of `Ok` symbols need to survive. -/
structure Packing (α β : Type) where
  width : ℕ
  zero : α
  Ok : α → Prop
  enc : List α → β
  dec : β → List α
  width_pos : 0 < width
  ok_zero : Ok zero
  dec_enc : ∀ c, c.length ≤ width → (∀ a ∈ c, Ok a) →
    dec (enc c) = c ++ List.replicate (width - c.length) zero
  enc_pad : ∀ c, c.length ≤ width → (∀ a ∈ c, Ok a) →
    enc (c ++ List.replicate (width - c.length) zero) = enc c

namespace Packing

variable {α β : Type} (P : Packing α β) {l m : List α} {i j k n : ℕ}

/-- The cells `n` symbols take. -/
def cells (n : ℕ) : ℕ := (n + P.width - 1) / P.width

/-- The symbols of the `j`-th cell. -/
def chunk (l : List α) (j : ℕ) : List α := (l.drop (P.width * j)).take P.width

/-- A list laid out in cells. -/
def pack (l : List α) : List β := (List.range (P.cells l.length)).map fun j => P.enc (P.chunk l j)

theorem lt_cells : j < P.cells n ↔ P.width * j < n := by
  have hw := P.width_pos
  rw [cells, Nat.lt_iff_add_one_le, Nat.le_div_iff_mul_le hw, Nat.add_mul, Nat.mul_comm j]
  omega

theorem div_lt_cells (h : i < n) : i / P.width < P.cells n := by
  rw [lt_cells]
  exact Nat.lt_of_le_of_lt (Nat.mul_div_le i P.width) h

@[simp] theorem length_pack : (P.pack l).length = P.cells l.length := by simp [pack]

theorem getElem?_pack :
    (P.pack l)[j]? = if P.width * j < l.length then some (P.enc (P.chunk l j)) else none := by
  rw [pack, List.getElem?_map]
  rcases Nat.lt_or_ge j (P.cells l.length) with h | h
  · rw [List.getElem?_range h, if_pos (P.lt_cells.mp h)]
    rfl
  · rw [List.getElem?_eq_none (by simpa using h), if_neg fun h' => ?_]
    · rfl
    · have := P.lt_cells.mpr h'
      omega

theorem getD_pack (d : β) (h : P.width * j < l.length) :
    (P.pack l).getD j d = P.enc (P.chunk l j) := by
  rw [List.getD_eq_getElem?_getD, getElem?_pack, if_pos h]
  rfl

theorem length_chunk : (P.chunk l j).length = min P.width (l.length - P.width * j) := by
  rw [chunk, List.length_take, List.length_drop]

theorem length_chunk_le : (P.chunk l j).length ≤ P.width := by
  rw [length_chunk]
  omega

theorem ok_chunk (h : ∀ a ∈ l, P.Ok a) : ∀ a ∈ P.chunk l j, P.Ok a :=
  fun a ha => h a (List.mem_of_mem_drop (List.mem_of_mem_take ha))

theorem getElem?_chunk (h : k < P.width) : (P.chunk l j)[k]? = l[P.width * j + k]? := by
  rw [chunk, List.getElem?_take_of_lt h, List.getElem?_drop]

/-- What a cell of a packed list decodes to. -/
theorem dec_chunk (h : ∀ a ∈ l, P.Ok a) :
    P.dec (P.enc (P.chunk l j)) =
      P.chunk l j ++ List.replicate (P.width - (P.chunk l j).length) P.zero :=
  P.dec_enc _ P.length_chunk_le (P.ok_chunk h)

theorem getD_dec_chunk (h : ∀ a ∈ l, P.Ok a) (hk : k < P.width) :
    (P.dec (P.enc (P.chunk l j))).getD k P.zero = l.getD (P.width * j + k) P.zero := by
  rw [P.dec_chunk h, List.getD_eq_getElem?_getD, List.getD_eq_getElem?_getD]
  rcases Nat.lt_or_ge k (P.chunk l j).length with hc | hc
  · rw [List.getElem?_append_left hc, P.getElem?_chunk hk]
  · rw [List.getElem?_append_right hc, List.getElem?_replicate]
    rw [length_chunk] at hc
    rw [List.getElem?_eq_none (l := l) (by omega)]
    split <;> rfl

/-- **Reading a symbol.** -/
theorem get_pack (h : ∀ a ∈ l, P.Ok a) (d : β) (hi : i < l.length) :
    (P.dec ((P.pack l).getD (i / P.width) d)).getD (i % P.width) P.zero = l.getD i P.zero := by
  have hw := P.width_pos
  have hm := Nat.div_add_mod i P.width
  rw [P.getD_pack d (by omega), P.getD_dec_chunk h (Nat.mod_lt i hw), hm]

theorem chunk_set {a : α} :
    P.chunk (l.set i a) j =
      if j = i / P.width then (P.chunk l j).set (i % P.width) a else P.chunk l j := by
  have hw := P.width_pos
  have hm := Nat.div_add_mod i P.width
  have hlt := Nat.mod_lt i hw
  rw [chunk, List.drop_set]
  split_ifs with h₁ h₂ h₂
  · rw [h₂] at h₁
    omega
  · rfl
  · rw [List.take_set, chunk, h₂]
    congr 1
    omega
  · rw [List.take_set, List.set_eq_of_length_le]
    · rfl
    · -- another cell: the position lies behind this one
      have hle : j ≤ i / P.width := by
        rw [Nat.le_div_iff_mul_le hw, Nat.mul_comm]
        omega
      have hnext : P.width * (j + 1) ≤ P.width * (i / P.width) :=
        Nat.mul_le_mul_left _ (by omega)
      rw [Nat.mul_add] at hnext
      have := P.length_chunk_le (l := l) (j := j)
      rw [chunk] at this
      omega

/-- **Overwriting a symbol.** -/
theorem set_pack (h : ∀ a ∈ l, P.Ok a) {a : α} (ha : P.Ok a) (d : β) (hi : i < l.length) :
    (P.pack l).set (i / P.width)
        (P.enc ((P.dec ((P.pack l).getD (i / P.width) d)).set (i % P.width) a)) =
      P.pack (l.set i a) := by
  have hw := P.width_pos
  have hm := Nat.div_add_mod i P.width
  have hset : P.enc ((P.dec ((P.pack l).getD (i / P.width) d)).set (i % P.width) a) =
      P.enc ((P.chunk l (i / P.width)).set (i % P.width) a) := by
    have hlen : i % P.width < (P.chunk l (i / P.width)).length := by
      rw [length_chunk]
      have := Nat.mod_lt i hw
      omega
    rw [P.getD_pack d (by omega), P.dec_chunk h, List.set_append_left _ _ hlen]
    have hpad := P.enc_pad ((P.chunk l (i / P.width)).set (i % P.width) a)
      (by rw [List.length_set]; exact P.length_chunk_le) fun b hb => by
        rcases List.mem_or_eq_of_mem_set hb with hb | rfl
        · exact P.ok_chunk h b hb
        · exact ha
    rwa [List.length_set] at hpad
  apply List.ext_getElem?
  intro k
  rw [hset, List.getElem?_set, getElem?_pack, getElem?_pack, P.chunk_set, List.length_set,
    length_pack]
  by_cases hk : i / P.width = k
  · subst hk
    rw [if_pos rfl, if_pos (P.div_lt_cells hi), if_pos (by omega), if_pos rfl]
  · rw [if_neg hk, if_neg (Ne.symm hk)]

/-! ## Copying and cutting out -/

theorem le_cells (h : P.width * k ≤ n) : k ≤ P.cells n := by
  have hw := P.width_pos
  rw [cells, Nat.le_div_iff_mul_le hw, Nat.mul_comm]
  omega

@[simp] theorem cells_mul (k : ℕ) : P.cells (P.width * k) = k := by
  have hw := P.width_pos
  rw [cells, Nat.add_sub_assoc hw, Nat.mul_add_div hw, Nat.div_eq_of_lt (by omega), Nat.add_zero]

theorem le_mul_cells (n : ℕ) : n ≤ P.width * P.cells n := by
  have h : ¬ P.cells n < P.cells n := Nat.lt_irrefl _
  rw [lt_cells] at h
  omega

/-- The last cell is as if it were filled up with zeros. -/
theorem pack_fill (h : ∀ a ∈ l, P.Ok a) :
    P.pack (l ++ List.replicate (P.width * P.cells l.length - l.length) P.zero) = P.pack l := by
  have hle := P.le_mul_cells l.length
  have hlen : (l ++ List.replicate (P.width * P.cells l.length - l.length) P.zero).length =
      P.width * P.cells l.length := by
    rw [List.length_append, List.length_replicate]
    omega
  rw [pack, pack, hlen, cells_mul]
  refine List.map_congr_left fun j hj => ?_
  have hj' := P.lt_cells.mp (List.mem_range.mp hj)
  have hnext := Nat.mul_le_mul_left P.width (List.mem_range.mp hj : j + 1 ≤ P.cells l.length)
  rw [Nat.mul_succ] at hnext
  have hchunk : P.chunk (l ++ List.replicate (P.width * P.cells l.length - l.length) P.zero) j =
      P.chunk l j ++ List.replicate (P.width - (P.chunk l j).length) P.zero := by
    rw [chunk, List.drop_append_of_le_length (Nat.le_of_lt hj'), List.take_append, List.take_replicate,
      ← chunk, length_chunk, List.length_drop]
    congr 2
    omega
  rw [hchunk, P.enc_pad _ P.length_chunk_le (P.ok_chunk h)]

theorem chunk_blit {s : ℕ} (hs : P.width * s + P.width * k ≤ l.length)
    (hk : P.width * k ≤ m.length) :
    P.chunk (blit l (P.width * s) (m.take (P.width * k))) j =
      if s ≤ j ∧ j < s + k then P.chunk m (j - s) else P.chunk l j := by
  have hlen : (m.take (P.width * k)).length = P.width * k := by
    rw [List.length_take]
    omega
  apply List.ext_getElem?
  intro t
  rcases Nat.lt_or_ge t P.width with ht | ht
  · rw [P.getElem?_chunk ht, getElem?_blit (by omega), hlen]
    split_ifs with h₁ h₂ h₂
    · have hsub : P.width * j + t - P.width * s = P.width * (j - s) + t := by
        rw [Nat.mul_sub]
        have := Nat.mul_le_mul_left P.width h₂.1
        omega
      rw [P.getElem?_chunk ht, hsub, List.getElem?_take_of_lt]
      have := Nat.mul_le_mul_left P.width (show j + 1 ≤ s + k by omega)
      rw [Nat.mul_add, Nat.mul_add, Nat.mul_one] at this
      omega
    · -- a position of the stretch lies in one of its cells
      refine absurd ⟨?_, ?_⟩ h₂
      · by_contra hj
        have := Nat.mul_le_mul_left P.width (show j + 1 ≤ s by omega)
        rw [Nat.mul_add, Nat.mul_one] at this
        omega
      · by_contra hj
        have := Nat.mul_le_mul_left P.width (show s + k ≤ j by omega)
        rw [Nat.mul_add] at this
        omega
    · refine absurd ⟨?_, ?_⟩ h₁
      · have := Nat.mul_le_mul_left P.width h₂.1
        omega
      · have := Nat.mul_le_mul_left P.width (show j + 1 ≤ s + k by omega)
        rw [Nat.mul_add, Nat.mul_add, Nat.mul_one] at this
        omega
    · rw [P.getElem?_chunk ht]
  · rw [List.getElem?_eq_none (Nat.le_trans P.length_chunk_le ht)]
    split <;> rw [List.getElem?_eq_none (Nat.le_trans P.length_chunk_le ht)]

/-- **Copying whole cells.** -/
theorem blit_pack {s : ℕ} (hs : P.width * s + P.width * k ≤ l.length)
    (hk : P.width * k ≤ m.length) :
    blit (P.pack l) s ((P.pack m).take k) =
      P.pack (blit l (P.width * s) (m.take (P.width * k))) := by
  have hkc := P.le_cells hk
  have hsc : s + k ≤ P.cells l.length := P.le_cells (by rw [Nat.mul_add]; exact hs)
  have hlen : ((P.pack m).take k).length = k := by
    rw [List.length_take, length_pack]
    omega
  have hlen' : (m.take (P.width * k)).length = P.width * k := by
    rw [List.length_take]
    omega
  apply List.ext_getElem?
  intro j
  rw [getElem?_blit (by rw [hlen, length_pack]; exact hsc), hlen, getElem?_pack, getElem?_pack,
    P.chunk_blit hs hk, length_blit (by omega)]
  split_ifs with h₁ h₂ h₂
  · rw [List.getElem?_take_of_lt (by omega), getElem?_pack, if_pos]
    have := Nat.mul_le_mul_left P.width (show j - s + 1 ≤ k by omega)
    rw [Nat.mul_add, Nat.mul_one] at this
    have := P.width_pos
    omega
  · refine absurd ?_ h₂
    have := P.width_pos
    have := Nat.mul_le_mul_left P.width (show j + 1 ≤ s + k by omega)
    rw [Nat.mul_add, Nat.mul_add, Nat.mul_one] at this
    omega
  · rfl
  · rfl

/-- Two cells in a row hold a stretch of twice the width. -/
theorem chunk_append_chunk :
    P.chunk l j ++ P.chunk l (j + 1) = (l.drop (P.width * j)).take (P.width + P.width) := by
  rw [List.take_add, List.drop_drop, chunk, chunk, Nat.mul_add, Nat.mul_one]

/-- **A cell of a stretch that was cut out**, from the two cells it lies across. -/
theorem chunk_take_drop {s : ℕ} :
    P.chunk ((l.drop s).take n) j =
      ((P.chunk l (s / P.width + j) ++ P.chunk l (s / P.width + j + 1)).drop (s % P.width)).take
        (min P.width (n - P.width * j)) := by
  have hm := Nat.div_add_mod s P.width
  have hlt := Nat.mod_lt s P.width_pos
  rw [chunk_append_chunk, chunk, List.drop_take, List.take_take, List.drop_take, List.take_take,
    List.drop_drop, List.drop_drop, Nat.mul_add]
  congr 1
  · omega
  · congr 1
    omega

/-- A stretch that starts on a cell is cut out cell by cell. -/
theorem chunk_take_drop_aligned {s : ℕ} :
    P.chunk ((l.drop (P.width * s)).take n) j = (P.chunk l (s + j)).take (n - P.width * j) := by
  rw [chunk, chunk, List.drop_take, List.take_take, List.take_take, List.drop_drop, Nat.mul_add,
    Nat.min_comm]

/-- The cells behind the first ones are those of what is behind their symbols. -/
theorem pack_drop (l : List α) (s : ℕ) : (P.pack l).drop s = P.pack (l.drop (P.width * s)) := by
  apply List.ext_getElem?
  intro j
  have hchunk : P.chunk (l.drop (P.width * s)) j = P.chunk l (s + j) := by
    rw [chunk, chunk, List.drop_drop, Nat.mul_add]
  have hiff : P.width * (s + j) < l.length ↔ P.width * j < l.length - P.width * s := by
    rw [Nat.mul_add]
    omega
  simp only [List.getElem?_drop, getElem?_pack, List.length_drop, hchunk, hiff]

theorem cells_eq : P.cells n = n / P.width + if n % P.width = 0 then 0 else 1 := by
  have hw := P.width_pos
  have hm := Nat.div_add_mod n P.width
  have hlt := Nat.mod_lt n hw
  rw [cells]
  split_ifs with h
  · have he : n + P.width - 1 = P.width * (n / P.width) + (P.width - 1) := by omega
    have hz : (P.width - 1) / P.width = 0 := Nat.div_eq_of_lt (by omega)
    rw [he, Nat.mul_add_div hw, hz]
  · have he : n + P.width - 1 = P.width * (n / P.width + 1) + (n % P.width - 1) := by
      rw [Nat.mul_add]
      omega
    have hz : (n % P.width - 1) / P.width = 0 := Nat.div_eq_of_lt (by omega)
    rw [he, Nat.mul_add_div hw, hz, Nat.add_zero]

/-- **Cutting out a stretch that starts on a cell**: whole cells, and the head of one more. -/
theorem pack_take_drop_aligned {s : ℕ} (h : P.width * s + n ≤ l.length) :
    P.pack ((l.drop (P.width * s)).take n) = ((P.pack l).drop s).take (n / P.width) ++
      if n % P.width = 0 then []
      else [P.enc ((P.chunk l (s + n / P.width)).take (n % P.width))] := by
  have hm := Nat.div_add_mod n P.width
  have hlen : ((l.drop (P.width * s)).take n).length = n := by
    rw [List.length_take, List.length_drop]
    omega
  have hlow : (List.range (n / P.width)).map
      (fun j => P.enc (P.chunk ((l.drop (P.width * s)).take n) j)) =
      ((P.pack l).drop s).take (n / P.width) := by
    apply List.ext_getElem?
    intro k
    rcases Nat.lt_or_ge k (n / P.width) with hk | hk
    · have hn := Nat.mul_le_mul_left P.width (show k + 1 ≤ n / P.width by omega)
      rw [Nat.mul_add, Nat.mul_one] at hn
      have hw := P.width_pos
      rw [List.getElem?_map, List.getElem?_range hk, List.getElem?_take_of_lt hk,
        List.getElem?_drop, getElem?_pack, if_pos (by rw [Nat.mul_add]; omega), Option.map_some,
        chunk_take_drop_aligned, List.take_of_length_le]
      have := P.length_chunk_le (l := l) (j := s + k)
      omega
    · rw [List.getElem?_eq_none (by simpa using hk), List.getElem?_take_eq_none hk]
  rw [pack, hlen, P.cells_eq]
  split_ifs with hz
  · rw [Nat.add_zero, hlow, List.append_nil]
  · rw [List.range_succ, List.map_append, hlow, List.map_singleton, chunk_take_drop_aligned]
    congr 4
    omega

/-- **A packed list cell by cell, from windows that may hold more.** Every cell but a partial
last one takes the whole width of its window; that one is written again with what belongs to
it. -/
theorem pack_eq_of_windows (f : ℕ → List α)
    (hf : ∀ j < P.cells m.length,
      (f j).take (min P.width (m.length - P.width * j)) = P.chunk m j) :
    P.pack m =
      let cs := (List.range (P.cells m.length)).map fun j => P.enc ((f j).take P.width)
      if m.length % P.width ≠ 0 then
        cs.set (P.cells m.length - 1)
          (P.enc ((f (P.cells m.length - 1)).take (m.length % P.width)))
      else cs := by
  have hm := Nat.div_add_mod m.length P.width
  have hlt := Nat.mod_lt m.length P.width_pos
  have hcells := P.cells_eq (n := m.length)
  have hfull : ∀ j < m.length / P.width, (f j).take P.width = P.chunk m j := by
    intro j hj
    have hn := Nat.mul_le_mul_left P.width (show j + 1 ≤ m.length / P.width by omega)
    rw [Nat.mul_add, Nat.mul_one] at hn
    rw [← hf j (by rw [hcells]; omega), Nat.min_eq_left (by omega)]
  have hlow : (List.range (m.length / P.width)).map (fun j => P.enc ((f j).take P.width)) =
      (List.range (m.length / P.width)).map fun j => P.enc (P.chunk m j) := by
    refine List.map_congr_left fun j hj => ?_
    rw [hfull j (List.mem_range.mp hj)]
  simp only []
  split_ifs with hz
  · rw [if_neg hz] at hcells
    have hlast := hf (m.length / P.width) (by omega)
    rw [Nat.min_eq_right (by omega)] at hlast
    rw [pack, hcells, List.range_succ, List.map_append, List.map_append, hlow, Nat.add_sub_cancel,
      List.set_append_right _ _ (by simp)]
    simp only [List.length_map, List.length_range, Nat.sub_self, List.map_cons, List.map_nil,
      List.set_cons_zero]
    rw [← hlast, show m.length - P.width * (m.length / P.width) = m.length % P.width by omega]
  · rw [if_pos (by omega), Nat.add_zero] at hcells
    rw [pack, hcells, hlow]

theorem flatMap_chunk_range (n : ℕ) :
    (List.range n).flatMap (P.chunk l) = l.take (P.width * n) := by
  induction n with
  | zero => simp
  | succ n ih =>
    rw [List.range_succ, List.flatMap_append, ih, List.flatMap_singleton, Nat.mul_add, Nat.mul_one,
      List.take_add, chunk]

/-- The cells laid end to end are the list. -/
theorem flatMap_chunk : (List.range (P.cells l.length)).flatMap (P.chunk l) = l := by
  rw [flatMap_chunk_range]
  exact List.take_of_length_le (P.le_mul_cells l.length)

end Packing

end Entangled
