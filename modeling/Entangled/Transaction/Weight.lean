import Entangled.Transaction.Validator
import Mathlib.Data.List.GetD
/-!
# The weight of a hash

`transaction_weight_magnitude` counts the zero trits a hash ends in, whole bytes first and then
inside the last byte that is not null. It counts the trits of that byte that lie behind the hash
with the others, so with four or five trits to a byte it comes out too high. It stops short of
the first byte, whose trits it never looks at, and for a hash of nulls its counter wraps and it
goes on behind the hash.

What decides is the last trit that is not zero: `LastNonzero`.
-/

namespace Entangled

/-! ## The last trit that is not zero -/

namespace Ternary

/-- The zero trits at the end. -/
def trailingZeros (ts : List ℤ) : ℕ := (ts.reverse.takeWhile (· = 0)).length

/-- Trit `k` is not zero, and those behind it are. -/
structure LastNonzero (ts : List ℤ) (k : ℕ) : Prop where
  ne_zero : ts.getD k 0 ≠ 0
  behind : ∀ i, k < i → ts.getD i 0 = 0

variable {ts : List ℤ} {k : ℕ}

theorem LastNonzero.lt_length (h : LastNonzero ts k) : k < ts.length := by
  by_contra hk
  apply h.ne_zero
  rw [List.getD_eq_getElem?_getD, List.getElem?_eq_none (by omega)]
  rfl

theorem LastNonzero.eq_of {l : ℕ} (h : LastNonzero ts k) (h' : LastNonzero ts l) : k = l := by
  rcases Nat.lt_trichotomy k l with hlt | heq | hgt
  · exact absurd (h.behind l hlt) h'.ne_zero
  · exact heq
  · exact absurd (h'.behind k hgt) h.ne_zero

theorem lastNonzero_append {us : List ℤ} (h : LastNonzero us k) :
    LastNonzero (ts ++ us) (ts.length + k) := by
  have hright : ∀ i, (ts ++ us).getD (ts.length + i) 0 = us.getD i 0 := by
    intro i
    rw [List.getD_append_right _ _ _ _ (Nat.le_add_right _ _), Nat.add_sub_cancel_left]
  refine ⟨by rw [hright]; exact h.ne_zero, fun i hi => ?_⟩
  obtain ⟨j, rfl⟩ := Nat.exists_eq_add_of_lt hi
  rw [show ts.length + k + j + 1 = ts.length + (k + j + 1) by omega, hright]
  exact h.behind _ (by omega)

theorem trailingZeros_replicate (n : ℕ) : trailingZeros (List.replicate n 0) = n := by
  rw [trailingZeros, List.reverse_replicate, List.takeWhile_replicate]
  simp

/-- Trits are all zero, or one of them is the last that is not. -/
theorem eq_replicate_or_lastNonzero (ts : List ℤ) :
    ts = List.replicate ts.length 0 ∨ ∃ k, LastNonzero ts k := by
  induction ts using List.reverseRecOn with
  | nil => exact .inl rfl
  | append_singleton ts t ih =>
    by_cases ht : t = 0
    · subst ht
      rcases ih with hz | ⟨k, hk⟩
      · left
        rw [List.length_append, List.length_singleton, List.replicate_succ', ← hz]
      · right
        refine ⟨k, ?_, fun i hi => ?_⟩
        · rw [List.getD_append _ _ _ _ hk.lt_length]
          exact hk.ne_zero
        · rcases Nat.lt_or_ge i ts.length with hlt | hge
          · rw [List.getD_append _ _ _ _ hlt]
            exact hk.behind i hi
          · rw [List.getD_append_right _ _ _ _ hge]
            cases i - ts.length with
            | zero => rfl
            | succ j => rfl
    · refine .inr ⟨ts.length + 0, lastNonzero_append ⟨ht, fun i hi => ?_⟩⟩
      obtain ⟨j, rfl⟩ := Nat.exists_eq_add_of_lt hi
      rw [Nat.zero_add, List.getD_cons_succ, List.getD_nil]

/-- **The zeros at the end** are those behind the last trit that is not zero. -/
theorem LastNonzero.trailingZeros_eq (h : LastNonzero ts k) :
    trailingZeros ts = ts.length - 1 - k := by
  have hk := h.lt_length
  have hget : ts[k] ≠ 0 := by
    have hne := h.ne_zero
    rwa [List.getD_eq_getElem _ _ hk] at hne
  have hdrop : ts.drop (k + 1) = List.replicate (ts.length - 1 - k) 0 := by
    refine List.eq_replicate_iff.mpr ⟨by rw [List.length_drop]; omega, fun t ht => ?_⟩
    obtain ⟨i, hi, rfl⟩ := List.getElem_of_mem ht
    have hz := h.behind (k + 1 + i) (by omega)
    rw [List.length_drop] at hi
    rwa [List.getD_eq_getElem _ _ (by omega), ← List.getElem_drop] at hz
  have hsplit : ts = ts.take k ++ ts[k] :: List.replicate (ts.length - 1 - k) 0 := by
    rw [← hdrop, List.cons_getElem_drop_succ, List.take_append_drop]
  rw [trailingZeros, hsplit, List.reverse_append, List.reverse_cons, List.reverse_replicate,
    List.append_assoc, List.singleton_append]
  rw [List.takeWhile_append_of_pos (by simp), List.takeWhile_cons_of_neg (by simpa using hget),
    List.append_nil, List.length_replicate, ← hsplit]

end Ternary

namespace Codec

open Ternary Trinary

variable {E : Encoding} {ts : List ℤ} {k : ℕ}

/-! ## Whole bytes -/

/-- A byte is null just in case its trits are. -/
theorem packByte_eq_null_iff {c : List ℤ} (hc : Trits c) (hl : c.length ≤ E.numTritsPerFlexTrit) :
    packByte E c = E.nullValue ↔ c = List.replicate c.length 0 := by
  have hnull : ∀ n ≤ E.numTritsPerFlexTrit, packByte E (List.replicate n 0) = E.nullValue := by
    cases E <;> decide
  have hunpack : unpackByte E E.nullValue = List.replicate E.numTritsPerFlexTrit 0 := by
    cases E <;> decide
  constructor
  · intro hnul
    have hu := unpackByte_packByte hc hl
    rw [hnul, hunpack] at hu
    refine List.eq_replicate_iff.mpr ⟨rfl, fun t ht => ?_⟩
    have hmem : t ∈ List.replicate E.numTritsPerFlexTrit (0 : ℤ) := by
      rw [hu]
      exact List.mem_append_left _ ht
    exact (List.mem_replicate.mp hmem).2
  · intro hz
    rw [hz]
    exact hnull _ hl

/-- The loop runs through null bytes. -/
theorem weightLoop_of_null (hash : List FlexTrit) (p d n : ℕ)
    (hnull : ∀ j, p ≤ j → j < p + d → hash.getD j 0 = E.nullValue) :
    weightLoop E hash (p + d) n = weightLoop E hash p (n + E.numTritsPerFlexTrit * d) := by
  induction d generalizing n with
  | zero => rfl
  | succ d ih =>
    rw [← Nat.add_assoc, weightLoop, if_pos (hnull _ (by omega) (by omega)),
      ih _ fun j hp hj => hnull j hp (by omega), Nat.mul_succ]
    congr 1
    omega

/-- It stops at the first one from the end that is not null. -/
theorem weightLoop_of_ne_null {hash : List FlexTrit} {p m : ℕ} (n : ℕ) (hp : p < m)
    (hne : hash.getD p 0 ≠ E.nullValue)
    (hnull : ∀ j, p < j → j < m → hash.getD j 0 = E.nullValue) :
    weightLoop E hash m n = (p, n + E.numTritsPerFlexTrit * (m - 1 - p)) := by
  obtain ⟨d, rfl⟩ := Nat.exists_eq_add_of_lt hp
  rw [show p + d + 1 = p + 1 + d by omega,
    weightLoop_of_null hash (p + 1) d n fun j hj hjd => hnull j (by omega) (by omega),
    weightLoop, if_neg hne, show p + 1 + d - 1 - p = d by omega]

variable {p m : ℕ}

/-- Behind the byte of the last trit that is not zero there are null bytes only. -/
theorem getD_pack_of_behind (hts : Trits ts) (hk : LastNonzero ts k) {j : ℕ}
    (hkj : k / E.numTritsPerFlexTrit < j) (hj : E.numTritsPerFlexTrit * j < ts.length) :
    (pack E ts).getD j 0 = E.nullValue := by
  have hw := width_pos E
  have hkw : k < E.numTritsPerFlexTrit * j := by
    rw [Nat.mul_comm]
    exact (Nat.div_lt_iff_lt_mul hw).mp hkj
  rw [getD_pack hj, packByte_eq_null_iff (trits_chunk hts j) (packing E).length_chunk_le]
  refine List.eq_replicate_iff.mpr ⟨rfl, fun t ht => ?_⟩
  obtain ⟨i, hi, rfl⟩ := List.getElem_of_mem ht
  have hiw : i < E.numTritsPerFlexTrit := hi.trans_le (packing E).length_chunk_le
  have hget : ((packing E).chunk ts j)[i]? = ts[E.numTritsPerFlexTrit * j + i]? :=
    (packing E).getElem?_chunk hiw
  have hz := hk.behind (E.numTritsPerFlexTrit * j + i) (by omega)
  rwa [List.getD_eq_getElem?_getD, ← hget, List.getElem?_eq_getElem hi] at hz

/-- The trits of a byte, filled up with zeros. -/
def byteTrits (E : Encoding) (ts : List ℤ) (j : ℕ) : List ℤ :=
  (packing E).chunk ts j ++
    List.replicate (E.numTritsPerFlexTrit - ((packing E).chunk ts j).length) 0

theorem length_byteTrits (E : Encoding) (ts : List ℤ) (j : ℕ) :
    (byteTrits E ts j).length = E.numTritsPerFlexTrit := by
  have hle : ((packing E).chunk ts j).length ≤ E.numTritsPerFlexTrit := (packing E).length_chunk_le
  rw [byteTrits, List.length_append, List.length_replicate]
  omega

/-- The byte of the last trit that is not zero ends where that trit stands in it. -/
theorem lastNonzero_byteTrits (hts : Trits ts) (hk : LastNonzero ts k) :
    LastNonzero (byteTrits E ts (k / E.numTritsPerFlexTrit)) (k % E.numTritsPerFlexTrit) := by
  have hget : ∀ i, i < E.numTritsPerFlexTrit →
      (byteTrits E ts (k / E.numTritsPerFlexTrit)).getD i 0 =
        ts.getD (E.numTritsPerFlexTrit * (k / E.numTritsPerFlexTrit) + i) 0 := by
    intro i hi
    have hdec := (packing E).getD_dec_chunk (j := k / E.numTritsPerFlexTrit) hts hi
    rwa [(packing E).dec_chunk hts] at hdec
  have hmod := Nat.div_add_mod k E.numTritsPerFlexTrit
  have hlt := Nat.mod_lt k (width_pos E)
  refine ⟨?_, fun i hi => ?_⟩
  · rw [hget _ hlt, hmod]
    exact hk.ne_zero
  · rcases Nat.lt_or_ge i E.numTritsPerFlexTrit with hiw | hiw
    · rw [hget i hiw]
      exact hk.behind _ (by omega)
    · rw [List.getD_eq_getElem?_getD, List.getElem?_eq_none (by rwa [length_byteTrits])]
      rfl

/-- That byte is not null. -/
theorem getD_pack_ne_null (hts : Trits ts) (hk : LastNonzero ts k) :
    (pack E ts).getD (k / E.numTritsPerFlexTrit) 0 ≠ E.nullValue := by
  have hlast := lastNonzero_byteTrits (E := E) hts hk
  have hbyte : E.numTritsPerFlexTrit * (k / E.numTritsPerFlexTrit) < ts.length :=
    (Nat.mul_div_le k _).trans_lt hk.lt_length
  rw [getD_pack hbyte, Ne, packByte_eq_null_iff (trits_chunk hts _) (packing E).length_chunk_le]
  intro hz
  apply hlast.ne_zero
  rw [byteTrits, hz, List.replicate_append_replicate, List.getD_eq_getElem?_getD,
    List.getElem?_replicate]
  split <;> rfl

/-- Where the loop stops. -/
theorem weightLoop_pack (hts : Trits ts) (hk : LastNonzero ts k) :
    weightLoop E (pack E ts) (E.numFlexTritsForTrits ts.length) 0 =
      (k / E.numTritsPerFlexTrit, E.numTritsPerFlexTrit *
        (E.numFlexTritsForTrits ts.length - 1 - k / E.numTritsPerFlexTrit)) := by
  have hcell : k / E.numTritsPerFlexTrit < E.numFlexTritsForTrits ts.length := by
    rw [numFlexTritsForTrits_eq]
    exact (packing E).div_lt_cells hk.lt_length
  rw [weightLoop_of_ne_null 0 hcell (getD_pack_ne_null hts hk), Nat.zero_add]
  intro j hkj hj
  rw [numFlexTritsForTrits_eq] at hj
  exact getD_pack_of_behind hts hk hkj ((packing E).lt_cells.mp hj)

/-- A hash of nulls runs the counter down. -/
theorem weightLoop_replicate (n : ℕ) (m : ℕ) :
    weightLoop E (List.replicate m E.nullValue) m n = (255, n + E.numTritsPerFlexTrit * m) := by
  have hrun := weightLoop_of_null (E := E) (List.replicate m E.nullValue) 0 m n fun j _ hj => by
    rw [Nat.zero_add] at hj
    rw [List.getD_eq_getElem?_getD, List.getElem?_replicate, if_pos hj]
    rfl
  rw [Nat.zero_add] at hrun
  rw [hrun, weightLoop]

/-! ## The partial byte -/

/-- The buffer of one byte. -/
theorem flexTritsToTrits_byte (hts : Trits ts) {j : ℕ} (hj : E.numTritsPerFlexTrit * j < ts.length)
    (stray : FlexTrit) :
    (flexTritsToTrits E (List.replicate E.numTritsPerFlexTrit 0) E.numTritsPerFlexTrit
      [(pack E ts).getD j stray] E.numTritsPerFlexTrit E.numTritsPerFlexTrit).1 =
        byteTrits E ts j := by
  have hlen := length_byteTrits E ts j
  have hw := width_pos E
  have hchunk : Trits ((packing E).chunk ts j) := trits_chunk hts j
  have htrits : Trits (byteTrits E ts j) := trits_append.mpr ⟨hchunk, trits_replicate _⟩
  have hcell : (pack E ts).getD j stray = packByte E ((packing E).chunk ts j) :=
    (packing E).getD_pack stray hj
  have hone : pack E (byteTrits E ts j) = [(pack E ts).getD j stray] := by
    have hcells : (packing E).cells E.numTritsPerFlexTrit = 1 := by cases E <;> decide
    have hfirst : (packing E).chunk (byteTrits E ts j) 0 = byteTrits E ts j :=
      List.take_of_length_le hlen.le
    have hpad : packByte E (byteTrits E ts j) = packByte E ((packing E).chunk ts j) :=
      (packing E).enc_pad _ (packing E).length_chunk_le hchunk
    rw [hcell, ← hpad, pack, Packing.pack, hlen, hcells]
    show [packByte E ((packing E).chunk (byteTrits E ts j) 0)] = _
    rw [hfirst]
  have hto := flexTritsToTrits_pack (E := E) (List.replicate E.numTritsPerFlexTrit 0)
    E.numTritsPerFlexTrit htrits (hone.symm ▸ List.prefix_refl [(pack E ts).getD j stray])
    (by omega) (fun he => by rw [hlen, he]; exact dvd_rfl) hlen.le
    (by rw [hlen, List.length_replicate])
  rwa [hlen, blit_full (by rw [hlen, List.length_replicate]), hone] at hto

/-! ## The weight -/

variable {tx : IotaTransaction}

/-- **What the function returns** for a hash whose last trit that is not zero is `k`: the zeros of
the padded hash, but inside the first byte none at all. -/
theorem transactionWeightMagnitude_of_lastNonzero (stray : FlexTrit) (hts : Trits ts)
    (hl : ts.length = 243) (hhash : tx.hash = pack E ts) (hk : LastNonzero ts k) :
    transactionWeightMagnitude E stray tx =
      if E.numTritsPerFlexTrit ≤ k then
        E.numTritsPerFlexTrit * E.numFlexTritsForTrits 243 - 1 - k
      else E.numTritsPerFlexTrit * (E.numFlexTritsForTrits 243 - 1) := by
  have hloop := weightLoop_pack (E := E) hts hk
  have hlt := hk.lt_length
  rw [hl] at hloop hlt
  have hbyte : E.numTritsPerFlexTrit * (k / E.numTritsPerFlexTrit) < ts.length :=
    (Nat.mul_div_le k _).trans_lt hk.lt_length
  have hzeros : ((byteTrits E ts (k / E.numTritsPerFlexTrit)).reverse.takeWhile (· = 0)).length =
      E.numTritsPerFlexTrit - 1 - k % E.numTritsPerFlexTrit := by
    rw [← trailingZeros, (lastNonzero_byteTrits hts hk).trailingZeros_eq, length_byteTrits]
  unfold transactionWeightMagnitude
  rw [hhash, hloop]
  simp only [flexTritsToTrits_byte hts hbyte, hzeros]
  by_cases hfirst : E.numTritsPerFlexTrit ≤ k
  · rw [if_pos hfirst, if_pos (Nat.div_pos hfirst (width_pos E))]
    clear hloop hzeros hbyte
    cases E <;> simp only [Encoding.numTritsPerFlexTrit, Encoding.numFlexTritsForTrits] at hfirst ⊢ <;>
      omega
  · -- the first byte is not looked at
    rw [Nat.not_le] at hfirst
    rw [if_neg (Nat.not_le.mpr hfirst), Nat.div_eq_of_lt hfirst, if_neg (Nat.lt_irrefl 0)]
    cases E <;> rfl

/-- For a hash of nulls a null byte behind it is counted as well. -/
theorem transactionWeightMagnitude_of_null (hhash : tx.hash = pack E (List.replicate 243 0)) :
    transactionWeightMagnitude E E.nullValue tx ≠ 243 := by
  have hlen : E.numFlexTritsForTrits 243 ≤ 255 := by cases E <;> decide
  have hbehind : (List.replicate (E.numFlexTritsForTrits 243) E.nullValue).getD 255 E.nullValue =
      E.nullValue := by
    rw [List.getD_eq_getElem?_getD, List.getElem?_replicate]
    split <;> rfl
  unfold transactionWeightMagnitude
  rw [hhash, ← replicate_null, weightLoop_replicate]
  simp only [hbehind]
  cases E <;> decide

/-- When the count is right. One trit to a byte: some trit is not zero. Three: some trit is not
zero from the last one of the first byte on. Four or five: just the third trit is not zero, or it
is the last such. -/
def WeighsRight : Encoding → List ℤ → Prop
  | .one, ts => ∃ i, ts.getD i 0 ≠ 0
  | .three, ts => ∃ i, 2 ≤ i ∧ ts.getD i 0 ≠ 0
  | .four, ts | .five, ts => ts.getD 2 0 ≠ 0 ∧ ∀ i, 2 < i → ts.getD i 0 = 0

theorem not_weighsRight_replicate (n : ℕ) : ¬WeighsRight E (List.replicate n 0) := by
  have hzero : ∀ i, (List.replicate n (0 : ℤ)).getD i 0 = 0 := by
    intro i
    rw [List.getD_eq_getElem?_getD, List.getElem?_replicate]
    split <;> rfl
  cases E with
  | one => exact fun ⟨i, hi⟩ => hi (hzero i)
  | three => exact fun ⟨i, _, hi⟩ => hi (hzero i)
  | four => exact fun h => h.1 (hzero 2)
  | five => exact fun h => h.1 (hzero 2)

theorem weighsRight_iff_of_lastNonzero (hk : LastNonzero ts k) :
    WeighsRight E ts ↔ match E with
      | .one => True
      | .three => 2 ≤ k
      | .four | .five => k = 2 := by
  have hthird : (ts.getD 2 0 ≠ 0 ∧ ∀ i, 2 < i → ts.getD i 0 = 0) ↔ k = 2 :=
    ⟨fun h => hk.eq_of ⟨h.1, h.2⟩, fun h => h ▸ ⟨hk.ne_zero, hk.behind⟩⟩
  cases E with
  | one => exact iff_true_intro ⟨k, hk.ne_zero⟩
  | three =>
    refine ⟨fun ⟨i, hi, hne⟩ => ?_, fun h => ⟨k, h, hk.ne_zero⟩⟩
    by_contra hlt
    exact hne (hk.behind i (by omega))
  | four => exact hthird
  | five => exact hthird

/-- **When the weight is the number of zeros at the end**, whatever stands behind the hash. -/
theorem weight_eq_trailingZeros_iff (hts : Trits ts) (hl : ts.length = 243)
    (hhash : tx.hash = pack E ts) :
    (∀ stray, transactionWeightMagnitude E stray tx = trailingZeros ts) ↔ WeighsRight E ts := by
  rcases eq_replicate_or_lastNonzero ts with hz | ⟨k, hk⟩
  · rw [hl] at hz
    rw [hz] at hhash ⊢
    rw [trailingZeros_replicate]
    exact iff_of_false (fun h => transactionWeightMagnitude_of_null hhash (h _))
      (not_weighsRight_replicate 243)
  · have hlt := hk.lt_length
    have hweight := fun stray => transactionWeightMagnitude_of_lastNonzero stray hts hl hhash hk
    rw [weighsRight_iff_of_lastNonzero hk, hk.trailingZeros_eq, forall_congr fun s => by rw [hweight s],
      forall_const, hl]
    rw [hl] at hlt
    clear hweight hhash
    by_cases hfirst : E.numTritsPerFlexTrit ≤ k
    · rw [if_pos hfirst]
      cases E <;> simp [Encoding.numTritsPerFlexTrit, Encoding.numFlexTritsForTrits] at hfirst ⊢ <;>
        omega
    · rw [if_neg hfirst]
      cases E <;> simp [Encoding.numTritsPerFlexTrit, Encoding.numFlexTritsForTrits] at hfirst ⊢ <;>
        omega

/-- **When the weight can be relied on.** It is the number of zero trits the hash ends in, and so
the validator asks for that many, just under this condition. -/
theorem transactionWeight_iff (hts : Trits ts) (hl : ts.length = 243)
    (hhash : tx.hash = pack E ts) :
    (∀ stray, transactionWeightMagnitude E stray tx = trailingZeros ts ∧
      ∀ tv now, transactionValidate E tv now stray tx = true ↔
        tv.mwm ≤ trailingZeros ts ∧
          transactionValidate E { tv with mwm := 0 } now stray tx = true) ↔
      WeighsRight E ts := by
  rw [← weight_eq_trailingZeros_iff hts hl hhash]
  refine ⟨fun h stray => (h stray).1, fun h stray => ⟨h stray, fun tv now => ?_⟩⟩
  unfold transactionValidate
  rw [h stray]
  by_cases hw : trailingZeros ts < tv.mwm
  · rw [if_pos hw]
    exact iff_of_false Bool.false_ne_true fun h => absurd h.1 (by omega)
  · rw [if_neg hw, and_iff_right (Nat.not_lt.mp hw), if_neg (Nat.not_lt_zero _)]
    exact Iff.rfl

/-! ## Five trits to a byte -/

/-- A transaction of nothing but a hash. -/
def hashedTx (hash : List FlexTrit) : IotaTransaction :=
  ⟨[], 0, [], 0, 0, 0, [], [], [], 0, 0, 0, [], [], hash, []⟩

theorem hash_hashedTx (hash : List FlexTrit) : (hashedTx hash).hash = hash := rfl

/-- A hash that ends in twelve zeros. -/
def twelveZeros : List ℤ := List.replicate 231 1 ++ List.replicate 12 0

theorem lastNonzero_twelveZeros : LastNonzero twelveZeros 230 := by
  refine ⟨by decide, fun i hi => ?_⟩
  rw [twelveZeros, List.getD_append_right _ _ _ _ (by rw [List.length_replicate]; omega),
    List.getD_eq_getElem?_getD, List.getElem?_replicate]
  split <;> rfl

theorem trits_twelveZeros : Trits twelveZeros :=
  trits_append.mpr ⟨fun _ ht => .inr (.inr (List.eq_of_mem_replicate ht)), trits_replicate 12⟩

theorem length_twelveZeros : twelveZeros.length = 243 := by
  rw [twelveZeros, List.length_append, List.length_replicate, List.length_replicate]

/-- **Twelve zeros pass for fourteen** with five trits to a byte, and the validator that asks for
fourteen accepts the transaction. -/
theorem twelveZeros_weigh_fourteen :
    trailingZeros twelveZeros = 12 ∧
      transactionWeightMagnitude .five 0 (hashedTx (pack .five twelveZeros)) = 14 ∧
      transactionValidate .five ⟨14, [], 0, [], []⟩ 0 0 (hashedTx (pack .five twelveZeros)) =
        true := by
  have hweight : ∀ stray,
      transactionWeightMagnitude .five stray (hashedTx (pack .five twelveZeros)) = 14 := by
    intro stray
    rw [transactionWeightMagnitude_of_lastNonzero stray trits_twelveZeros length_twelveZeros
      (hash_hashedTx _) lastNonzero_twelveZeros]
    rfl
  refine ⟨?_, hweight 0, ?_⟩
  · rw [lastNonzero_twelveZeros.trailingZeros_eq, length_twelveZeros]
  · unfold transactionValidate
    rw [hweight 0]
    decide

/-- With three trits to a byte twelve zeros are counted as twelve. -/
theorem twelveZeros_weigh_twelve :
    transactionWeightMagnitude .three 0 (hashedTx (pack .three twelveZeros)) =
      trailingZeros twelveZeros := by
  have hright := (transactionWeight_iff (E := .three) trits_twelveZeros length_twelveZeros
    (hash_hashedTx _)).mpr ⟨230, by decide, lastNonzero_twelveZeros.ne_zero⟩
  exact (hright 0).1

end Codec

end Entangled
