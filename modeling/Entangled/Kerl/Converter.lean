import Entangled.Kerl.Bigint
import Entangled.Trinary.FlexTrit
/-!
# Trits to bytes

`convert_trits_to_bytes`: 243 trits, of which the last one is not looked at, as a signed number of
48 bytes. The number is gathered over `3 ^ 242 / 2` in the words of the buffer itself, of which the
source clears only the first three (`memset` is given the number of words, not of bytes), so what
the buffer held before is an argument here. The conversion reads it only if a carry runs into a
word that no multiplication has reached yet, and it does not where the top trits are `Legible`.
-/

namespace Entangled

namespace Kerl

open Bigint

/-- `HALF_3`, which is `(3 ^ 242 - 1) / 2`. -/
def half3 : List ℕ :=
  [0xa5ce8964, 0x9f007669, 0x1484504f, 0x3ade00d9, 0x0c24486e, 0x50979d57, 0x79a4c702, 0x48bbae36,
    0xa9f6808b, 0xaa06a805, 0xa87fabdf, 0x5e69ebef]

/-- The bytes read as words, the lowest byte first. -/
def loadWords : List UInt8 → List ℕ
  | b₀ :: b₁ :: b₂ :: b₃ :: bytes =>
    (b₀.toNat + 2 ^ 8 * (b₁.toNat + 2 ^ 8 * (b₂.toNat + 2 ^ 8 * b₃.toNat))) :: loadWords bytes
  | _ => []

/-- The bytes of the words. -/
def storeWords (ws : List ℕ) : List UInt8 :=
  ws.flatMap fun w =>
    [UInt8.ofNat w, UInt8.ofNat (w / 2 ^ 8), UInt8.ofNat (w / 2 ^ 16), UInt8.ofNat (w / 2 ^ 24)]

/-- `is_null`. -/
def isNull (base : List ℕ) : Bool := base.all (· = 0)

/-- The inner loop of "multiply by radix", over the first `sz` words: the words and the carry. -/
def mulRadix : ℕ → List ℕ → ℕ → List ℕ × ℕ
  | sz + 1, w :: ws, carry =>
    let v := w * 3 + carry
    let r := mulRadix sz ws (v / 2 ^ 32)
    (v % 2 ^ 32 :: r.1, r.2)
  | _, ws, carry => (ws, carry)

/-- "Multiply by radix": `base` and `size`. -/
def multiplyByRadix (p : List ℕ × ℕ) : List ℕ × ℕ :=
  let r := mulRadix p.2 p.1 0
  if r.2 ≠ 0 then (r.1.set p.2 r.2, p.2 + 1) else (r.1, p.2)

/-- "Addition" of what is `trits[i] + 1`. -/
def addDigit (d : ℕ) (p : List ℕ × ℕ) : List ℕ × ℕ :=
  let r := bigintAddSmall p.1 d
  (r.1, if p.2 < r.2 then r.2 else p.2)

/-- A trit as the digit that is added. -/
def digitOf (trit : ℤ) : ℕ := (trit + 1).toNat

/-- The loop over the trits, from the highest one. -/
def convertLoop (base : List ℕ) (trits : List ℤ) : List ℕ × ℕ :=
  trits.foldr (fun trit p => addDigit (digitOf trit) (multiplyByRadix p)) (base, 1)

/-- What is done to `base` after the loop. -/
def subtractHalf (base : List ℕ) : List ℕ :=
  if isNull base then base
  else if bigintCmp half3 base ≤ 0 then bigintSub base half3
  else (bigintAddSmall (bigintNot (bigintSub half3 base)) 1).1

/-- `convert_trits_to_bytes`, with what the 48 bytes held before. -/
def convertTritsToBytes (bytes : List UInt8) (trits : List ℤ) : List UInt8 :=
  let base := loadWords (Trinary.memset bytes 0 12)
  let allMinus1 := (trits.take 242).all (· = -1)
  let base :=
    if allMinus1 then (bigintAddSmall (bigintNot half3) 1).1
    else subtractHalf (convertLoop base (trits.take 242)).1
  (storeWords base).reverse

/-! ## Bytes and words -/

variable {ws : List ℕ} {sz size v d m carry : ℕ}

theorem words_loadWords (bytes : List UInt8) : Words (loadWords bytes) := by
  fun_induction loadWords bytes with
  | case1 b₀ b₁ b₂ b₃ bytes ih =>
    refine words_cons.mpr ⟨?_, ih⟩
    have h₀ := b₀.toNat_lt
    have h₁ := b₁.toNat_lt
    have h₂ := b₂.toNat_lt
    have h₃ := b₃.toNat_lt
    omega
  | case2 => exact words_nil

theorem length_loadWords (bytes : List UInt8) : (loadWords bytes).length = bytes.length / 4 := by
  fun_induction loadWords bytes with
  | case1 b₀ b₁ b₂ b₃ bytes ih =>
    simp only [List.length_cons, ih]
    omega
  | case2 bytes h =>
    rcases bytes with _ | ⟨b₀, _ | ⟨b₁, _ | ⟨b₂, _ | ⟨b₃, bytes⟩⟩⟩⟩
    · simp
    · simp
    · simp
    · simp
    · exact absurd rfl (h b₀ b₁ b₂ b₃ bytes)

/-- The first three words are cleared. -/
theorem loadWords_memset (bytes : List UInt8) :
    loadWords (Trinary.memset bytes 0 12) = 0 :: 0 :: 0 :: loadWords (bytes.drop 12) := by
  have hb : Trinary.memset bytes 0 12 = List.replicate 12 0 ++ bytes.drop 12 := by
    rw [Trinary.memset, blit, List.take_zero, List.nil_append, List.length_replicate]
  rw [hb]
  rfl

theorem loadWords_storeWords (h : Words ws) : loadWords (storeWords ws) = ws := by
  induction ws with
  | nil => rfl
  | cons w ws ih =>
    obtain ⟨hw, hws⟩ := words_cons.mp h
    rw [storeWords, List.flatMap_cons, ← storeWords]
    simp only [List.cons_append, List.nil_append, loadWords, ih hws, UInt8.toNat_ofNat']
    congr 1
    omega

/-! ## The loop -/

theorem value_take_succ (h : m < ws.length) :
    value (ws.take (m + 1)) = value (ws.take m) + (2 ^ 32) ^ m * ws.getD m 0 := by
  rw [List.take_add_one, value_append, List.length_take, Nat.min_eq_left (by omega),
    List.getD_eq_getElem?_getD, List.getElem?_eq_getElem h, Option.toList_some, Option.getD_some,
    value_cons, value_nil, Nat.mul_zero, Nat.add_zero]

theorem mulRadix_spec (hw : Words ws) (hsz : sz ≤ ws.length) (hc : carry < 3) :
    (mulRadix sz ws carry).2 < 3 ∧ Words (mulRadix sz ws carry).1 ∧
      (mulRadix sz ws carry).1.length = ws.length ∧
      (mulRadix sz ws carry).1.drop sz = ws.drop sz ∧
      value ((mulRadix sz ws carry).1.take sz) + (2 ^ 32) ^ sz * (mulRadix sz ws carry).2 =
        3 * value (ws.take sz) + carry := by
  fun_induction mulRadix sz ws carry with
  | case1 sz w ws carry v r ih =>
    obtain ⟨hw₀, hws⟩ := words_cons.mp hw
    obtain ⟨hcarry, hwords, hlen, hdrop, hval⟩ := ih hws (by simpa using hsz) (by omega)
    refine ⟨hcarry, words_cons.mpr ⟨Nat.mod_lt _ (by decide), hwords⟩, congrArg Nat.succ hlen,
      hdrop, ?_⟩
    change value (r.1.take sz) + (2 ^ 32) ^ sz * r.2 = 3 * value (ws.take sz) + v / 2 ^ 32 at hval
    rw [List.take_succ_cons, List.take_succ_cons, value_cons, value_cons, room_succ, Nat.mul_assoc]
    generalize (2 ^ 32) ^ sz * r.2 = c at hval ⊢
    omega
  | case2 sz ws carry h =>
    have h₀ : sz = 0 := by
      rcases sz with _ | sz
      · rfl
      · rcases ws with _ | ⟨w, ws⟩
        · exact absurd hsz (by simp)
        · exact (h sz w ws rfl rfl).elim
    subst h₀
    simp [hc, hw]

/-- What the loop keeps up: the number is in the first `size` words, and the words between them and
the third are still clear. -/
structure Holds (p : List ℕ × ℕ) (v : ℕ) : Prop where
  length : p.1.length = 12
  words : Words p.1
  pos : 1 ≤ p.2
  le : p.2 ≤ 12
  number : value (p.1.take p.2) = v
  clear : ∀ i, p.2 ≤ i → i < 3 → p.1.getD i 0 = 0

theorem Holds.lt {p : List ℕ × ℕ} (h : Holds p v) : v < (2 ^ 32) ^ p.2 := by
  have hlt := value_lt (h.words.take p.2)
  rwa [h.number, List.length_take, h.length, Nat.min_eq_left h.le] at hlt

theorem getD_eq_of_drop_eq {l l' : List ℕ} {i : ℕ} (h : l.drop m = l'.drop m) (hi : m ≤ i) :
    l.getD i 0 = l'.getD i 0 := by
  have := congrArg (fun l => l.getD (i - m) 0) h
  simpa only [List.getD_eq_getElem?_getD, List.getElem?_drop, Nat.add_sub_cancel' hi] using this

theorem Holds.multiplyByRadix {p : List ℕ × ℕ} (h : Holds p v) (hv : 3 * v < (2 ^ 32) ^ 12) :
    Holds (multiplyByRadix p) (3 * v) := by
  obtain ⟨hlen, hwords, hpos, hle, hval, hclear⟩ := h
  obtain ⟨hc, hw', hlen', hdrop, hsum⟩ := mulRadix_spec hwords (hlen ▸ hle) (show 0 < 3 by decide)
  have hclear' : ∀ i, p.2 ≤ i → i < 3 → (mulRadix p.2 p.1 0).1.getD i 0 = 0 := fun i hi hi' => by
    rw [getD_eq_of_drop_eq hdrop hi, hclear i hi hi']
  rw [hval] at hsum
  unfold Kerl.multiplyByRadix
  dsimp only
  split_ifs with hcarry
  · have hsize : p.2 < 12 := by
      -- a carry out of the twelfth word would be too much
      refine Nat.lt_of_le_of_ne hle fun h12 => ?_
      have hpow : (2 ^ 32) ^ p.2 = (2 ^ 32) ^ 12 := by rw [h12]
      rw [hpow] at hsum
      have := Nat.mul_le_mul_left ((2 ^ 32) ^ 12) (Nat.one_le_iff_ne_zero.mpr hcarry)
      omega
    have htake : ((mulRadix p.2 p.1 0).1.set p.2 (mulRadix p.2 p.1 0).2).take p.2 =
        (mulRadix p.2 p.1 0).1.take p.2 := List.take_set_of_le le_rfl
    refine ⟨by rw [List.length_set, hlen', hlen], ?_, by omega, by omega, ?_, ?_⟩
    · intro w hw
      rcases List.mem_or_eq_of_mem_set hw with hw | rfl
      · exact hw' w hw
      · omega
    · rw [value_take_succ (by rw [List.length_set]; omega), htake, List.getD_eq_getElem?_getD,
        List.getElem?_set_self (by omega), Option.getD_some]
      omega
    · intro i hi hi'
      rw [List.getD_eq_getElem?_getD, List.getElem?_set_ne (by omega),
        ← List.getD_eq_getElem?_getD]
      exact hclear' i (by omega) hi'
  · refine ⟨by rw [hlen', hlen], hw', hpos, hle, ?_, hclear'⟩
    rw [not_not.mp hcarry] at hsum
    omega

/-- The addition is right unless its carry leaves the words that count from the third one on. -/
theorem Holds.addDigit {p : List ℕ × ℕ} (h : Holds p v) (hd : d ≤ 2)
    (hv : v + d < (2 ^ 32) ^ 12)
    (hcarry : ∀ k, 3 ≤ k → v < (2 ^ 32) ^ k → v + d < (2 ^ 32) ^ k) :
    Holds (addDigit d p) (v + d) := by
  have hlt := h.lt
  obtain ⟨hlen, hwords, hpos, hle, hval, hclear⟩ := h
  have hdrop := drop_bigintAddSmall p.1 d
  rcases Nat.lt_or_ge (v + d) ((2 ^ 32) ^ p.2) with hroom | hroom
  · obtain ⟨hsize, hsum, hw', hlen'⟩ := bigintAddSmall_spec (m := p.2) (d := d) (by omega)
      hwords hpos (by omega) (by rwa [hval])
    have hadd : Kerl.addDigit d p = ((bigintAddSmall p.1 d).1, p.2) := by
      rw [Kerl.addDigit, if_neg (by omega)]
    rw [hadd]
    exact ⟨hlen'.trans hlen, hw', hpos, hle, by rw [hsum, hval], fun i hi hi' => by
      rw [getD_eq_of_drop_eq hdrop (by dsimp only at hi; omega)]
      exact hclear i hi hi'⟩
  · -- the carry leaves the words that count, so these are one or two
    have hsmall : p.2 < 3 := by
      by_contra hge
      exact absurd (hcarry p.2 (by omega) hlt) (by omega)
    have hzero := hclear p.2 le_rfl hsmall
    have htake : value (p.1.take (p.2 + 1)) = v := by
      rw [value_take_succ (by omega), hval, hzero, Nat.mul_zero, Nat.add_zero]
    have hpow := room_succ p.2
    obtain ⟨hsize, hsum, hw', hlen'⟩ := bigintAddSmall_spec (m := p.2 + 1) (d := d) (by omega)
      hwords (by omega) (by omega) (by rw [htake]; omega)
    rw [htake] at hsum
    have hsize' : (bigintAddSmall p.1 d).2 = p.2 + 1 := by
      refine Nat.le_antisymm hsize (Nat.lt_of_not_le fun hshort => ?_)
      -- the word would still be clear, and the number too small
      have hz : (bigintAddSmall p.1 d).1.getD p.2 0 = 0 := by
        rw [getD_eq_of_drop_eq hdrop hshort, hzero]
      have hbound := value_lt (hw'.take p.2)
      rw [value_take_succ (by omega), hz, Nat.mul_zero, Nat.add_zero] at hsum
      rw [List.length_take, hlen', hlen, Nat.min_eq_left hle] at hbound
      omega
    have hadd : Kerl.addDigit d p = ((bigintAddSmall p.1 d).1, p.2 + 1) := by
      rw [Kerl.addDigit, if_pos (by omega), hsize']
    rw [hadd]
    exact ⟨hlen'.trans hlen, hw', Nat.succ_pos _, (by omega : p.2 + 1 ≤ 12), hsum, fun i hi hi' => by
      rw [getD_eq_of_drop_eq hdrop (by dsimp only at hi; omega)]
      exact hclear i (by dsimp only at hi; omega) hi'⟩

/-- The number the loop gathers. -/
def shifted (trits : List ℤ) : ℕ := trits.foldr (fun trit v => 3 * v + digitOf trit) 0

@[simp] theorem shifted_nil : shifted [] = 0 := rfl

@[simp] theorem shifted_cons (t : ℤ) (ts : List ℤ) :
    shifted (t :: ts) = 3 * shifted ts + digitOf t := rfl

theorem shifted_append (ts us : List ℤ) :
    shifted (ts ++ us) = shifted ts + 3 ^ ts.length * shifted us := by
  induction ts with
  | nil => simp
  | cons t ts ih =>
    rw [List.cons_append, shifted_cons, shifted_cons, ih, List.length_cons, Nat.pow_succ',
      Nat.mul_assoc]
    omega

section Trits

open Ternary (IsTrit Trits trits_cons)

variable {t : ℤ} {ts : List ℤ}

theorem digitOf_le (h : IsTrit t) : digitOf t ≤ 2 := by
  unfold IsTrit at h
  unfold digitOf
  omega

theorem shifted_lt (h : Trits ts) : shifted ts < 3 ^ ts.length := by
  induction ts with
  | nil => decide
  | cons t ts ih =>
    obtain ⟨ht, hts⟩ := trits_cons.mp h
    have hd := digitOf_le ht
    have hlt := ih hts
    rw [shifted_cons, List.length_cons, Nat.pow_succ]
    omega

/-- It is the number of the trits, moved up by half of the range. -/
theorem two_mul_shifted (h : Trits ts) :
    2 * (shifted ts : ℤ) = 2 * Ternary.value ts + 3 ^ ts.length - 1 := by
  induction ts with
  | nil => decide
  | cons t ts ih =>
    obtain ⟨ht, hts⟩ := trits_cons.mp h
    have hd : (digitOf t : ℤ) = t + 1 := by
      unfold IsTrit at ht
      unfold digitOf
      omega
    have hv := ih hts
    rw [shifted_cons, Ternary.value_cons, List.length_cons, pow_succ]
    push_cast
    rw [hd]
    linarith

/-- No addition carries over the third word or one above it into a further one. -/
def CarryFree (ts : List ℤ) : Prop :=
  ∀ t us, t :: us <:+ ts → ∀ k, 3 ≤ k →
    3 * shifted us < (2 ^ 32) ^ k → 3 * shifted us + digitOf t < (2 ^ 32) ^ k

theorem pow_242_lt : 3 ^ 242 < (2 ^ 32) ^ 12 := by decide

/-- **The run of the loop**, from a buffer with three clear words. -/
theorem convertLoop_holds {rest : List ℕ} (hrest : Words rest) (hlen : rest.length = 9)
    (h : Trits ts) (hl : ts.length ≤ 242) (hc : CarryFree ts) :
    Holds (convertLoop (0 :: 0 :: 0 :: rest) ts) (shifted ts) := by
  induction ts with
  | nil =>
    refine ⟨by simp [convertLoop, hlen], ?_, le_rfl, (by decide : 1 ≤ 12), rfl, fun i _ hi => ?_⟩
    · simpa [convertLoop] using hrest
    · rcases (by omega : i = 0 ∨ i = 1 ∨ i = 2) with rfl | rfl | rfl <;> rfl
  | cons t ts ih =>
    obtain ⟨ht, hts⟩ := trits_cons.mp h
    rw [List.length_cons] at hl
    have hprev := ih hts (by omega) fun u us hus => hc u us (hus.trans (List.suffix_cons t ts))
    have hd := digitOf_le ht
    have hlt : 3 * shifted ts + digitOf t < (2 ^ 32) ^ 12 := by
      have hpow : 3 ^ (t :: ts).length ≤ 3 ^ 242 := Nat.pow_le_pow_right (by decide) hl
      exact (shifted_lt h).trans_le (hpow.trans pow_242_lt.le)
    exact (hprev.multiplyByRadix (by omega)).addDigit hd hlt (hc t ts List.suffix_rfl)

end Trits

/-! ## Legible blocks -/

/-- A byte of text has a second tryte of at most 4, so in two of the trytes at the top of a block
(the last one of which is cut) there are few choices. `w` is the number of the top eleven
trits. -/
def LegibleTop (w : ℕ) : Prop :=
  (13 ≤ w % 27 ∧ w % 27 ≤ 17 ∧ 13 ≤ w / 3 ^ 6 % 27 ∧ w / 3 ^ 6 % 27 ≤ 17) ∨
    (13 ≤ w / 27 % 27 ∧ w / 27 % 27 ≤ 17 ∧ 4 ≤ w / 3 ^ 9 % 9 ∧ w / 3 ^ 9 % 9 ≤ 8)

instance (w : ℕ) : Decidable (LegibleTop w) := inferInstanceAs (Decidable (_ ∨ _))

/-- A block whose top trits are those of a text. -/
structure Legible (trits : List ℤ) : Prop where
  length : trits.length = 243
  balanced : Ternary.Trits trits
  top : LegibleTop (shifted ((trits.take 242).drop 231))

/-- None of the numbers that carry over a word has a legible top. -/
theorem not_legibleTop : ∀ k < 12, 3 ≤ k → ∀ e < 231,
    ((2 ^ 32) ^ k - 1) / 3 / 3 ^ e < 3 ^ 11 → ¬ LegibleTop (((2 ^ 32) ^ k - 1) / 3 / 3 ^ e) := by
  decide +kernel

theorem pow_mod_three (k : ℕ) : (2 ^ 32) ^ k % 3 = 1 := by
  rw [Nat.pow_mod, show 2 ^ 32 % 3 = 1 by decide, Nat.one_pow]

theorem Legible.carryFree {trits : List ℤ} (h : Legible trits) : CarryFree (trits.take 242) := by
  intro t us hus k hk hlt
  obtain ⟨pre, hpre⟩ := hus
  have htrits : Ternary.Trits (pre ++ t :: us) := hpre ▸ h.balanced.take 242
  obtain ⟨ht, hus⟩ := Ternary.trits_cons.mp (Ternary.trits_append.mp htrits).2
  have hlen : pre.length + (us.length + 1) = 242 := by
    have := congrArg List.length hpre
    rwa [List.length_append, List.length_cons, List.length_take, h.length] at this
  have hd := digitOf_le ht
  by_contra hge
  have hmod := pow_mod_three k
  have hv : shifted us = ((2 ^ 32) ^ k - 1) / 3 := by omega
  have hbound := shifted_lt hus
  have hk12 : k < 12 := by
    by_contra hk12
    have h₁ : (2 ^ 32) ^ 12 ≤ (2 ^ 32) ^ k := Nat.pow_le_pow_right (by decide) (by omega)
    have h₂ : 3 ^ us.length ≤ 3 ^ 241 := Nat.pow_le_pow_right (by decide) (by omega)
    have h₃ := pow_242_lt
    omega
  rcases Nat.lt_or_ge us.length 11 with hshort | hlong
  · -- a number this short does not reach the third word
    have h₁ : (2 ^ 32) ^ 3 ≤ (2 ^ 32) ^ k := Nat.pow_le_pow_right (by decide) hk
    have h₂ : 3 ^ us.length ≤ 3 ^ 11 := Nat.pow_le_pow_right (by decide) hshort.le
    omega
  · have htop : (trits.take 242).drop 231 = us.drop (us.length - 11) := by
      rw [← hpre, List.drop_append, List.drop_eq_nil_of_le (by omega), List.nil_append,
        show 231 - pre.length = us.length - 11 + 1 by omega, List.drop_succ_cons]
    have hdiv : shifted us / 3 ^ (us.length - 11) = shifted (us.drop (us.length - 11)) := by
      have hlow := shifted_lt (hus.take (us.length - 11))
      have hsplit := shifted_append (us.take (us.length - 11)) (us.drop (us.length - 11))
      rw [List.take_append_drop] at hsplit
      rw [List.length_take, Nat.min_eq_left (by omega)] at hlow hsplit
      rw [hsplit, Nat.add_mul_div_left _ _ (by positivity), Nat.div_eq_of_lt hlow, Nat.zero_add]
    have hleg := h.top
    have hlow := shifted_lt (hus.drop (us.length - 11))
    rw [List.length_drop, Nat.sub_sub_self hlong, ← hdiv, hv] at hlow
    rw [htop, ← hdiv, hv] at hleg
    exact not_legibleTop k hk12 hk _ (by omega) hlow hleg

/-- The number of a legible block fills all twelve words. -/
theorem Legible.le_shifted {trits : List ℤ} (h : Legible trits) :
    (2 ^ 32) ^ 11 ≤ shifted (trits.take 242) := by
  have htop : 3 ^ 5 ≤ shifted ((trits.take 242).drop 231) := by
    have := h.top
    unfold LegibleTop at this
    omega
  have hsplit := shifted_append ((trits.take 242).take 231) ((trits.take 242).drop 231)
  rw [List.take_append_drop, List.length_take, List.length_take, h.length] at hsplit
  have hpow : (2 ^ 32) ^ 11 ≤ 3 ^ 231 * 3 ^ 5 := by decide
  have := Nat.mul_le_mul_left (3 ^ 231) htop
  rw [hsplit]
  exact hpow.trans (this.trans (Nat.le_add_left _ _))

/-! ## The bytes -/

theorem words_half3 : Words half3 := by simp [half3]

theorem value_half3 : 2 * value half3 + 1 = 3 ^ 242 := by simp [half3]

theorem value_eq_zero_of_isNull (h : isNull ws = true) : value ws = 0 := by
  induction ws with
  | nil => rfl
  | cons w ws ih =>
    obtain ⟨hw, hws⟩ : w = 0 ∧ isNull ws = true := by simpa [isNull] using h
    rw [value_cons, hw, ih hws, Nat.mul_zero]

theorem subtractHalf_spec {base : List ℕ} (hw : Words base) (hlen : base.length = 12)
    (hpos : 0 < value base) :
    Words (subtractHalf base) ∧ (subtractHalf base).length = 12 ∧
      (value (subtractHalf base) : ℤ) = ((value base : ℤ) - value half3) % (2 ^ 32) ^ 12 := by
  have hnull : ¬ isNull base = true := fun h => hpos.ne' (value_eq_zero_of_isNull h)
  have hlt := value_lt hw
  have hhalf := value_lt words_half3
  rw [hlen] at hlt
  rw [subtractHalf, if_neg hnull]
  split_ifs with hcmp <;> rw [bigintCmp_le_zero_iff words_half3 hw hlen.symm] at hcmp
  · obtain ⟨hw', hlen', hval⟩ := bigintSub_spec hw words_half3 hlen hcmp
    refine ⟨hw', hlen'.trans hlen, ?_⟩
    rw [hval]
    omega
  · obtain ⟨hw', hlen', hval⟩ := bigintSub_spec words_half3 hw hlen.symm (by omega)
    obtain ⟨hw'', hlen'', hval'⟩ := negate_spec hw' (by omega)
    refine ⟨hw'', hlen''.trans hlen', ?_⟩
    rw [hlen', hval, show half3.length = 12 by rfl] at hval'
    omega

/-- **The bytes of a block** are the two's complement of the number of its trits, whatever the
buffer held before, if the run writes every word before it reads it. -/
theorem convertTritsToBytes_of_carryFree {bytes : List UInt8} {trits : List ℤ}
    (hb : bytes.length = 48) (hts : Ternary.Trits trits) (hl : trits.length = 243)
    (hc : CarryFree (trits.take 242)) (hfull : (2 ^ 32) ^ 11 ≤ shifted (trits.take 242)) :
    ∃ base, Words base ∧ base.length = 12 ∧
      (value base : ℤ) = Ternary.value (trits.take 242) % (2 ^ 32) ^ 12 ∧
      convertTritsToBytes bytes trits = (storeWords base).reverse := by
  have hlen : (trits.take 242).length = 242 := by
    rw [List.length_take, hl]
    rfl
  have hminus : ¬ (trits.take 242).all (· = -1) = true := by
    -- a block of nothing but minus ones is the number zero
    intro hall
    have hz : shifted (trits.take 242) = 0 := by
      generalize trits.take 242 = ts at hall
      induction ts with
      | nil => rfl
      | cons t ts ih =>
        rw [List.all_cons, Bool.and_eq_true, decide_eq_true_iff] at hall
        rw [shifted_cons, ih hall.2, hall.1]
        rfl
    omega
  have hrun := convertLoop_holds (words_loadWords (bytes.drop 12))
    (by rw [length_loadWords, List.length_drop, hb]) (hts.take 242) hlen.le hc
  have hsize : (convertLoop (0 :: 0 :: 0 :: loadWords (bytes.drop 12)) (trits.take 242)).2 = 12 := by
    refine Nat.le_antisymm hrun.le (Nat.lt_of_not_le fun hle => ?_)
    have hlt := hrun.lt.trans_le (Nat.pow_le_pow_right (by decide) hle)
    omega
  have hnumber := hrun.number
  rw [hsize, List.take_of_length_le hrun.length.le] at hnumber
  obtain ⟨hw, hlen', hval⟩ := subtractHalf_spec hrun.words hrun.length (by omega)
  refine ⟨_, hw, hlen', ?_, ?_⟩
  · have hshift := two_mul_shifted (hts.take 242)
    have hhalf := value_half3
    rw [hlen] at hshift
    rw [hval, hnumber]
    congr 1
    omega
  · rw [convertTritsToBytes, if_neg hminus, loadWords_memset]

/-- So it is for a legible block. -/
theorem convertTritsToBytes_spec {bytes : List UInt8} {trits : List ℤ} (hb : bytes.length = 48)
    (h : Legible trits) :
    ∃ base, Words base ∧ base.length = 12 ∧
      (value base : ℤ) = Ternary.value (trits.take 242) % (2 ^ 32) ^ 12 ∧
      convertTritsToBytes bytes trits = (storeWords base).reverse :=
  convertTritsToBytes_of_carryFree hb h.balanced h.length h.carryFree h.le_shifted

theorem length_storeWords (ws : List ℕ) : (storeWords ws).length = 4 * ws.length := by
  rw [storeWords, List.length_flatMap]
  simp
  omega

theorem length_convertTritsToBytes {bytes : List UInt8} {trits : List ℤ} (hb : bytes.length = 48)
    (h : Legible trits) : (convertTritsToBytes bytes trits).length = 48 := by
  obtain ⟨base, -, hlen, -, heq⟩ := convertTritsToBytes_spec hb h
  rw [heq, List.length_reverse, length_storeWords, hlen]

/-- **Legible blocks have the same bytes where they have the same trits**, but for the last one. -/
theorem convertTritsToBytes_eq_iff {bytes bytes' : List UInt8} {trits trits' : List ℤ}
    (hb : bytes.length = 48) (hb' : bytes'.length = 48) (h : Legible trits) (h' : Legible trits') :
    convertTritsToBytes bytes trits = convertTritsToBytes bytes' trits' ↔
      trits.take 242 = trits'.take 242 := by
  obtain ⟨base, hw, hlen, hval, heq⟩ := convertTritsToBytes_spec hb h
  obtain ⟨base', hw', hlen', hval', heq'⟩ := convertTritsToBytes_spec hb' h'
  rw [heq, heq']
  constructor
  · intro hbytes
    have hbase : base = base' := by
      rw [← loadWords_storeWords hw, List.reverse_injective hbytes, loadWords_storeWords hw']
    have hl : (trits.take 242).length = 242 := by simp [h.length]
    have hl' : (trits'.take 242).length = 242 := by simp [h'.length]
    have habs := Ternary.two_mul_abs_lt.mp (Ternary.two_mul_abs_value_lt (h.balanced.take 242))
    have habs' := Ternary.two_mul_abs_lt.mp (Ternary.two_mul_abs_value_lt (h'.balanced.take 242))
    have hpow : (3 : ℤ) ^ 242 < (2 ^ 32) ^ 12 := by decide
    rw [hl] at habs
    rw [hl'] at habs'
    rw [← hbase, hval] at hval'
    exact Ternary.value_injective (h.balanced.take 242) (h'.balanced.take 242) (hl.trans hl'.symm)
      (by omega)
  · intro htrits
    have hbase : base = base' := by
      refine value_injective hw hw' (hlen.trans hlen'.symm) ?_
      rw [htrits, ← hval'] at hval
      exact_mod_cast hval
    rw [hbase]

end Kerl

end Entangled
