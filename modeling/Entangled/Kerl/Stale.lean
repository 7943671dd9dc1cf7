import Entangled.Kerl.Converter
/-!
# What the buffer held before

`convert_trits_to_bytes` clears three of the twelve words it gathers the number in. The other nine
are right where a multiplication's carry writes them first, and that is so exactly where no
addition carries into a further word (`CarryFree`) and the number fills all twelve words. Where it
is not so, one stale word of value 1 in the right place is added to the number, shifted by what is
still to be multiplied (`exists_stale`), and the bytes are those of another number.
-/

namespace Entangled

namespace Kerl

open Bigint

/-! ## The number of a string of bytes -/

/-- 48 bytes as a number, the highest byte first. -/
def unsigned (bytes : List UInt8) : ℕ := Nat.ofDigits (2 ^ 8) (bytes.reverse.map UInt8.toNat)

/-- 48 bytes as a number in two's complement, the highest byte first. -/
def signed (bytes : List UInt8) : ℤ := Int.bmod (unsigned bytes) ((2 ^ 32) ^ 12)

theorem value_loadWords {bytes : List UInt8} (h : 4 ∣ bytes.length) :
    value (loadWords bytes) = Nat.ofDigits (2 ^ 8) (bytes.map UInt8.toNat) := by
  fun_induction loadWords bytes with
  | case1 b₀ b₁ b₂ b₃ bytes ih =>
    have hlen : 4 ∣ bytes.length := by
      simp only [List.length_cons] at h
      omega
    rw [value_cons, ih hlen]
    simp only [List.map_cons, Nat.ofDigits_cons]
    omega
  | case2 bytes hshort =>
    rcases bytes with _ | ⟨b₀, _ | ⟨b₁, _ | ⟨b₂, _ | ⟨b₃, bytes⟩⟩⟩⟩
    · rfl
    · exact absurd h (by simp)
    · exact absurd h (by simp)
    · exact absurd h (by simp)
    · exact absurd rfl (hshort b₀ b₁ b₂ b₃ bytes)

theorem unsigned_storeWords {ws : List ℕ} (h : Words ws) :
    unsigned (storeWords ws).reverse = value ws := by
  rw [unsigned, List.reverse_reverse,
    ← value_loadWords ⟨ws.length, length_storeWords ws⟩, loadWords_storeWords h]

theorem unsigned_eq {bytes : List UInt8} (h : bytes.length = 48) :
    unsigned bytes = value (loadWords bytes.reverse) := by
  rw [unsigned, value_loadWords (by rw [List.length_reverse, h]; decide)]

theorem unsigned_lt {bytes : List UInt8} (h : bytes.length = 48) : unsigned bytes < (2 ^ 32) ^ 12 := by
  have hlt := value_lt (words_loadWords bytes.reverse)
  rw [← unsigned_eq h, length_loadWords, List.length_reverse, h] at hlt
  exact hlt

/-! ## The words the run leaves alone -/

variable {ws : List ℕ} {ts us : List ℤ} {p : List ℕ × ℕ} {v d k : ℕ}

theorem drop_eq_of_drop_eq {l l' : List ℕ} {m n : ℕ} (h : l.drop m = l'.drop m) (hn : m ≤ n) :
    l.drop n = l'.drop n := by
  have hdrop := congrArg (List.drop (n - m)) h
  rwa [List.drop_drop, List.drop_drop, Nat.add_sub_cancel' hn] at hdrop

theorem drop_mulRadix (sz : ℕ) (ws : List ℕ) (carry : ℕ) :
    (mulRadix sz ws carry).1.drop sz = ws.drop sz := by
  fun_induction mulRadix sz ws carry with
  | case1 sz w ws carry v r ih => exact ih
  | case2 => rfl

theorem drop_multiplyByRadix (p : List ℕ × ℕ) :
    (multiplyByRadix p).1.drop (multiplyByRadix p).2 = p.1.drop (multiplyByRadix p).2 := by
  have hdrop := drop_mulRadix p.2 p.1 0
  unfold multiplyByRadix
  dsimp only
  split_ifs
  · rw [List.drop_set_of_lt (Nat.lt_succ_self _)]
    exact drop_eq_of_drop_eq hdrop (Nat.le_succ _)
  · exact hdrop

theorem drop_addDigit (d : ℕ) (p : List ℕ × ℕ) :
    (addDigit d p).1.drop (addDigit d p).2 = p.1.drop (addDigit d p).2 := by
  refine drop_eq_of_drop_eq (drop_bigintAddSmall p.1 d) ?_
  unfold addDigit
  dsimp only
  split_ifs <;> omega

theorem le_multiplyByRadix (p : List ℕ × ℕ) : p.2 ≤ (multiplyByRadix p).2 := by
  unfold multiplyByRadix
  dsimp only
  split_ifs <;> omega

theorem le_addDigit (d : ℕ) (p : List ℕ × ℕ) : p.2 ≤ (addDigit d p).2 := by
  unfold addDigit
  dsimp only
  split_ifs <;> omega

/-- The words behind those that count are the ones the run began with. -/
theorem drop_convertLoop (base : List ℕ) (ts : List ℤ) :
    (convertLoop base ts).1.drop (convertLoop base ts).2 =
      base.drop (convertLoop base ts).2 := by
  induction ts with
  | nil => rfl
  | cons t ts ih =>
    have hstep : convertLoop base (t :: ts) =
        addDigit (digitOf t) (multiplyByRadix (convertLoop base ts)) := rfl
    have hmul := drop_multiplyByRadix (convertLoop base ts)
    have hle := le_multiplyByRadix (convertLoop base ts)
    rw [hstep, drop_addDigit, drop_eq_of_drop_eq hmul (le_addDigit _ _)]
    exact drop_eq_of_drop_eq ih (hle.trans (le_addDigit _ _))

/-! ## No more words than the number needs -/

/-- A size that is not larger than the number asks for. -/
def Tight (p : List ℕ × ℕ) (v : ℕ) : Prop := ∀ m, 1 ≤ m → v < (2 ^ 32) ^ m → p.2 ≤ m

theorem lt_of_room {v m n : ℕ} (hv : v < (2 ^ 32) ^ m) (hn : (2 ^ 32) ^ n ≤ v) : n < m := by
  by_contra hle
  have hpow : (2 ^ 32) ^ m ≤ (2 ^ 32) ^ n := Nat.pow_le_pow_right (by decide) (by omega)
  omega

theorem Tight.multiplyByRadix (h : Holds p v) (ht : Tight p v) :
    Tight (multiplyByRadix p) (3 * v) := by
  intro m hm hroom
  obtain ⟨-, -, -, -, hsum⟩ := mulRadix_spec h.words (h.length ▸ h.le) (show 0 < 3 by decide)
  rw [h.number] at hsum
  have hle := ht m hm (by omega)
  unfold Kerl.multiplyByRadix
  dsimp only
  split_ifs with hcarry
  · have hpast : (2 ^ 32) ^ p.2 ≤ 3 * v := by
      have := Nat.mul_le_mul_left ((2 ^ 32) ^ p.2) (Nat.one_le_iff_ne_zero.mpr hcarry)
      omega
    exact lt_of_room hroom hpast
  · exact hle

theorem Tight.addDigit (h : Holds p v) (ht : Tight p v) (hd : d ≤ 2)
    (hcarry : ∀ k, 3 ≤ k → v < (2 ^ 32) ^ k → v + d < (2 ^ 32) ^ k) (hv : v + d < (2 ^ 32) ^ 12) :
    Tight (addDigit d p) (v + d) := by
  intro m hm hroom
  have hle := ht m hm (by omega)
  have htouched : (bigintAddSmall p.1 d).2 ≤ m := by
    rcases Nat.lt_or_ge (v + d) ((2 ^ 32) ^ p.2) with hsmall | hlarge
    · have hspec := bigintAddSmall_spec (m := p.2) (by omega : d < 2 ^ 32) h.words h.pos
        (by rw [h.length]; exact h.le) (by rwa [h.number])
      exact hspec.1.trans hle
    · -- the carry goes into a word that is still clear
      have hlow : p.2 < 3 := by
        by_contra hge
        exact absurd (hcarry p.2 (by omega) h.lt) (by omega)
      have hlen := h.length
      have htake : value (p.1.take (p.2 + 1)) = v := by
        rw [value_take_succ (by omega), h.number, h.clear p.2 le_rfl hlow, Nat.mul_zero,
          Nat.add_zero]
      have hlt := h.lt
      have hpow := room_succ p.2
      have hspec := bigintAddSmall_spec (m := p.2 + 1) (by omega : d < 2 ^ 32) h.words (by omega)
        (by omega) (by rw [htake]; omega)
      exact hspec.1.trans (lt_of_room hroom hlarge)
  unfold Kerl.addDigit
  dsimp only
  split_ifs
  · exact htouched
  · exact hle

section Trits

open Ternary (Trits trits_cons)

theorem CarryFree.tail {t : ℤ} (h : CarryFree (t :: ts)) : CarryFree ts :=
  fun u us hus => h u us (hus.trans (List.suffix_cons t ts))

theorem three_mul_shifted_lt (h : Trits ts) (hl : ts.length < 242) :
    3 * shifted ts + 2 < (2 ^ 32) ^ 12 := by
  have hlt := shifted_lt h
  have hpow : 3 ^ ts.length * 3 ≤ 3 ^ 242 :=
    (pow_succ 3 ts.length).symm.trans_le (Nat.pow_le_pow_right (by decide) hl)
  have hroom := pow_242_lt
  omega

theorem convertLoop_tight {rest : List ℕ} (hrest : Words rest) (hlen : rest.length = 9)
    (h : Trits ts) (hl : ts.length ≤ 242) (hc : CarryFree ts) :
    Tight (convertLoop (0 :: 0 :: 0 :: rest) ts) (shifted ts) := by
  induction ts with
  | nil => exact fun m hm _ => hm
  | cons t ts ih =>
    obtain ⟨ht, hts⟩ := trits_cons.mp h
    rw [List.length_cons] at hl
    have hprev := convertLoop_holds hrest hlen hts (by omega) hc.tail
    have hd := digitOf_le ht
    have hroom := three_mul_shifted_lt hts (by omega)
    have hsum : 3 * shifted ts + digitOf t < (2 ^ 32) ^ 12 := by omega
    exact ((ih hts (by omega) hc.tail).multiplyByRadix hprev).addDigit
      (hprev.multiplyByRadix (by omega)) hd (hc t ts List.suffix_rfl) hsum

end Trits

/-! ## A run in which no word behind is left -/

/-- The whole buffer is the number, modulo its room. -/
structure Tracks (p : List ℕ × ℕ) (v : ℕ) : Prop where
  length : p.1.length = 12
  words : Words p.1
  number : value p.1 = v % (2 ^ 32) ^ 12
  clear : value (p.1.drop p.2) = 0

theorem mulRadix_of_le {sz : ℕ} (h : ws.length ≤ sz) (carry : ℕ) :
    mulRadix sz ws carry = mulRadix ws.length ws carry := by
  induction ws generalizing sz carry with
  | nil =>
    rcases sz with _ | sz
    · rfl
    · rfl
  | cons w ws ih =>
    obtain ⟨sz, rfl⟩ : ∃ n, sz = n + 1 := ⟨sz - 1, by rw [List.length_cons] at h; omega⟩
    rw [mulRadix, List.length_cons, mulRadix, ih (by simpa using h)]

theorem eq_mod_of_words {x M : ℕ} (hw : Words ws) (hM : (2 ^ 32) ^ ws.length = M)
    (h : value ws % M = x % M) : value ws = x % M := by
  have hlt := value_lt hw
  rw [hM] at hlt
  rw [← h, Nat.mod_eq_of_lt hlt]

theorem Words.set (hw : Words ws) {w : ℕ} (h : w < 2 ^ 32) (i : ℕ) : Words (ws.set i w) := by
  intro x hx
  rcases List.mem_or_eq_of_mem_set hx with hx | rfl
  · exact hw x hx
  · exact h

/-- A word written where nothing but zeros stood. -/
theorem value_set_of_clear {m c : ℕ} (hm : m < ws.length) (h : value (ws.drop m) = 0) :
    value (ws.set m c) = value (ws.take m) + (2 ^ 32) ^ m * c ∧ value (ws.drop (m + 1)) = 0 := by
  rw [List.drop_eq_getElem_cons hm, value_cons] at h
  have hclear : value (ws.drop (m + 1)) = 0 := by omega
  refine ⟨?_, hclear⟩
  rw [List.set_eq_take_append_cons_drop, if_pos hm, value_append, value_cons, hclear,
    List.length_take, Nat.min_eq_left hm.le, Nat.mul_zero, Nat.add_zero]

theorem Tracks.multiplyByRadix (h : Tracks p v) : Tracks (multiplyByRadix p) (3 * v) := by
  obtain ⟨hlen, hwords, hnum, hclear⟩ := h
  have hmod : 3 * v % (2 ^ 32) ^ 12 = 3 * value p.1 % (2 ^ 32) ^ 12 := by
    rw [hnum, Nat.mul_mod_mod]
  unfold Kerl.multiplyByRadix
  dsimp only
  rcases Nat.lt_or_ge p.2 12 with hsize | hsize
  · obtain ⟨hc, hw', hlen', hdrop, hsum⟩ := mulRadix_spec hwords (by omega : p.2 ≤ p.1.length)
      (show 0 < 3 by decide)
    have hsplit := value_append (p.1.take p.2) (p.1.drop p.2)
    have hsplit' := value_append ((mulRadix p.2 p.1 0).1.take p.2) ((mulRadix p.2 p.1 0).1.drop p.2)
    rw [List.take_append_drop, hclear, Nat.mul_zero, Nat.add_zero] at hsplit
    rw [List.take_append_drop, hdrop, hclear, Nat.mul_zero, Nat.add_zero] at hsplit'
    rw [← hdrop] at hclear
    rw [← hsplit, Nat.add_zero] at hsum
    split_ifs with hcarry
    · obtain ⟨hset, hbehind⟩ := value_set_of_clear (c := (mulRadix p.2 p.1 0).2)
        (by omega : p.2 < (mulRadix p.2 p.1 0).1.length) hclear
      have hwset := Words.set hw' (by omega : (mulRadix p.2 p.1 0).2 < 2 ^ 32) p.2
      have hlset : ((mulRadix p.2 p.1 0).1.set p.2 (mulRadix p.2 p.1 0).2).length = 12 := by
        rw [List.length_set, hlen', hlen]
      refine ⟨hlset, hwset, eq_mod_of_words hwset (by rw [hlset]) ?_, ?_⟩
      · rw [hset, hsum, hmod]
      · rw [List.drop_set_of_lt (Nat.lt_succ_self _)]
        exact hbehind
    · rw [not_not.mp hcarry, Nat.mul_zero, Nat.add_zero, ← hsplit'] at hsum
      exact ⟨hlen'.trans hlen, hw', eq_mod_of_words hw' (by rw [hlen', hlen]) (by rw [hsum, hmod]),
        hclear⟩
  · -- all words are multiplied, and what is carried out of the last one is lost
    rw [mulRadix_of_le (by omega : p.1.length ≤ p.2)]
    obtain ⟨hc, hw', hlen', -, hsum⟩ := mulRadix_spec hwords (le_refl p.1.length)
      (show 0 < 3 by decide)
    rw [List.take_of_length_le hlen'.le, List.take_of_length_le le_rfl, hlen, Nat.add_zero] at hsum
    rw [hlen] at hw' hlen' ⊢
    have hset : (mulRadix 12 p.1 0).1.set p.2 (mulRadix 12 p.1 0).2 = (mulRadix 12 p.1 0).1 :=
      List.set_eq_of_length_le (by omega)
    have hval : value (mulRadix 12 p.1 0).1 = 3 * v % (2 ^ 32) ^ 12 := by
      refine eq_mod_of_words hw' (by rw [hlen']) ?_
      rw [hmod, ← hsum, Nat.add_mul_mod_self_left]
    rw [hset]
    have hbehind : ∀ n, 12 ≤ n → value ((mulRadix 12 p.1 0).1.drop n) = 0 := by
      intro n hn
      rw [List.drop_eq_nil_of_le (by omega), value_nil]
    split_ifs
    · exact ⟨hlen', hw', hval, hbehind _ (by dsimp only; omega)⟩
    · exact ⟨hlen', hw', hval, hbehind _ hsize⟩

theorem value_drop_of_le {m n : ℕ} (hmn : m ≤ n) (h : value (ws.drop m) = 0) :
    value (ws.drop n) = 0 := by
  have hsplit := value_append ((ws.drop m).take (n - m)) ((ws.drop m).drop (n - m))
  rw [List.take_append_drop, h, List.drop_drop, Nat.add_sub_cancel' hmn] at hsplit
  have hpos : 0 < (2 ^ 32) ^ ((ws.drop m).take (n - m)).length := by positivity
  have hzero : (2 ^ 32) ^ ((ws.drop m).take (n - m)).length * value (ws.drop n) = 0 := by omega
  exact (Nat.mul_eq_zero.mp hzero).resolve_left hpos.ne'

theorem Tracks.addDigit (h : Tracks p v) (hd : d ≤ 2) : Tracks (addDigit d p) (v + d) := by
  obtain ⟨hlen, hwords, hnum, hclear⟩ := h
  obtain ⟨hval, hw', hlen'⟩ := value_bigintAddSmall (by omega : d < 2 ^ 32) hwords
  refine ⟨hlen'.trans hlen, hw', ?_, ?_⟩
  · change value (bigintAddSmall p.1 d).1 = _
    rw [hval, hlen, hnum, Nat.mod_add_mod]
  · rw [drop_addDigit]
    exact value_drop_of_le (le_addDigit d p) hclear

open Ternary (Trits trits_cons) in
/-- The run over the trits that are still to come. -/
theorem Tracks.foldr (h : Tracks p v) (hts : Trits ts) :
    Tracks (ts.foldr (fun trit p => Kerl.addDigit (digitOf trit) (Kerl.multiplyByRadix p)) p)
      (shifted ts + 3 ^ ts.length * v) := by
  induction ts with
  | nil => simpa using h
  | cons t ts ih =>
    obtain ⟨ht, hts⟩ := trits_cons.mp hts
    have hstep := (ih hts).multiplyByRadix.addDigit (digitOf_le ht)
    have hval : shifted (t :: ts) + 3 ^ (t :: ts).length * v =
        3 * (shifted ts + 3 ^ ts.length * v) + digitOf t := by
      rw [shifted_cons, List.length_cons, pow_succ]
      ring
    rw [List.foldr_cons, hval]
    exact hstep

/-! ## One stale word -/

/-- Nine words behind the clear ones, of which word `k` of the number is 1. -/
def staleWord (k : ℕ) : List ℕ := (List.replicate 9 0).set (k - 3) 1

theorem length_staleWord (k : ℕ) : (staleWord k).length = 9 := by
  rw [staleWord, List.length_set, List.length_replicate]

theorem words_staleWord (k : ℕ) : Words (staleWord k) := by
  refine Words.set (fun w hw => ?_) (by decide) _
  rw [List.eq_of_mem_replicate hw]
  decide

theorem value_drop_staleWord : ∀ k < 12, 3 ≤ k → ∀ m ≤ k,
    value ((0 :: 0 :: 0 :: staleWord k).drop m) * (2 ^ 32) ^ m = (2 ^ 32) ^ k := by
  decide +kernel

/-- As long as the number stays below the stale word, the word is only added. -/
theorem value_of_drop_staleWord (hlen : p.1.length = 12) (hk : 3 ≤ k) (hk12 : k < 12)
    (hsize : p.2 ≤ k) (hnum : value (p.1.take p.2) = v)
    (hdrop : p.1.drop p.2 = (0 :: 0 :: 0 :: staleWord k).drop p.2) :
    value p.1 = v + (2 ^ 32) ^ k := by
  have hsplit := value_append (p.1.take p.2) (p.1.drop p.2)
  rw [List.take_append_drop, hdrop, List.length_take, hlen, Nat.min_eq_left (by omega), hnum,
    Nat.mul_comm, value_drop_staleWord k hk12 hk p.2 hsize] at hsplit
  exact hsplit

section Trits

open Ternary (Trits trits_cons trits_append)

/-- **A carry into the stale word** makes it a word of the number. -/
theorem tracks_of_carry {t : ℤ} (ht : Ternary.IsTrit t) (hus : Trits us) (hl : us.length < 242)
    (hc : CarryFree us) (hk : 3 ≤ k) (hlow : 3 * shifted us < (2 ^ 32) ^ k)
    (hhigh : (2 ^ 32) ^ k ≤ 3 * shifted us + digitOf t) :
    Tracks (convertLoop (0 :: 0 :: 0 :: staleWord k) (t :: us))
      (shifted (t :: us) + (2 ^ 32) ^ k) := by
  have hroom := three_mul_shifted_lt hus hl
  have hd := digitOf_le ht
  have hk12 : k < 12 := by
    by_contra hge
    have hpow : (2 ^ 32) ^ 12 ≤ (2 ^ 32) ^ k := Nat.pow_le_pow_right (by decide) (by omega)
    omega
  have hrun := convertLoop_holds (words_staleWord k) (length_staleWord k) hus hl.le hc
  have htight := convertLoop_tight (words_staleWord k) (length_staleWord k) hus hl.le hc
  have hdrop := drop_convertLoop (0 :: 0 :: 0 :: staleWord k) us
  have hstep : convertLoop (0 :: 0 :: 0 :: staleWord k) (t :: us) =
      addDigit (digitOf t) (multiplyByRadix (convertLoop (0 :: 0 :: 0 :: staleWord k) us)) := rfl
  rw [hstep]
  generalize convertLoop (0 :: 0 :: 0 :: staleWord k) us = q at hrun htight hdrop ⊢
  -- after the multiplication the stale word is the first one behind the number
  have hmul := hrun.multiplyByRadix (by omega)
  have hsize := htight.multiplyByRadix hrun k (by omega) hlow
  have hdrop' := (drop_multiplyByRadix q).trans (drop_eq_of_drop_eq hdrop (le_multiplyByRadix q))
  generalize multiplyByRadix q = r at hmul hsize hdrop' ⊢
  have hvr := value_of_drop_staleWord hmul.length hk hk12 hsize hmul.number hdrop'
  obtain ⟨hval, hw', hlen'⟩ := value_bigintAddSmall (by omega : digitOf t < 2 ^ 32) hmul.words
  have hlt : (2 ^ 32) ^ (k + 1) ≤ (2 ^ 32) ^ 12 := Nat.pow_le_pow_right (by decide) hk12
  have hpow := room_succ k
  have hsum : value (addDigit (digitOf t) r).1 = 3 * shifted us + digitOf t + (2 ^ 32) ^ k := by
    change value (bigintAddSmall r.1 (digitOf t)).1 = _
    rw [hval, hmul.length, hvr, Nat.mod_eq_of_lt (by omega)]
    omega
  have hgrown : k + 1 ≤ (addDigit (digitOf t) r).2 := by
    -- else the words below the stale one would have to hold as much again
    by_contra hle
    have hle' : (addDigit (digitOf t) r).2 ≤ k := by omega
    have hbehind : (addDigit (digitOf t) r).1.drop k = (0 :: 0 :: 0 :: staleWord k).drop k := by
      rw [drop_eq_of_drop_eq (drop_addDigit (digitOf t) r) hle', drop_eq_of_drop_eq hdrop' hsize]
    have hlenk : ((addDigit (digitOf t) r).1.take k).length = k := by
      rw [List.length_take, show (addDigit (digitOf t) r).1.length = 12 from hlen'.trans hmul.length]
      omega
    have hsplit := value_append ((addDigit (digitOf t) r).1.take k)
      ((addDigit (digitOf t) r).1.drop k)
    rw [List.take_append_drop, hbehind, hlenk, Nat.mul_comm,
      value_drop_staleWord k hk12 hk k le_rfl, hsum] at hsplit
    have hlow' := value_lt (Words.take hw' k)
    rw [show (bigintAddSmall r.1 (digitOf t)).1.take k = (addDigit (digitOf t) r).1.take k from rfl,
      hlenk] at hlow'
    omega
  refine ⟨hlen'.trans hmul.length, hw', ?_, ?_⟩
  · rw [hsum, shifted_cons, Nat.mod_eq_of_lt (by omega)]
  · refine value_drop_of_le hgrown ?_
    have hsplit := value_append ((addDigit (digitOf t) r).1.take (k + 1))
      ((addDigit (digitOf t) r).1.drop (k + 1))
    rw [List.take_append_drop, hsum, List.length_take,
      show (addDigit (digitOf t) r).1.length = 12 from hlen'.trans hmul.length,
      Nat.min_eq_left (by omega)] at hsplit
    by_contra hne
    have := Nat.mul_le_mul_left ((2 ^ 32) ^ (k + 1)) (Nat.one_le_iff_ne_zero.mpr hne)
    omega

/-- The trits for which every word is written before it counts. -/
def Overwrites (ts : List ℤ) : Prop := CarryFree ts ∧ (2 ^ 32) ^ 11 ≤ shifted ts

/-- The last of the trits, in the order of the run, before a carry goes wrong. -/
theorem exists_first_carry (h : ¬ CarryFree ts) :
    ∃ pre t us, ts = pre ++ t :: us ∧ CarryFree us ∧ ∃ k, 3 ≤ k ∧
      3 * shifted us < (2 ^ 32) ^ k ∧ (2 ^ 32) ^ k ≤ 3 * shifted us + digitOf t := by
  induction ts with
  | nil =>
    refine absurd (fun t us hus => ?_) h
    exact absurd (List.suffix_nil.mp hus) (by simp)
  | cons t ts ih =>
    by_cases hts : CarryFree ts
    · -- the carry is at the trit itself
      unfold CarryFree at h
      push Not at h
      obtain ⟨u, us, hus, k, hk, hlow, hhigh⟩ := h
      rcases List.suffix_cons_iff.mp hus with heq | hsuf
      · obtain ⟨rfl, rfl⟩ := List.cons.inj heq
        exact ⟨[], u, us, rfl, hts, k, hk, hlow, hhigh⟩
      · exact absurd (hts u us hsuf k hk hlow) (by omega)
    · obtain ⟨pre, u, us, rfl, hus, k, hk, hlow, hhigh⟩ := ih hts
      exact ⟨t :: pre, u, us, rfl, hus, k, hk, hlow, hhigh⟩

/-- **Where a word is not overwritten, it is added**, shifted by the trits still to come. -/
theorem exists_stale (h : Trits ts) (hl : ts.length = 242) (hover : ¬ Overwrites ts) :
    ∃ j k, 3 ≤ k ∧ k < 12 ∧
      (convertLoop (0 :: 0 :: 0 :: staleWord k) ts).1.length = 12 ∧
      Words (convertLoop (0 :: 0 :: 0 :: staleWord k) ts).1 ∧
      value (convertLoop (0 :: 0 :: 0 :: staleWord k) ts).1 =
        (shifted ts + 3 ^ j * (2 ^ 32) ^ k) % (2 ^ 32) ^ 12 := by
  by_cases hc : CarryFree ts
  · -- the number is too short, and the twelfth word is read in the end
    have hshort : shifted ts < (2 ^ 32) ^ 11 := by
      by_contra hge
      exact hover ⟨hc, by omega⟩
    have hrun := convertLoop_holds (words_staleWord 11) (length_staleWord 11) h hl.le hc
    have hsize := convertLoop_tight (words_staleWord 11) (length_staleWord 11) h hl.le hc 11
      (by decide) hshort
    have hval := value_of_drop_staleWord hrun.length (by decide) (by decide) hsize hrun.number
      (drop_convertLoop _ _)
    have hpow := room_succ 11
    refine ⟨0, 11, by decide, by decide, hrun.length, hrun.words, ?_⟩
    rw [hval, pow_zero, Nat.one_mul, Nat.mod_eq_of_lt (by omega)]
  · obtain ⟨pre, t, us, rfl, hus, k, hk, hlow, hhigh⟩ := exists_first_carry hc
    obtain ⟨hpre, htus⟩ := trits_append.mp h
    obtain ⟨ht, hus'⟩ := trits_cons.mp htus
    rw [List.length_append, List.length_cons] at hl
    have hlt : us.length < 242 := by omega
    have hroom := three_mul_shifted_lt hus' hlt
    have hd := digitOf_le ht
    have hk12 : k < 12 := by
      by_contra hge
      have hpow : (2 ^ 32) ^ 12 ≤ (2 ^ 32) ^ k := Nat.pow_le_pow_right (by decide) (by omega)
      omega
    have htracks := (tracks_of_carry ht hus' hlt hus hk hlow hhigh).foldr hpre
    have hrun : convertLoop (0 :: 0 :: 0 :: staleWord k) (pre ++ t :: us) =
        pre.foldr (fun trit p => addDigit (digitOf trit) (multiplyByRadix p))
          (convertLoop (0 :: 0 :: 0 :: staleWord k) (t :: us)) := List.foldr_append
    rw [← hrun] at htracks
    refine ⟨pre.length, k, hk, hk12, htracks.length, htracks.words, ?_⟩
    rw [htracks.number, shifted_append, Nat.mul_add, Nat.add_assoc]

end Trits

/-! ## The bytes -/

section Bytes

open Ternary (Trits)

variable {bytes : List UInt8} {trits : List ℤ}

/-- The trits of which the conversion makes the right bytes, whatever it finds: all of them -1, which
is a case of its own, or such that every word is overwritten. -/
def Determined (trits : List ℤ) : Prop :=
  (trits.take 242).all (· = -1) = true ∨ Overwrites (trits.take 242)

theorem cast_room : (((2 ^ 32) ^ 12 : ℕ) : ℤ) = (2 ^ 32) ^ 12 := by norm_num

theorem bmod_of_eq_emod {n M : ℕ} {x : ℤ} (h : (n : ℤ) = x % M) : Int.bmod n M = Int.bmod x M := by
  rw [h, Int.emod_bmod]

theorem signed_eq {n : ℕ} (h : unsigned bytes = n) : signed bytes = Int.bmod n ((2 ^ 32) ^ 12) :=
  congrArg (fun n : ℕ => Int.bmod n ((2 ^ 32) ^ 12)) h

theorem signed_storeWords {base : List ℕ} (hw : Words base) {x : ℤ}
    (hval : (value base : ℤ) = x % (2 ^ 32) ^ 12) :
    signed (storeWords base).reverse = Int.bmod x ((2 ^ 32) ^ 12) :=
  (signed_eq (unsigned_storeWords hw)).trans (bmod_of_eq_emod (by rw [hval, cast_room]))

/-- What 242 trits can spell is far from the ends of what 48 bytes can. -/
theorem bmod_value (hts : Trits ts) (hl : ts.length = 242) :
    Int.bmod (Ternary.value ts) ((2 ^ 32) ^ 12) = Ternary.value ts := by
  have habs := Ternary.two_mul_abs_lt.mp (Ternary.two_mul_abs_value_lt hts)
  have hpow : (3 : ℤ) ^ 242 < ((2 ^ 32) ^ 12 : ℕ) := by
    exact_mod_cast pow_242_lt
  rw [hl] at habs
  generalize (2 ^ 32) ^ 12 = M at hpow ⊢
  exact Int.bmod_eq_of_le_mul_two (by omega) (by omega)

theorem shifted_of_all_minus (h : ts.all (· = -1) = true) : shifted ts = 0 := by
  induction ts with
  | nil => rfl
  | cons t ts ih =>
    rw [List.all_cons, Bool.and_eq_true, decide_eq_true_iff] at h
    rw [shifted_cons, ih h.2, h.1]
    rfl

theorem all_minus_of_shifted (hts : Trits ts) (h : shifted ts = 0) :
    ts.all (· = -1) = true := by
  induction ts with
  | nil => rfl
  | cons t ts ih =>
    obtain ⟨ht, hts⟩ := Ternary.trits_cons.mp hts
    rw [shifted_cons] at h
    have hd : digitOf t = 0 := by omega
    rw [List.all_cons, Bool.and_eq_true, decide_eq_true_iff]
    refine ⟨?_, ih hts (by omega)⟩
    unfold digitOf at hd
    unfold Ternary.IsTrit at ht
    omega

theorem two_mul_shifted_take (hts : Trits trits) (hl : trits.length = 243) :
    (shifted (trits.take 242) : ℤ) = Ternary.value (trits.take 242) + value half3 := by
  have hshift := two_mul_shifted (hts.take 242)
  have hhalf := value_half3
  rw [List.length_take, hl, Nat.min_eq_left (by decide)] at hshift
  omega

/-- **Where every word is overwritten** the bytes are the number of the trits. -/
theorem signed_convertTritsToBytes (hb : bytes.length = 48) (hts : Trits trits)
    (hl : trits.length = 243) (h : Determined trits) :
    (convertTritsToBytes bytes trits).length = 48 ∧
      signed (convertTritsToBytes bytes trits) = Ternary.value (trits.take 242) := by
  have hlen : (trits.take 242).length = 242 := by
    rw [List.length_take, hl]
    rfl
  obtain ⟨base, hw, hlen', hval, heq⟩ : ∃ base, Words base ∧ base.length = 12 ∧
      (value base : ℤ) = Ternary.value (trits.take 242) % (2 ^ 32) ^ 12 ∧
      convertTritsToBytes bytes trits = (storeWords base).reverse := by
    rcases h with hall | ⟨hc, hfull⟩
    · obtain ⟨hw, hlen', hval⟩ := negate_spec words_half3 (by have := value_half3; omega)
      refine ⟨_, hw, hlen', ?_, ?_⟩
      · have hshift := two_mul_shifted_take hts hl
        rw [shifted_of_all_minus hall] at hshift
        rw [show half3.length = 12 by rfl] at hval
        have hhalf := value_half3
        omega
      · rw [convertTritsToBytes, if_pos hall]
    · exact convertTritsToBytes_of_carryFree hb hts hl hc hfull
  rw [heq]
  refine ⟨by rw [List.length_reverse, length_storeWords, hlen'], ?_⟩
  rw [signed_storeWords hw hval, bmod_value (hts.take 242) hlen]

theorem isNull_of_value (h : value ws = 0) : isNull ws = true := by
  induction ws with
  | nil => rfl
  | cons w ws ih =>
    rw [value_cons] at h
    obtain rfl : w = 0 := by omega
    have hws := ih (by omega)
    simpa [isNull] using hws

/-- The end of the conversion keeps what the words are modulo their room, but for the number zero,
of which nothing is subtracted. -/
theorem signed_subtractHalf {base : List ℕ} (hw : Words base) (hlen : base.length = 12) :
    (storeWords (subtractHalf base)).reverse.length = 48 ∧
      signed (storeWords (subtractHalf base)).reverse =
        if value base = 0 then 0 else Int.bmod ((value base : ℤ) - value half3) ((2 ^ 32) ^ 12) := by
  split_ifs with hzero
  · rw [subtractHalf, if_pos (isNull_of_value hzero)]
    refine ⟨by rw [List.length_reverse, length_storeWords, hlen], ?_⟩
    exact (signed_eq ((unsigned_storeWords hw).trans hzero)).trans Int.zero_bmod
  · obtain ⟨hw', hlen', hval⟩ := subtractHalf_spec hw hlen (Nat.pos_of_ne_zero hzero)
    exact ⟨by rw [List.length_reverse, length_storeWords, hlen'], signed_storeWords hw' hval⟩

/-- **From a buffer of zeros** the bytes are right for all trits. -/
theorem signed_convertTritsToBytes_zeroed (hts : Trits trits) (hl : trits.length = 243) :
    (convertTritsToBytes (List.replicate 48 0) trits).length = 48 ∧
      signed (convertTritsToBytes (List.replicate 48 0) trits) =
        Ternary.value (trits.take 242) := by
  by_cases hall : (trits.take 242).all (· = -1) = true
  · exact signed_convertTritsToBytes List.length_replicate hts hl (.inl hall)
  have hlen : (trits.take 242).length = 242 := by
    rw [List.length_take, hl]
    rfl
  have hstart : Tracks (List.replicate 12 0, 1) 0 :=
    ⟨rfl, fun w hw => by rw [List.eq_of_mem_replicate hw]; decide, rfl, rfl⟩
  have hrun := hstart.foldr (hts.take 242)
  have hbound := (shifted_lt (hts.take 242)).trans_le
    (Nat.pow_le_pow_right (by decide) hlen.le)
  have hnum := hrun.number
  rw [Nat.mul_zero, Nat.add_zero, Nat.mod_eq_of_lt (hbound.trans pow_242_lt)] at hnum
  have hpos : shifted (trits.take 242) ≠ 0 := fun h => hall (all_minus_of_shifted (hts.take 242) h)
  have hbytes : convertTritsToBytes (List.replicate 48 0) trits =
      (storeWords (subtractHalf (convertLoop (List.replicate 12 0) (trits.take 242)).1)).reverse := by
    rw [convertTritsToBytes, if_neg hall]
    rfl
  obtain ⟨hlen48, hsigned⟩ := signed_subtractHalf hrun.words hrun.length
  have hshift := two_mul_shifted_take hts hl
  rw [if_neg (by rw [hnum]; exact hpos), hnum, hshift, Int.add_sub_cancel,
    bmod_value (hts.take 242) hlen] at hsigned
  rw [hbytes]
  exact ⟨hlen48, hsigned⟩

/-- A stale word moves the number by what is no multiple of `3 ^ 242`. -/
theorem not_dvd_of_stale {b N j : ℕ} {V h : ℤ} (hk : 3 ≤ k) (hk12 : k < 12)
    (hb : b = (N + 3 ^ j * (2 ^ 32) ^ k) % (2 ^ 32) ^ 12) (hN : (N : ℤ) = V + h)
    (hV : -3 ^ 242 < 2 * V ∧ 2 * V < 3 ^ 242) :
    ¬ (3 ^ 242 : ℤ) ∣ Int.bmod ((b : ℤ) - h) ((2 ^ 32) ^ 12) - V := by
  intro hdvd
  have hprime : ¬ (2 ^ 32) ^ 12 ∣ 3 ^ j * (2 ^ 32) ^ k := by
    intro hX
    have hcop : Nat.Coprime ((2 ^ 32) ^ 12) (3 ^ j) :=
      Nat.Coprime.pow_right j (by decide)
    have hle := (Nat.pow_dvd_pow_iff_le_right (by decide)).mp (hcop.dvd_of_dvd_mul_left hX)
    omega
  obtain ⟨c, hX⟩ : ∃ c, 3 ^ j * (2 ^ 32) ^ k = 2 * c := by
    obtain ⟨e, rfl⟩ : ∃ e, k = e + 1 := ⟨k - 1, by omega⟩
    exact ⟨3 ^ j * (2 ^ 31 * (2 ^ 32) ^ e), by rw [room_succ]; ring⟩
  obtain ⟨M', hM⟩ : ∃ M', (2 ^ 32) ^ 12 = 2 * M' := ⟨2 ^ 31 * (2 ^ 32) ^ 11, by decide⟩
  have hlt : ((2 ^ 32) ^ 12 : ℕ) < 2 * (3 ^ 242 : ℤ) := by
    exact_mod_cast (by decide : (2 ^ 32) ^ 12 < 2 * 3 ^ 242)
  have hodd := Ternary.three_pow_odd 242
  have hpos : 0 < (2 ^ 32) ^ 12 := by decide
  generalize 3 ^ j * (2 ^ 32) ^ k = X at *
  generalize (2 ^ 32) ^ 12 = M at *
  generalize (3 ^ 242 : ℤ) = T at *
  have hroom : (M : ℤ) ∣ Int.bmod ((b : ℤ) - h) M - V - X := by
    have hbmod : (M : ℤ) ∣ Int.bmod ((b : ℤ) - h) M - ((b : ℤ) - h) := Int.dvd_bmod_sub_self
    have hmod : (M : ℤ) ∣ (b : ℤ) - (N + X) := by
      rw [hb]
      push_cast
      exact Int.dvd_emod_sub_self
    have hsum := dvd_add hbmod hmod
    rwa [show Int.bmod ((b : ℤ) - h) M - ((b : ℤ) - h) + ((b : ℤ) - (N + X)) =
      Int.bmod ((b : ℤ) - h) M - V - X by omega] at hsum
  have hle := Int.le_bmod (x := (b : ℤ) - h) hpos
  have hub := Int.bmod_lt (x := (b : ℤ) - h) hpos
  generalize Int.bmod ((b : ℤ) - h) M = S at *
  obtain ⟨m, hm⟩ := hdvd
  obtain ⟨n, hn⟩ := hroom
  have hm1 : -2 < m ∧ m < 2 := by
    have hT : 0 ≤ T := by omega
    have hlow : T * -2 < T * m := by omega
    have hhigh : T * m < T * 2 := by omega
    exact ⟨lt_of_mul_lt_mul_left hlow hT, lt_of_mul_lt_mul_left hhigh hT⟩
  have hm0 : m = 0 := by
    rcases (by omega : m = -1 ∨ m = 0 ∨ m = 1) with rfl | rfl | rfl
    · rw [hM] at hn
      push_cast at hn
      rw [Int.mul_assoc] at hn
      omega
    · rfl
    · rw [hM] at hn
      push_cast at hn
      rw [Int.mul_assoc] at hn
      omega
  -- the number is the right one, and the stale word a multiple of the room
  rw [hm0, Int.mul_zero] at hm
  refine hprime (Int.natCast_dvd_natCast.mp ⟨-n, ?_⟩)
  rw [Int.mul_neg, ← hn, hm]
  omega

/-- **Elsewhere** some buffer leads to bytes of a number that is not even congruent to that of the
trits. -/
theorem exists_wrong_bytes (hts : Trits trits) (hl : trits.length = 243) (h : ¬ Determined trits) :
    ∃ bytes : List UInt8, bytes.length = 48 ∧ (convertTritsToBytes bytes trits).length = 48 ∧
      ¬ (3 ^ 242 : ℤ) ∣ signed (convertTritsToBytes bytes trits) -
        Ternary.value (trits.take 242) := by
  have hlen : (trits.take 242).length = 242 := by
    rw [List.length_take, hl]
    rfl
  obtain ⟨hall, hover⟩ := not_or.mp h
  obtain ⟨j, k, hk, hk12, hlen', hw, hval⟩ := exists_stale (hts.take 242) hlen hover
  have hlb : (List.replicate 12 (0 : UInt8) ++ storeWords (staleWord k)).length = 48 := by
    rw [List.length_append, List.length_replicate, length_storeWords, length_staleWord]
  have hbytes : convertTritsToBytes (List.replicate 12 0 ++ storeWords (staleWord k)) trits =
      (storeWords (subtractHalf
        (convertLoop (0 :: 0 :: 0 :: staleWord k) (trits.take 242)).1)).reverse := by
    rw [convertTritsToBytes, if_neg hall, loadWords_memset, List.drop_left' List.length_replicate,
      loadWords_storeWords (words_staleWord k)]
  obtain ⟨hlen48, hsigned⟩ := signed_subtractHalf hw hlen'
  refine ⟨_, hlb, by rw [hbytes, hlen48], ?_⟩
  rw [hbytes, hsigned]
  have hshift := two_mul_shifted_take hts hl
  have habs := Ternary.two_mul_abs_lt.mp (Ternary.two_mul_abs_value_lt (hts.take 242))
  rw [hlen] at habs
  obtain ⟨c, hc⟩ : ∃ c, (2 ^ 32) ^ k = 8 * c := by
    obtain ⟨e, rfl⟩ : ∃ e, k = e + 1 := ⟨k - 1, by omega⟩
    exact ⟨2 ^ 29 * (2 ^ 32) ^ e, by rw [room_succ]; ring⟩
  split_ifs with hzero
  · -- all words are zero, which is the number of other trits
    rw [hzero] at hval
    intro hdvd
    have hV : Ternary.value (trits.take 242) = 0 := by
      refine Int.eq_zero_of_abs_lt_dvd (Int.dvd_neg.mp (by simpa using hdvd)) ?_
      rw [abs_lt]
      omega
    have hhalf : value half3 % 8 = 4 := by decide
    have hdiv := Nat.dvd_of_mod_eq_zero hval.symm
    have h8 : 8 ∣ shifted (trits.take 242) := by
      have hsum : 8 ∣ shifted (trits.take 242) + 3 ^ j * (2 ^ 32) ^ k :=
        (by decide : 8 ∣ (2 ^ 32) ^ 12).trans hdiv
      rw [hc, Nat.mul_left_comm] at hsum
      exact (Nat.dvd_add_left (Nat.dvd_mul_right 8 _)).mp hsum
    omega
  · exact not_dvd_of_stale hk hk12 hval hshift ⟨by omega, by omega⟩

end Bytes

end Kerl

end Entangled
