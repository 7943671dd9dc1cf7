import Entangled.Prototype.SelfDelimiting
/-!
# The numbers with a clean code

A number is read back from its code, whatever the buffer held, and nothing is written behind the
code, exactly if it fills its trytes, takes at least three of them, and the number of its signs fills
its place. Of any other number one trit of the buffer in the wrong place makes another one.
-/

namespace Entangled

namespace Prototype

open Merkle Ternary Trinary

variable {undef : ℕ → ℤ} {x buf : List ℤ} {e i j k n : ℕ} {v : Int64}

/-- What a self-delimiting code is asked for: only its own trits are written, and any memory that
begins with them is read as the number, to the end of the code. -/
def SelfDelimiting (undef : ℕ → ℤ) (v : Int64) : Prop :=
  ∀ (buf : List ℤ) (numTrits : ℕ), encodedLength undef v ≤ numTrits → numTrits ≤ buf.length →
    ∃ out, encodeLong undef v buf numTrits = (0, out) ∧ out.length = buf.length ∧
      out.drop (encodedLength undef v) = buf.drop (encodedLength undef v) ∧
      ∀ (mem : ℕ → ℤ) (n : ℕ), encodedLength undef v ≤ n →
        window mem 0 (encodedLength undef v) = out.take (encodedLength undef v) →
        decodeLongIn undef mem n = (v, some (encodedLength undef v))

/-- The numbers whose trits leave no gap: zero, which has a code of its own, and those that fill
three trytes or more and whose signs fill their place. For three trytes the place is three trits,
and these are cleared. -/
def Clean (undef : ℕ → ℤ) (v : Int64) : Prop :=
  v = 0 ∨ ∃ k, 3 ≤ k ∧ minTrits v = 3 * k ∧
    (k = 3 ∨
      minTrits (Int64.ofNat (encodingOf (digits (3 * k) v.toInt) k)) = encodingLength undef k)

/-! ## Numbers of eleven trytes -/

theorem minTrits_le_of_lt (h : |v.toInt| < 2 ^ 53) : minTrits v ≤ 35 :=
  minTrits_le_of_room (by decide) (by omega)

theorem ne_minValue_of_lt (h : |v.toInt| < 2 ^ 53) : v ≠ Int64.minValue := by
  rintro rfl
  exact absurd h (by decide)

/-- **What is decoded** from trytes that were turned, by the signs that are read. -/
theorem decodeLongIn_exact {mem : ℕ → ℤ} (hk : 2 ≤ k) (hk11 : k ≤ 11) (hx : Trits x)
    (hlen : x.length = 3 * k) (hlast : value (block 3 x (k - 1)) ≠ 0)
    (hmem : window mem 0 (3 * k) = resign x (encodingOf x k) k 0) (hn : 3 * (k - 1) < n) :
    decodeLongIn undef mem n =
      (Int64.ofInt (value (resign (resign x (encodingOf x k) k 0)
        (toSize (tritsToLong (window mem (3 * k) (encodingLength undef k))
          (encodingLength undef k)).toInt) k 0)),
        some (3 * k + encodingLength undef k)) := by
  have hy : (resign x (encodingOf x k) k 0).length = 3 * k := length_resign _ (by omega)
  rw [decodeLongIn_resign hk (by omega) hlen.ge (fun i _ => (hx.drop _).take _) hlast hmem hn,
    sumTrytes_eq (trits_resign hx _ _ _) _ hy.ge hk11]

/-- A number that needs its last tryte has one that is not zero. -/
theorem value_last_ne_zero (hk : 2 ≤ k) (hlen : x.length = 3 * k) (hx : Trits x)
    (hval : value x = v.toInt) (hv : 3 * (k - 1) < minTrits v) :
    value (block 3 x (k - 1)) ≠ 0 := by
  intro hzero
  have hsplit : x = x.take (3 * (k - 1)) ++ block 3 x (k - 1) := by
    have hrest : (x.drop (3 * (k - 1))).length ≤ 3 := by
      rw [List.length_drop]
      omega
    rw [block, List.take_of_length_le hrest, List.take_append_drop]
  have hlow := two_mul_abs_value_lt (hx.take (3 * (k - 1)))
  have hltake : (x.take (3 * (k - 1))).length = 3 * (k - 1) := by
    rw [List.length_take]
    omega
  rw [hltake] at hlow
  have hvalue := value_append (x.take (3 * (k - 1))) (block 3 x (k - 1))
  rw [← hsplit, hzero, Int.mul_zero, Int.add_zero, hval] at hvalue
  rw [← hvalue] at hlow
  have hle := minTrits_le_of_room (by omega) hlow
  omega

theorem selfDelimiting_zero : SelfDelimiting undef 0 := by
  intro buf numTrits hnum hroom
  have hlen : encodedLength undef 0 = 4 := if_pos rfl
  rw [hlen] at hnum ⊢
  have hfits : 0 + encodedZero.length ≤ buf.length := by
    rw [show encodedZero.length = 4 from rfl]
    omega
  have htake := take_drop_blit hfits
  rw [List.drop_zero, show encodedZero.length = 4 from rfl] at htake
  refine ⟨blit buf 0 encodedZero, ?_, length_blit hfits, ?_, fun mem n hn hmem => ?_⟩
  · rw [encodeLong, hlen, if_neg (by omega), if_pos rfl]
  · rw [blit, List.take_zero, List.nil_append,
      List.drop_left' (show encodedZero.length = 4 from rfl)]
    rfl
  · rw [decodeLongIn, if_pos (hmem.trans htake)]

/-- The place of the signs of a clean number, whatever it held. -/
theorem signs_of_clean (undef : ℕ → ℤ) (hk : 3 ≤ k) (hk31 : k < 31) (he : e < 2 ^ k)
    (hsigns : k = 3 ∨ minTrits (Int64.ofNat e) = encodingLength undef k)
    {rest : List ℤ} (hrest : encodingLength undef k ≤ rest.length) :
    (longToTrits (Int64.ofNat e) rest).1.take (encodingLength undef k) =
        digits (encodingLength undef k) e ∧
      (longToTrits (Int64.ofNat e) rest).1.drop (encodingLength undef k) =
        rest.drop (encodingLength undef k) := by
  have hroom := room_of_encodingLength undef hk31 he
  have hthree : 3 ≤ encodingLength undef k := by
    refine lt_encodingLength undef hk31 ?_
    have hpow : 2 ^ 3 ≤ 2 ^ k := Nat.pow_le_pow_right (by decide) hk
    omega
  have hword := toInt_signs hk31 he
  have hmin : minTrits (Int64.ofNat e) ≤ encodingLength undef k :=
    minTrits_le_of_room (by omega) (by rwa [hword, Nat.abs_cast])
  refine ⟨?_, drop_longToTrits _ hthree hmin hrest⟩
  rcases hsigns with rfl | hsame
  · have hlen : encodingLength undef 3 = 3 :=
      le_antisymm (encodingLength_le undef hk31 (by decide) (by decide)) hthree
    rw [hlen] at hroom hrest ⊢
    have hcode := longToTrits_tryte (v := Int64.ofNat e) (by rwa [hword, Nat.abs_cast]) hrest
    have htake : ((blit rest 0 (digits 3 (e : ℤ))).drop 0).take (digits 3 (e : ℤ)).length =
        digits 3 (e : ℤ) := take_drop_blit (by rw [length_digits]; omega)
    rw [hcode, hword]
    rwa [List.drop_zero, length_digits] at htake
  · have htake := longToTrits_take (Int64.ofNat e) (hthree.trans hrest) (hmin.trans hrest)
    rwa [hsame, hword] at htake

/-- The number of the signs is read as it was written. -/
theorem toSize_digits (hk31 : k < 31) (he : e < 2 ^ k) :
    toSize (tritsToLong (digits (encodingLength undef k) e) (encodingLength undef k)).toInt = e := by
  have hroom := room_of_encodingLength undef hk31 he
  have hlt : 2 ^ k ≤ 2 ^ 30 := Nat.pow_le_pow_right (by decide) (by omega)
  have hval : value (digits (encodingLength undef k) e) = e :=
    value_digits (by rwa [Nat.abs_cast])
  rw [tritsToLong_eq, List.take_of_length_le (length_digits _ _).le, hval,
    toSize_ofInt ⟨by omega, by omega⟩]
  omega

/-- **A clean number** is read back, and written nowhere else. -/
theorem selfDelimiting_of_clean (hv : |v.toInt| < 2 ^ 53) (h : Clean undef v) :
    SelfDelimiting undef v := by
  rcases h with rfl | ⟨k, hk, hmin, hsigns⟩
  · exact selfDelimiting_zero
  intro buf numTrits hnum hroom
  have hbound := minTrits_le_of_lt hv
  have h₀ : v ≠ 0 := by
    rintro rfl
    have hone : minTrits 0 ≤ 1 := minTrits_le_of_room le_rfl (by decide)
    omega
  have htrytes : trytes v = k := by
    unfold trytes
    omega
  have hlen := encodedLength_eq undef h₀ (ne_minValue_of_lt hv)
  rw [htrytes] at hlen
  have hbuf : 3 * k + encodingLength undef k ≤ buf.length := by omega
  have hnumber : (longToTrits v buf).1.take (3 * k) = digits (3 * k) v.toInt := by
    rw [← hmin]
    exact longToTrits_take v (by omega) (by omega)
  have hrest : (longToTrits v buf).1.drop (3 * k) = buf.drop (3 * k) :=
    drop_longToTrits v (by omega) hmin.le (by omega)
  have hlength : (longToTrits v buf).1.length = buf.length := by
    rw [length_longToTrits]
    omega
  have hdigits := trits_digits (3 * k) v.toInt
  have hvalue : value (digits (3 * k) v.toInt) = v.toInt :=
    value_digits (hmin ▸ two_mul_abs_toInt_lt v)
  have hblock : ∀ i < k, Trits (block 3 (longToTrits v buf).1 i) := by
    intro i hi
    rw [← block_take (m := 3 * k) (by omega), hnumber]
    exact (hdigits.drop _).take _
  have hcode := encodeLong_eq undef h₀ (ne_minValue_of_lt hv) hnum
    (by rw [htrytes, hlength]; omega) (by rwa [htrytes])
  rw [htrytes, hrest, ← encodingOf_take (m := 3 * k) (by omega) le_rfl,
    ← resign_take (m := 3 * k) _ (by omega), hnumber] at hcode
  have he := encodingOf_lt (x := digits (3 * k) v.toInt) (by omega : 1 ≤ k)
  have hplace : encodingLength undef k ≤ (buf.drop (3 * k)).length := by
    rw [List.length_drop]
    omega
  obtain ⟨htake, hdrop⟩ := signs_of_clean undef hk (by omega) he hsigns hplace
  have hy : (resign (digits (3 * k) v.toInt) (encodingOf (digits (3 * k) v.toInt) k) k 0).length =
      3 * k := length_resign _ (by rw [length_digits]; omega)
  refine ⟨_, hcode, ?_, ?_, fun mem n hn hmem => ?_⟩
  · rw [List.length_append, hy, length_longToTrits, List.length_drop]
    have hthree : 3 ≤ encodingLength undef k := by
      refine lt_encodingLength undef (by omega) ?_
      have hpow : 2 ^ 3 ≤ 2 ^ k := Nat.pow_le_pow_right (by decide) hk
      omega
    omega
  · rw [hlen, ← List.drop_drop, List.drop_left' hy, hdrop, List.drop_drop]
  · rw [hlen] at hn hmem ⊢
    have hhead := congrArg (List.take (3 * k)) hmem
    rw [take_window _ _ (by omega), List.take_take, Nat.min_eq_left (by omega),
      List.take_left' hy] at hhead
    have htail := congrArg (List.drop (3 * k)) hmem
    rw [drop_window, Nat.zero_add, List.drop_take, Nat.add_sub_cancel_left, List.drop_left' hy,
      htake] at htail
    have hlast := value_last_ne_zero (by omega) (length_digits _ _) hdigits hvalue
      (by omega : 3 * (k - 1) < minTrits v)
    rw [decodeLongIn_exact (by omega) (by omega) hdigits (length_digits _ _) hlast hhead (by omega),
      htail, toSize_digits (by omega) he, resign_resign _ (length_digits _ _), hvalue,
      Int64.ofInt_toInt]

/-! ## A trit of the buffer in the wrong place -/

/-- What is decoded where a number is read back from a buffer of just the length of its code. -/
theorem decoded_of_selfDelimiting (h : SelfDelimiting undef v) (h₀ : v ≠ 0)
    (hmin : v ≠ Int64.minValue) (hk : trytes v = k) (hk2 : 2 ≤ k) (hk13 : k ≤ 13)
    (hlen : buf.length = 3 * k + encodingLength undef k)
    (hx : (longToTrits v buf).1.take (3 * k) = x) (htrits : Trits x) (hlx : x.length = 3 * k)
    (hlast : value (block 3 x (k - 1)) ≠ 0) :
    v = sumTrytes (resign x (encodingOf x k) k 0)
      (toSize (tritsToLong ((longToTrits (Int64.ofNat (encodingOf x k))
        ((longToTrits v buf).1.drop (3 * k))).1.take (encodingLength undef k))
          (encodingLength undef k)).toInt) k 0 0 := by
  have hcodelen := encodedLength_eq undef h₀ hmin
  rw [hk] at hcodelen
  have hblock : ∀ i < k, Trits (block 3 (longToTrits v buf).1 i) := by
    intro i hi
    rw [← block_take (m := 3 * k) (by omega), hx]
    exact (htrits.drop _).take _
  have hroom : 3 * trytes v ≤ (longToTrits v buf).1.length := by
    rw [hk, length_longToTrits]
    omega
  have hcode := encodeLong_eq undef h₀ hmin (by omega : encodedLength undef v ≤ buf.length) hroom
    (by rwa [hk])
  rw [hk, ← encodingOf_take (m := 3 * k) (by omega) le_rfl, ← resign_take (m := 3 * k) _ (by omega),
    hx] at hcode
  obtain ⟨out, hout, -, -, hread⟩ := h buf buf.length (by omega) le_rfl
  have hy : (resign x (encodingOf x k) k 0).length = 3 * k := length_resign _ (by omega)
  obtain rfl := (Prod.mk.inj (hcode.symm.trans hout)).2
  have hcl : encodingLength undef k ≤ (longToTrits (Int64.ofNat (encodingOf x k))
      ((longToTrits v buf).1.drop (3 * k))).1.length := by
    rw [length_longToTrits, List.length_drop, length_longToTrits]
    omega
  generalize (longToTrits (Int64.ofNat (encodingOf x k)) ((longToTrits v buf).1.drop (3 * k))).1 =
    code at hread hcl ⊢
  have hwindow : ∀ i n, i + n ≤ 3 * k + encodingLength undef k →
      window (memory (resign x (encodingOf x k) k 0 ++ code)) i n =
        ((resign x (encodingOf x k) k 0 ++ code).drop i).take n := by
    intro i n hin
    refine window_memory ?_
    rw [List.length_append, hy]
    omega
  have hhead := hwindow 0 (3 * k) (by omega)
  rw [List.drop_zero, List.take_left' hy] at hhead
  have hdec := hread (memory (resign x (encodingOf x k) k 0 ++ code)) _ le_rfl
    (by rw [hcodelen, hwindow _ _ (by omega), List.drop_zero])
  rw [decodeLongIn_resign hk2 hk13 hlx.ge (fun i _ => (htrits.drop _).take _) hlast hhead
    (by omega), hwindow _ _ le_rfl, List.drop_left' hy] at hdec
  exact (Prod.mk.inj hdec).1.symm

/-- Bits that are only taken away, and not the highest one, take away less than it counts. -/
theorem sub_lt_of_bits {a e H : ℕ} (hH : H = 2 ^ n) (ha : a < 2 * H) (he : e < 2 * H)
    (hlow : ∀ i < n, a.testBit i = true → e.testBit i = true) (htop : a.testBit n = e.testBit n) :
    a ≤ e ∧ e - a < H := by
  have hmod : a % H ≤ e % H := by
    refine Nat.le_of_testBit fun i hi => ?_
    rw [hH, Nat.testBit_mod_two_pow, Bool.and_eq_true, decide_eq_true_iff] at hi ⊢
    exact ⟨hi.1, hlow i hi.1 hi.2⟩
  have hdiv : a / H = e / H := by
    have ha2 : a / H < 2 := Nat.div_lt_of_lt_mul (by omega)
    have he2 : e / H < 2 := Nat.div_lt_of_lt_mul (by omega)
    rw [Nat.testBit_eq_decide_div_mod_eq, Nat.testBit_eq_decide_div_mod_eq, decide_eq_decide,
      ← hH] at htop
    generalize a / H = p at ha2 htop ⊢
    generalize e / H = q at he2 htop ⊢
    omega
  have hpos : 0 < H := by
    rw [hH]
    positivity
  have hea := Nat.div_add_mod a H
  have hee := Nat.div_add_mod e H
  have hlt := Nat.mod_lt e hpos
  rw [hdiv] at hea
  omega

/-- **One of two signs turns a tryte**: an odd number cannot be added to the signs and taken from
them so that both times only bits are cleared, and not the highest one. -/
theorem exists_turned {e T : ℕ} {a b : ℕ} (hk : 1 ≤ k) (he : e < 2 ^ k) (hT : T % 2 = 1)
    (ha : ((2 ^ k : ℕ) : ℤ) ∣ a - (e + T)) (hb : ((2 ^ k : ℕ) : ℤ) ∣ b - (e - T : ℤ))
    (hlow : ∀ i < k - 1, (a.testBit i = true → e.testBit i = true) ∧
      (b.testBit i = true → e.testBit i = true))
    (htop : a.testBit (k - 1) = e.testBit (k - 1) ∧ b.testBit (k - 1) = e.testBit (k - 1)) :
    False := by
  obtain ⟨n, rfl⟩ : ∃ n, k = n + 1 := ⟨k - 1, by omega⟩
  rw [Nat.add_sub_cancel] at hlow htop
  have hpow : 2 ^ (n + 1) = 2 * 2 ^ n := by rw [pow_succ, Nat.mul_comm]
  have hpos : 0 < 2 * 2 ^ n := by positivity
  have hbit : ∀ z i, i ≤ n → (z % (2 * 2 ^ n)).testBit i = z.testBit i := by
    intro z i hi
    rw [← hpow, Nat.testBit_mod_two_pow, decide_eq_true (by omega), Bool.true_and]
  rw [hpow] at he ha hb
  obtain ⟨hae, hal⟩ := sub_lt_of_bits (a := a % (2 * 2 ^ n)) rfl (Nat.mod_lt _ hpos) he
    (fun i hi hia => (hlow i hi).1 (by rwa [hbit a i hi.le] at hia))
    (by rw [hbit a n le_rfl, htop.1])
  obtain ⟨hbe, hbl⟩ := sub_lt_of_bits (a := b % (2 * 2 ^ n)) rfl (Nat.mod_lt _ hpos) he
    (fun i hi hib => (hlow i hi).2 (by rwa [hbit b i hi.le] at hib))
    (by rw [hbit b n le_rfl, htop.2])
  have ha' := dvd_sub ha (Int.dvd_self_sub_emod (x := a) (m := (2 * 2 ^ n : ℕ)))
  have hb' := dvd_sub hb (Int.dvd_self_sub_emod (x := b) (m := (2 * 2 ^ n : ℕ)))
  rw [← Int.natCast_mod] at ha' hb'
  generalize a % (2 * 2 ^ n) = a₀ at hae hal ha'
  generalize b % (2 * 2 ^ n) = b₀ at hbe hbl hb'
  generalize 2 ^ n = H at *
  -- what is taken away the two times is whole rounds, and less than one
  have hsum := dvd_add ha' hb'
  have hzero : (a₀ : ℤ) + b₀ - 2 * e = 0 := by
    refine Int.eq_zero_of_abs_lt_dvd (m := (2 * H : ℕ)) ?_ (by rw [abs_lt]; omega)
    rwa [show (a : ℤ) - (e + T) - (a - a₀) + ((b : ℤ) - (e - T) - (b - b₀)) =
      (a₀ : ℤ) + b₀ - 2 * e by ring] at hsum
  obtain ⟨c, hc⟩ := ha'
  rw [show (a : ℤ) - (e + T) - (a - a₀) = -T by omega] at hc
  push_cast at hc
  rw [Int.mul_assoc] at hc
  omega

/-! ## The numbers that are not clean -/

theorem trits_ones (n : ℕ) : Trits (List.replicate n 1) := by
  intro t ht
  rw [List.eq_of_mem_replicate ht]
  decide

theorem trits_blit {src : List ℤ} (hbuf : Trits buf) (hsrc : Trits src) (i : ℕ) :
    Trits (blit buf i src) :=
  trits_append.mpr ⟨trits_append.mpr ⟨hbuf.take i, hsrc⟩, hbuf.drop _⟩

/-- A buffer of trits stays one. -/
theorem trits_longToTrits (hbuf : Trits buf) (hthree : 3 ≤ buf.length)
    (hsize : minTrits v ≤ buf.length) : Trits (longToTrits v buf).1 := by
  rw [longToTrits_blit v hthree hsize]
  exact trits_blit (trits_blit hbuf (trits_replicate 3) 0) (trits_digits _ _) 0

/-- **One or two trytes**: the clearing of three trits goes past the signs. -/
theorem not_selfDelimiting_of_short (h₀ : v ≠ 0) (hmin : v ≠ Int64.minValue) (hk : trytes v ≤ 2) :
    ¬ SelfDelimiting undef v := by
  intro h
  have hk1 := one_le_trytes v
  have hsize : minTrits v ≤ 3 * trytes v := by
    unfold trytes
    omega
  have hcodelen := encodedLength_eq undef h₀ hmin
  have hplace : encodingLength undef (trytes v) ≤ 2 := by
    refine encodingLength_le undef (by omega) (by decide) ?_
    have hpow : 2 ^ trytes v ≤ 2 ^ 2 := Nat.pow_le_pow_right (by decide) hk
    omega
  have hbl : (List.replicate (3 * trytes v + 3) (1 : ℤ)).length = 3 * trytes v + 3 :=
    List.length_replicate
  have hxl := length_longToTrits v (List.replicate (3 * trytes v + 3) 1)
  have hx := trits_longToTrits (v := v) (trits_ones (3 * trytes v + 3)) (by omega) (by omega)
  rw [hbl] at hxl
  obtain ⟨out, hout, -, hdrop, -⟩ := h (List.replicate (3 * trytes v + 3) 1) (3 * trytes v + 3)
    (by omega) hbl.ge
  have hcode := encodeLong_eq undef h₀ hmin
    (by omega : encodedLength undef v ≤ 3 * trytes v + 3) (by omega)
    (fun i _ => (hx.drop _).take _)
  obtain rfl := (Prod.mk.inj (hcode.symm.trans hout)).2
  have he := encodingOf_lt (x := (longToTrits v (List.replicate (3 * trytes v + 3) 1)).1) hk1
  have hpow : 2 ^ trytes v ≤ 2 ^ 2 := Nat.pow_le_pow_right (by decide) hk
  have hy : (resign (longToTrits v (List.replicate (3 * trytes v + 3) 1)).1
      (encodingOf (longToTrits v (List.replicate (3 * trytes v + 3) 1)).1 (trytes v))
      (trytes v) 0).length = 3 * trytes v := length_resign _ (by omega)
  have hrest : ((longToTrits v (List.replicate (3 * trytes v + 3) 1)).1.drop
      (3 * trytes v)).length = 3 := by
    rw [List.length_drop]
    omega
  generalize encodingOf (longToTrits v (List.replicate (3 * trytes v + 3) 1)).1 (trytes v) = e
    at he hdrop hy
  have hword := toInt_signs (by omega : trytes v < 31) he
  have hthird : (longToTrits (Int64.ofNat e)
      ((longToTrits v (List.replicate (3 * trytes v + 3) 1)).1.drop (3 * trytes v))).1 =
        digits 3 e := by
    rw [longToTrits_tryte (by rw [hword, Nat.abs_cast]; omega) hrest.ge, hword,
      blit_full (by rw [length_digits, hrest])]
  -- the third trit of the signs lies behind the code
  have hget := congrArg (fun l => l[3 * trytes v + 2 - encodedLength undef v]?) hdrop
  simp only [List.getElem?_drop] at hget
  rw [show encodedLength undef v + (3 * trytes v + 2 - encodedLength undef v) =
    3 * trytes v + 2 by omega, hthird, List.getElem?_append_right (by omega), hy,
    Nat.add_sub_cancel_left, List.getElem?_replicate_of_lt (by omega)] at hget
  have hzero : ∀ e < 4, (digits 3 (e : ℕ))[2]? = some 0 := by decide
  rw [hzero e (by omega)] at hget
  cases hget

/-- A last tryte whose highest trit is 1. -/
theorem value_block_concat {l : List ℤ} (hl : l.length + 1 = 3 * k) (ht : Trits l) :
    5 ≤ value (block 3 (l ++ [1]) (k - 1)) ∧ value (block 3 (l ++ [1]) (k - 1)) ≤ 13 := by
  have hblock : block 3 (l ++ [1]) (k - 1) = l.drop (3 * (k - 1)) ++ [1] := by
    rw [block, List.drop_append_of_le_length (by omega), List.take_of_length_le]
    rw [List.length_append, List.length_drop, List.length_singleton]
    omega
  have hlen : (l.drop (3 * (k - 1))).length = 2 := by
    rw [List.length_drop]
    omega
  have hbound := two_mul_abs_lt.mp (two_mul_abs_value_lt (ht.drop (3 * (k - 1))))
  rw [hlen] at hbound
  rw [hblock, value_append, hlen, value_cons, value_nil]
  omega

/-- **Twelve trytes**, the last of which is above 4, are read as more than `2 ^ 53`. -/
theorem toInt_sumTrytes_twelve (hx : Trits x) (hlen : x.length = 36)
    (hlast : 5 ≤ value (turn x e 11) ∧ value (turn x e 11) ≤ 13) :
    2 ^ 53 < (sumTrytes x e 12 0 0).toInt := by
  have hsum := sumTrytes_append hx e 1 (i := 0) (n := 11) (by omega) le_rfl (v := 0) (by decide)
  have htryte : (tritsToLong (block 3 x 11) 3).toInt = value (block 3 x 11) :=
    (value_tryte ((hx.drop _).take _)).1
  have hlow := two_mul_abs_lt.mp (two_mul_abs_value_lt (trits_resign hx e 11 0))
  rw [length_resign e (by omega)] at hlow
  have hword : (Int64.ofInt (value (resign x e 11 0))).toInt = value (resign x e 11 0) :=
    Word.toInt_ofInt ⟨by omega, by omega⟩
  have hturn := value_turn x e 11
  have hround : ∀ w : Int64, w.toInt = value (resign x e 11 0) → sumTrytes x e 1 11 w =
      Int64.ofInt (toDouble (toDouble (value (resign x e 11 0)) +
        toDouble (27 ^ 11 * value (turn x e 11)))) := by
    intro w hw
    rw [sumTrytes, sumTrytes, htryte, hw, ← hturn, pow27Lut_eq 11 (by decide)]
  rw [Int64.toInt_zero, pow_zero, Int.one_mul, Int.zero_add, Nat.zero_add, hround _ hword] at hsum
  -- the tryte counts more than four and a half times the range of the eleven others
  have hexact : toDouble (value (resign x e 11 0)) = value (resign x e 11 0) :=
    toDouble_of_lt (by rw [abs_lt]; omega)
  have hnear := toDouble_near (v := 27 ^ 11 * value (turn x e 11)) (by omega) (by omega)
  rw [hexact] at hsum
  generalize toDouble (27 ^ 11 * value (turn x e 11)) = q at hsum hnear
  have hlast := toDouble_near (v := value (resign x e 11 0) + q) (by omega) (by omega)
  rw [hsum, Word.toInt_ofInt ⟨by omega, by omega⟩]
  omega

/-- **A gap in the last tryte**: a trit 1 of the buffer at its end is read as part of the number. -/
theorem not_selfDelimiting_of_gap (hv : |v.toInt| < 2 ^ 53) (hk : trytes v = k) (hk3 : 3 ≤ k)
    (hgap : minTrits v < 3 * k) : ¬ SelfDelimiting undef v := by
  intro h
  have hbound := minTrits_le_of_lt hv
  have hm : 3 ≤ minTrits v ∧ k ≤ 12 := by
    unfold trytes at hk
    omega
  have h₀ : v ≠ 0 := by
    rintro rfl
    have hone : minTrits 0 ≤ 1 := minTrits_le_of_room le_rfl (by decide)
    omega
  have hmin := ne_minValue_of_lt hv
  have hthree : 3 ≤ encodingLength undef k := by
    refine lt_encodingLength undef (by omega) ?_
    have hpow : 2 ^ 3 ≤ 2 ^ k := Nat.pow_le_pow_right (by decide) hk3
    omega
  obtain ⟨n, hn⟩ : ∃ n, 3 * k = n + 1 := ⟨3 * k - 1, by omega⟩
  obtain ⟨buf, hbuf⟩ : ∃ buf : List ℤ, buf = List.replicate n 0 ++
    1 :: List.replicate (encodingLength undef k) 0 := ⟨_, rfl⟩
  have hlen : buf.length = 3 * k + encodingLength undef k := by
    rw [hbuf, List.length_append, List.length_cons, List.length_replicate, List.length_replicate]
    omega
  have hrest : (longToTrits v buf).1.drop (3 * k) = List.replicate (encodingLength undef k) 0 := by
    rw [drop_longToTrits v (by omega) hgap.le (by omega), hbuf, hn, ← List.drop_drop,
      List.drop_left' List.length_replicate]
    rfl
  obtain ⟨l, hl⟩ : ∃ l, l = digits (minTrits v) v.toInt ++ List.replicate (n - minTrits v) 0 :=
    ⟨_, rfl⟩
  have hll : l.length = n := by
    rw [hl, List.length_append, length_digits, List.length_replicate]
    omega
  have hlt : Trits l := hl ▸ trits_append.mpr ⟨trits_digits _ _, trits_replicate _⟩
  have hnumber : (longToTrits v buf).1.take (3 * k) = l ++ [1] := by
    have htail : ((longToTrits v buf).1.drop (minTrits v)).take (n + 1 - minTrits v) =
        List.replicate (n - minTrits v) 0 ++ [1] := by
      rw [drop_longToTrits v hm.1 le_rfl (by omega), hbuf, List.drop_append_of_le_length
        (by rw [List.length_replicate]; omega), List.drop_replicate,
        show n + 1 - minTrits v = n - minTrits v + 1 by omega, List.take_append,
        List.length_replicate, List.take_of_length_le (by rw [List.length_replicate]; omega)]
      simp
    have hsplit : 3 * k = minTrits v + (n + 1 - minTrits v) := by omega
    rw [hsplit, List.take_add, longToTrits_take v (by omega) (by omega), htail, hl,
      List.append_assoc]
  have hx : Trits (l ++ [1]) := trits_append.mpr ⟨hlt, by decide⟩
  have hlx : (l ++ [1]).length = 3 * k := by
    rw [List.length_append, hll, List.length_singleton, hn]
  have hlast := value_block_concat (k := k) (by omega) hlt
  have hdec := decoded_of_selfDelimiting h h₀ hmin hk (by omega) (by omega) hlen hnumber hx hlx
    (by omega)
  have he := encodingOf_lt (x := l ++ [1]) (by omega : 1 ≤ k)
  have hsigns : (longToTrits (Int64.ofNat (encodingOf (l ++ [1]) k))
      (List.replicate (encodingLength undef k) 0)).1 =
        digits (encodingLength undef k) (encodingOf (l ++ [1]) k) := by
    have hword := toInt_signs (by omega : k < 31) he
    have hroom := room_of_encodingLength undef (by omega : k < 31) he
    rw [longToTrits_zeros _ hthree (minTrits_le_of_room (by omega) (by rwa [hword, Nat.abs_cast])),
      hword]
  rw [hrest, hsigns, List.take_of_length_le (length_digits _ _).le,
    toSize_digits (by omega) he] at hdec
  have hy : (resign (l ++ [1]) (encodingOf (l ++ [1]) k) k 0).length = 3 * k :=
    length_resign _ (by omega)
  have hyt := trits_resign hx (encodingOf (l ++ [1]) k) k 0
  have hback := resign_resign (encodingOf (l ++ [1]) k) hlx
  rcases Nat.lt_or_ge k 12 with hk12 | hk12
  · -- the number that is read has the trit in it
    have hval : value (l ++ [1]) = v.toInt + 3 ^ n := by
      rw [value_append, hll, hl, value_append, value_digits (two_mul_abs_toInt_lt v),
        value_replicate_zero, Int.mul_zero, value_cons, value_nil]
      ring
    have hpow : (3 : ℤ) ^ n ≤ 3 ^ 32 := pow_le_pow_right₀ (by decide) (by omega)
    have hpos : (0 : ℤ) < 3 ^ n := by positivity
    have habs := abs_lt.mp hv
    rw [sumTrytes_eq hyt _ hy.ge (by omega), hback, hval] at hdec
    have hword := congrArg Int64.toInt hdec
    rw [Word.toInt_ofInt ⟨by omega, by omega⟩] at hword
    omega
  · obtain rfl : k = 12 := by omega
    have hturn : turn (resign (l ++ [1]) (encodingOf (l ++ [1]) 12) 12 0)
        (encodingOf (l ++ [1]) 12) 11 = block 3 (l ++ [1]) 11 := by
      rw [← block_resign (n := 12) _ hy.ge (by decide), hback]
    have hbig := toInt_sumTrytes_twelve hyt hy (by rw [hturn]; exact hlast)
    have habs := abs_lt.mp hv
    rw [← hdec] at hbig
    omega

/-- What the code leaves of a longer buffer. -/
theorem longToTrits_append (v : Int64) {l : List ℤ} (hthree : 3 ≤ l.length)
    (hsize : minTrits v ≤ l.length) (rest : List ℤ) :
    (longToTrits v (l ++ rest)).1 = (longToTrits v l).1 ++ rest := by
  have hblit : ∀ src l' : List ℤ, src.length ≤ l'.length →
      blit (l' ++ rest) 0 src = blit l' 0 src ++ rest := by
    intro src l' hsrc
    simp only [blit, List.take_zero, List.nil_append, Nat.zero_add]
    rw [List.drop_append_of_le_length hsrc, List.append_assoc]
  have hmem : (memset l 0 3).length = l.length := length_memset hthree
  rw [longToTrits_blit v (by rw [List.length_append]; omega) (by rw [List.length_append]; omega),
    longToTrits_blit v hthree hsize, memset, hblit _ _ (by rwa [List.length_replicate]), ← memset,
    hblit _ _ (by rw [length_digits, hmem]; exact hsize)]

/-- Two ways of turning back that give the same number differ at trytes that are zero: so no bit is
read but those that were written, and the highest one is. -/
theorem bits_of_turned {a : ℕ} (hx : Trits x) (hlen : x.length = 3 * k)
    (hlast : value (block 3 x (k - 1)) ≠ 0) (hk : 1 ≤ k)
    (hsame : value (resign (resign x (encodingOf x k) k 0) a k 0) = value x) :
    (∀ i < k - 1, a.testBit i = true → (encodingOf x k).testBit i = true) ∧
      a.testBit (k - 1) = (encodingOf x k).testBit (k - 1) := by
  have hy : (resign x (encodingOf x k) k 0).length = 3 * k := length_resign _ (by omega)
  have hyt := trits_resign hx (encodingOf x k) k 0
  have hturns : resign (resign x (encodingOf x k) k 0) a k 0 = x :=
    value_injective (trits_resign hyt a k 0) hx
      ((length_resign _ (by omega)).trans hlen.symm) hsame
  have hbit : ∀ i < k, a.testBit i ≠ (encodingOf x k).testBit i → value (block 3 x i) = 0 := by
    intro i hi hne
    have hblock := congrArg (fun l => value (block 3 l i)) hturns
    simp only [block_resign _ hy.ge hi, value_turn, block_resign _ hlen.ge hi] at hblock
    split_ifs at hblock with ha hb hb
    · exact absurd (ha.trans hb.symm) hne
    · omega
    · omega
    · rw [Bool.not_eq_true] at ha hb
      exact absurd (ha.trans hb.symm) hne
  constructor
  · intro i hi hia
    by_contra hne
    have hzero := hbit i (by omega) (by rw [hia]; exact fun h => hne h.symm)
    rw [testBit_encodingOf_of_lt hi, hzero] at hne
    exact hne (decide_eq_true le_rfl)
  · by_contra hne
    exact hlast (hbit (k - 1) (by omega) hne)

/-- What is read from a signs' place with a trit `s` of the buffer at its end. -/
theorem bits_of_stale (h : SelfDelimiting undef v) (hv : |v.toInt| < 2 ^ 53)
    (hsize : minTrits v = 3 * k) (hk : 4 ≤ k)
    (hgap : minTrits (Int64.ofNat (encodingOf (digits (3 * k) v.toInt) k)) < encodingLength undef k)
    {s : ℤ} (hs : IsTrit s) :
    ∃ a : ℕ, ((2 ^ k : ℕ) : ℤ) ∣ a - ((encodingOf (digits (3 * k) v.toInt) k : ℕ) +
        s * 3 ^ (encodingLength undef k - 1)) ∧
      (∀ i < k - 1, a.testBit i = true →
        (encodingOf (digits (3 * k) v.toInt) k).testBit i = true) ∧
      a.testBit (k - 1) = (encodingOf (digits (3 * k) v.toInt) k).testBit (k - 1) := by
  have hbound := minTrits_le_of_lt hv
  have h₀ : v ≠ 0 := by
    rintro rfl
    have hone : minTrits 0 ≤ 1 := minTrits_le_of_room le_rfl (by decide)
    omega
  have htrytes : trytes v = k := by
    unfold trytes
    omega
  obtain ⟨x, hx⟩ : ∃ x, x = digits (3 * k) v.toInt := ⟨_, rfl⟩
  have htrits : Trits x := hx ▸ trits_digits _ _
  have hlx : x.length = 3 * k := by rw [hx, length_digits]
  have hval : value x = v.toInt := by
    rw [hx]
    exact value_digits (hsize ▸ two_mul_abs_toInt_lt v)
  rw [← hx] at hgap ⊢
  have hlast := value_last_ne_zero (by omega) hlx htrits hval (by omega)
  have he := encodingOf_lt (x := x) (by omega : 1 ≤ k)
  have hword := toInt_signs (by omega : k < 31) he
  have hfour : 3 < encodingLength undef k := by
    refine lt_encodingLength undef (by omega) ?_
    have hpow : 2 ^ 4 ≤ 2 ^ k := Nat.pow_le_pow_right (by decide) hk
    omega
  obtain ⟨n, hn⟩ : ∃ n, encodingLength undef k = n + 1 := ⟨encodingLength undef k - 1, by omega⟩
  obtain ⟨buf, hbuf⟩ : ∃ buf : List ℤ,
      buf = List.replicate (3 * k) 0 ++ (List.replicate n 0 ++ [s]) := ⟨_, rfl⟩
  have hlen : buf.length = 3 * k + encodingLength undef k := by
    rw [hbuf, List.length_append, List.length_append, List.length_replicate, List.length_replicate,
      List.length_singleton, hn]
  have hrest : (longToTrits v buf).1.drop (3 * k) = List.replicate n 0 ++ [s] := by
    rw [drop_longToTrits v (by omega) hsize.le (by omega), hbuf,
      List.drop_left' List.length_replicate]
  have hnumber : (longToTrits v buf).1.take (minTrits v) = digits (minTrits v) v.toInt :=
    longToTrits_take v (by omega) (by omega)
  rw [hsize, ← hx] at hnumber
  have hdec := decoded_of_selfDelimiting h h₀ (ne_minValue_of_lt hv) htrytes (by omega) (by omega)
    hlen hnumber htrits hlx hlast
  have hzeros : (List.replicate n (0 : ℤ)).length = n := List.length_replicate
  have hroom := two_mul_abs_toInt_lt (Int64.ofNat (encodingOf x k))
  have hpow : (3 : ℤ) ^ minTrits (Int64.ofNat (encodingOf x k)) ≤ 3 ^ n :=
    pow_le_pow_right₀ (by decide) (by omega)
  have hcodelen : (digits n (encodingOf x k) ++ [s]).length = n + 1 := by
    rw [List.length_append, length_digits, List.length_singleton]
  rw [hword] at hroom
  rw [hrest, longToTrits_append _ (by omega) (by omega), longToTrits_zeros _ (by omega) (by omega),
    hword, hn, List.take_of_length_le hcodelen.le, tritsToLong_eq,
    List.take_of_length_le hcodelen.le, value_append, length_digits, value_digits (by omega),
    value_cons, value_nil, Int.mul_zero, Int.add_zero, Int.mul_comm] at hdec
  -- the place of the signs is short, and so is what is read from it
  have hplace : (3 : ℤ) ^ n ≤ 2 * (2 ^ k - 1) := by
    by_contra hlt
    have hpos : 0 < 2 ^ k := by positivity
    have hle := encodingLength_le undef (k := k) (n := n) (by omega) (by omega) (by
      have hcast : ((2 ^ k : ℕ) : ℤ) = 2 ^ k := Nat.cast_pow 2 k
      have hcast' : ((3 ^ n : ℕ) : ℤ) = 3 ^ n := Nat.cast_pow 3 n
      omega)
    omega
  have hsmall : (2 : ℤ) ^ k ≤ 2 ^ 11 := pow_le_pow_right₀ (by decide) (by omega)
  have hcast : (encodingOf x k : ℤ) < 2 ^ k := by exact_mod_cast he
  have hpos : (0 : ℤ) < 3 ^ n := by positivity
  have hfits : Word.Fits ((encodingOf x k : ℤ) + s * 3 ^ n) := by
    rcases hs with rfl | rfl | rfl <;> constructor <;> omega
  rw [toSize_ofInt hfits] at hdec
  have hmod := Int.emod_nonneg ((encodingOf x k : ℤ) + s * 3 ^ n) (by decide : (2 : ℤ) ^ 64 ≠ 0)
  have hsub : (2 : ℤ) ^ 64 ∣ ((encodingOf x k : ℤ) + s * 3 ^ n) % 2 ^ 64 -
      ((encodingOf x k : ℤ) + s * 3 ^ n) := by
    rw [← Int.dvd_neg, neg_sub]
    exact Int.dvd_self_sub_emod
  rw [hn, Nat.add_sub_cancel]
  refine ⟨(((encodingOf x k : ℤ) + s * 3 ^ n) % 2 ^ 64).toNat, ?_, ?_⟩
  · rw [Int.toNat_of_nonneg hmod, Nat.cast_pow]
    exact (pow_dvd_pow 2 (by omega : k ≤ 64)).trans hsub
  generalize (((encodingOf x k : ℤ) + s * 3 ^ n) % 2 ^ 64).toNat = a at hdec
  have hy : (resign x (encodingOf x k) k 0).length = 3 * k := length_resign _ (by omega)
  have hyt := trits_resign htrits (encodingOf x k) k 0
  have hread : (resign (resign x (encodingOf x k) k 0) a k 0).length = 3 * k :=
    length_resign _ (by omega)
  have hrange := two_mul_abs_lt.mp (two_mul_abs_value_lt (trits_resign hyt a k 0))
  have hpow27 : (3 : ℤ) ^ (3 * k) ≤ 3 ^ 35 := pow_le_pow_right₀ (by decide) (by omega)
  rw [hread] at hrange
  rw [sumTrytes_eq hyt _ hy.ge (by omega)] at hdec
  have hsame := congrArg Int64.toInt hdec
  rw [Word.toInt_ofInt ⟨by omega, by omega⟩] at hsame
  exact bits_of_turned htrits hlx hlast (by omega) (hsame.symm.trans hval.symm)

/-- **A gap in the signs' place** is read as other signs, for one of the two trits. -/
theorem not_selfDelimiting_of_signs (hv : |v.toInt| < 2 ^ 53) (hsize : minTrits v = 3 * k)
    (hk : 4 ≤ k)
    (hgap : minTrits (Int64.ofNat (encodingOf (digits (3 * k) v.toInt) k)) <
      encodingLength undef k) : ¬ SelfDelimiting undef v := by
  intro h
  have he := encodingOf_lt (x := digits (3 * k) v.toInt) (by omega : 1 ≤ k)
  obtain ⟨a, ha, hlowa, htopa⟩ := bits_of_stale h hv hsize hk hgap (s := 1) (by decide)
  obtain ⟨b, hb, hlowb, htopb⟩ := bits_of_stale h hv hsize hk hgap (s := -1) (by decide)
  have hodd : 3 ^ (encodingLength undef k - 1) % 2 = 1 := by
    rw [Nat.pow_mod]
    simp
  refine exists_turned (by omega) he hodd (by push_cast at ha ⊢; rwa [one_mul] at ha)
    (by push_cast at hb ⊢; rwa [neg_one_mul, ← sub_eq_add_neg] at hb)
    (fun i hi => ⟨hlowa i hi, hlowb i hi⟩) ⟨htopa, htopb⟩

/-- **The numbers whose code is their own** are the clean ones. -/
theorem selfDelimiting_iff (undef : ℕ → ℤ) (hv : |v.toInt| < 2 ^ 53) :
    SelfDelimiting undef v ↔ Clean undef v := by
  refine ⟨fun h => ?_, selfDelimiting_of_clean hv⟩
  by_cases h₀ : v = 0
  · exact .inl h₀
  have hk3 : 3 ≤ trytes v := by
    by_contra hlt
    exact not_selfDelimiting_of_short h₀ (ne_minValue_of_lt hv) (by omega) h
  have hsize : minTrits v = 3 * trytes v := by
    by_contra hne
    refine not_selfDelimiting_of_gap hv rfl hk3 ?_ h
    unfold trytes at hne ⊢
    omega
  have hbound := minTrits_le_of_lt hv
  refine .inr ⟨trytes v, hk3, hsize, ?_⟩
  by_contra hsigns
  obtain ⟨hk, hne⟩ := not_or.mp hsigns
  refine not_selfDelimiting_of_signs hv hsize (by omega) (Nat.lt_of_le_of_ne ?_ hne) h
  have he := encodingOf_lt (x := digits (3 * trytes v) v.toInt) (one_le_trytes v)
  have hroom := room_of_encodingLength undef (by omega : trytes v < 31) he
  have hone : 0 < encodingLength undef (trytes v) := by
    refine lt_encodingLength undef (by omega) ?_
    have hpow : 2 ^ 3 ≤ 2 ^ trytes v := Nat.pow_le_pow_right (by decide) hk3
    omega
  exact minTrits_le_of_room hone
    (by rwa [toInt_signs (by omega : trytes v < 31) he, Nat.abs_cast])

/-- **The code is self-delimiting** exactly for the clean numbers, and `decode_long` takes no more
than the given trits exactly where these are complete. -/
theorem encodeLong_decodeLong_iff (undef : ℕ → ℤ) {v : Int64} (hv : |v.toInt| < 2 ^ 53)
    (mem : ℕ → ℤ) (numTrits : ℕ) :
    (SelfDelimiting undef v ↔ Clean undef v) ∧
      ((∀ size, (decodeLongIn undef mem numTrits).2 = some size → size ≤ numTrits) ↔
        Complete undef mem numTrits) :=
  ⟨selfDelimiting_iff undef hv, consumes_iff undef mem numTrits⟩

/-- 5000 takes nine trits, and is read back from any buffer. -/
theorem five_thousand_selfDelimiting : SelfDelimiting (fun _ => 0) 5000 ∧
    ∀ size, (decodeLongIn (fun _ => 0) (memory encodedZero) 4).2 = some size → size ≤ 4 := by
  have hsize : minTrits 5000 = 9 := by
    have hroom := two_mul_abs_toInt_lt (5000 : Int64)
    have hle : minTrits 5000 ≤ 9 := minTrits_le_of_room (by decide) (by decide)
    by_contra hne
    have hpow : (3 : ℤ) ^ minTrits 5000 ≤ 3 ^ 8 := pow_le_pow_right₀ (by decide) (by omega)
    have habs : |(5000 : Int64).toInt| = 5000 := by decide
    omega
  have hcode := encodeLong_decodeLong_iff (fun _ => 0) (v := 5000) (by decide) (memory encodedZero) 4
  refine ⟨hcode.1.mpr (.inr ⟨3, le_rfl, hsize, .inl rfl⟩), hcode.2.mpr ?_⟩
  rw [Complete, if_pos (by decide)]

/-- The signs of 1 are cleared past the end of its code; and of the three trits -1, 1, 0, with
nothing behind them, four are taken. -/
theorem one_not_selfDelimiting : ¬ SelfDelimiting (fun _ => 0) 1 ∧
    (decodeLongIn (fun _ => 0) (memory [-1, 1, 0]) 3).2 = some 4 := by
  have hone : ∀ w : Int64, w.toInt = 1 → minTrits w = 1 := fun w hw =>
    le_antisymm (minTrits_le_of_room le_rfl (by rw [hw]; decide)) (one_le_minTrits w)
  constructor
  · refine not_selfDelimiting_of_short (by decide) (by decide) ?_
    rw [trytes, hone 1 (by decide)]
    decide
  · rw [decodeLongIn_of_above (fun _ => 0) (k := 0) (by decide) (by decide) (by decide)
      (fun j hj => absurd hj (Nat.not_lt_zero j)) (by decide), encodingLength_eq _ (by decide),
      hone _ (by decide)]

end Prototype

end Entangled
