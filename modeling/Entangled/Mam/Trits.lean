import Entangled.Common.Replay
import Entangled.Common.Trit
import Entangled.Trinary.Long
/-!
# Numbers in trits

How the messages spell numbers: `trits_put3` to `trits_put18` with the functions that read them
back, and a size, which is spelled by the number of its trytes and then by these. Digits are cut
off with a remainder and a quotient that are shifted to be balanced; both spell the balanced digits
of `Trit.spell`.
-/

namespace Entangled

namespace Mam

open Ternary Trinary

/-- `MAM_MODS`, with the remainder of `int`. -/
def mods (t M m : ℤ) : ℤ := (t + (M - 1) / 2).tmod m - (m - 1) / 2

/-- `MAM_DIVS`, with the quotient of `int`. -/
def divs (t M m : ℤ) : ℤ := (t + (M - 1) / 2).tdiv m - (M / m - 1) / 2

/-- `trits_put3`. -/
def put3 (t : ℤ) : List Trit :=
  let t0 := mods t (3 * 3 * 3) 3
  let t := divs t (3 * 3 * 3) 3
  let t1 := mods t (3 * 3) 3
  let t := divs t (3 * 3) 3
  [.ofInt t0, .ofInt t1, .ofInt t]

/-- `trits_get3`, of the first three trits. -/
def get3 (x : List Trit) : ℤ :=
  (x.getD 0 .zero).toInt + 3 * (x.getD 1 .zero).toInt + 9 * (x.getD 2 .zero).toInt

/-- `trits_put6`. -/
def put6 (t : ℤ) : List Trit := put3 (mods t (27 * 27) 27) ++ put3 (divs t (27 * 27) 27)

/-- `trits_get6`. -/
def get6 (x : List Trit) : ℤ := get3 x + 27 * get3 (x.drop 3)

/-- `trits_put9`. -/
def put9 (t : ℤ) : List Trit :=
  let t0 := mods t (27 * 27 * 27) 27
  let t := divs t (27 * 27 * 27) 27
  let t1 := mods t (27 * 27) 27
  let t := divs t (27 * 27) 27
  put3 t0 ++ put3 t1 ++ put3 t

/-- `trits_get9`. -/
def get9 (x : List Trit) : ℤ := get3 x + 27 * get3 (x.drop 3) + 729 * get3 (x.drop 6)

/-- `trits_put18`. -/
def put18 (t : ℤ) : List Trit :=
  put9 (mods t (19683 * 19683) 19683) ++ put9 (divs t (19683 * 19683) 19683)

/-- `trits_get18`. -/
def get18 (x : List Trit) : ℤ := get9 x + 19683 * get9 (x.drop 9)

/-- `MAM_TRITS_SIZE_MAX`. -/
def tritsSizeMax : ℕ := 2026277576509488133

/-- The loop of `trits_size_t_trytes`, for so many rounds. -/
def sizeTrytesFrom (n : ℕ) : ℕ → ℕ → ℕ → ℕ
  | 0, d, _ => d
  | rounds + 1, d, m =>
    if (m - 1) / 2 < n then sizeTrytesFrom n rounds (d + 1) (m * 27 % 2 ^ 64) else d

/-- `trits_size_t_trytes`. -/
def sizeTrytes (n : ℕ) : ℕ := sizeTrytesFrom n 14 0 1

/-- `trits_sizeof_size_t`. -/
def sizeofSizeT (n : ℕ) : ℕ := 3 * (sizeTrytes n + 1)

/-- `trits_encode_size_t`. The buffer was cleared before. -/
def encodeSizeT (n : ℕ) : List Trit :=
  let d := sizeTrytes n
  put3 d ++
    if 0 < n then
      Trit.ofInts (longToTrits (Int64.ofNat n) (List.replicate (3 * d) 0)).1
    else []

/-- `retcode_t`, the errors of this library. -/
inductive Error
  | nullParam
  | oom
  | pb3Eof
  | pb3BadOneof
  | pb3BadMac
  | pb3BadSig
  | pb3BadEkey
  | invalidValue
  | invalidArgument
  | versionNotSupported
  | channelNotTrusted
  | endpointNotTrusted
  | keyloadOverloaded
  | keyloadIrrelevant
  | mssExhausted
  | messageNotFound
  | badPacketOrd
  | recvCtxNotFound
  | sendCtxNotFound
  | bundleNotEmpty
  | channelNotFound
  | endpointNotFound
  deriving DecidableEq, Repr

/-- `trits_decode_size_t`: the size and what is left of the buffer. -/
def decodeSizeT (buffer : List Trit) : Except Error ℕ × List Trit :=
  if buffer.length < 3 then (.error .pb3Eof, buffer)
  else
    let d := get3 buffer
    let buffer := buffer.drop 3
    if d < 0 ∨ 13 < d then (.error .invalidValue, buffer)
    else if buffer.length < 3 * d.toNat then (.error .pb3Eof, buffer)
    else
      let size := (tritsToLong (Trit.toInts buffer) (3 * d.toNat)).toUInt64.toNat
      (.ok size, buffer.drop (3 * d.toNat))

/-! ## Balanced digits -/

theorem mods_eq {t M m : ℤ} (h : 0 ≤ t + (M - 1) / 2) :
    mods t M m = (t + (M - 1) / 2) % m - (m - 1) / 2 := by
  rw [mods, Int.tmod_eq_emod_of_nonneg h]

theorem divs_eq {t M m : ℤ} (h : 0 ≤ t + (M - 1) / 2) :
    divs t M m = (t + (M - 1) / 2) / m - (M / m - 1) / 2 := by
  rw [divs, Int.tdiv_eq_ediv_of_nonneg h]

/-- What the two cut a number into. -/
theorem mods_add_divs {t M m : ℤ} (h : 0 ≤ t + (M - 1) / 2)
    (hM : (M - 1) / 2 = (m - 1) / 2 + m * ((M / m - 1) / 2)) :
    t = mods t M m + m * divs t M m := by
  rw [mods_eq h, divs_eq h, mul_sub]
  have hdiv := Int.emod_add_mul_ediv (t + (M - 1) / 2) m
  linarith

theorem put3_eq {t : ℤ} (ht : 2 * |t| < 3 ^ 3) : put3 t = Trit.spell 3 t := by
  rw [two_mul_abs_lt] at ht
  have h0 : mods t 27 3 = digit t := by
    rw [mods_eq (by omega), digit]
    omega
  have hc : divs t 27 3 = carry t := by
    rw [divs_eq (by omega), carry]
    omega
  have hr : -4 ≤ carry t ∧ carry t ≤ 4 := by
    unfold carry
    omega
  have h1 : mods (carry t) 9 3 = digit (carry t) := by
    rw [mods_eq (by omega), digit]
    omega
  have h2 : divs (carry t) 9 3 = digit (carry (carry t)) := by
    rw [divs_eq (by omega), carry, digit]
    unfold carry at hr ⊢
    omega
  show [Trit.ofInt (mods t 27 3), .ofInt (mods (divs t 27 3) 9 3), .ofInt (divs (divs t 27 3) 9 3)] =
    _
  rw [h0, hc, h1, h2]
  rfl

theorem put6_eq {t : ℤ} (ht : 2 * |t| < 3 ^ 6) : put6 t = Trit.spell 6 t := by
  rw [two_mul_abs_lt] at ht
  have hcut : t = mods t 729 27 + 3 ^ 3 * divs t 729 27 := mods_add_divs (by omega) (by decide)
  have hlo : 2 * |mods t 729 27| < 3 ^ 3 := by
    rw [two_mul_abs_lt, mods_eq (by omega)]
    omega
  have hhi : 2 * |divs t 729 27| < 3 ^ 3 := by
    rw [two_mul_abs_lt, divs_eq (by omega)]
    omega
  show put3 (mods t 729 27) ++ put3 (divs t 729 27) = _
  rw [put3_eq hlo, put3_eq hhi, ← Trit.spell_append hlo, ← hcut]

theorem put9_eq {t : ℤ} (ht : 2 * |t| < 3 ^ 9) : put9 t = Trit.spell 9 t := by
  rw [two_mul_abs_lt] at ht
  have hcut : t = mods t 19683 27 + 3 ^ 3 * divs t 19683 27 := mods_add_divs (by omega) (by decide)
  have hlo : 2 * |mods t 19683 27| < 3 ^ 3 := by
    rw [two_mul_abs_lt, mods_eq (by omega)]
    omega
  have hhi : 2 * |divs t 19683 27| < 3 ^ 6 := by
    rw [two_mul_abs_lt, divs_eq (by omega)]
    omega
  show put3 (mods t 19683 27) ++ put3 (mods (divs t 19683 27) 729 27) ++
    put3 (divs (divs t 19683 27) 729 27) = _
  rw [List.append_assoc]
  show _ ++ put6 (divs t 19683 27) = _
  rw [put3_eq hlo, put6_eq hhi, ← Trit.spell_append hlo, ← hcut]

theorem put18_eq {t : ℤ} (ht : 2 * |t| < 3 ^ 18) : put18 t = Trit.spell 18 t := by
  rw [two_mul_abs_lt] at ht
  have hcut : t = mods t (19683 * 19683) 19683 + 3 ^ 9 * divs t (19683 * 19683) 19683 :=
    mods_add_divs (by omega) (by decide)
  have hlo : 2 * |mods t (19683 * 19683) 19683| < 3 ^ 9 := by
    rw [two_mul_abs_lt, mods_eq (by omega)]
    omega
  have hhi : 2 * |divs t (19683 * 19683) 19683| < 3 ^ 9 := by
    rw [two_mul_abs_lt, divs_eq (by omega)]
    omega
  rw [put18, put9_eq hlo, put9_eq hhi, ← Trit.spell_append hlo, ← hcut]

theorem length_put3 (t : ℤ) : (put3 t).length = 3 := rfl

theorem length_put9 (t : ℤ) : (put9 t).length = 9 := rfl

theorem length_put18 (t : ℤ) : (put18 t).length = 18 := rfl

theorem get3_bound (x : List Trit) : -13 ≤ get3 x ∧ get3 x ≤ 13 := by
  have h0 := Trit.isTrit_toInt (x.getD 0 .zero)
  have h1 := Trit.isTrit_toInt (x.getD 1 .zero)
  have h2 := Trit.isTrit_toInt (x.getD 2 .zero)
  unfold IsTrit at h0 h1 h2
  unfold get3
  omega

theorem get3_append {x : List Trit} (hx : x.length = 3) (rest : List Trit) :
    get3 (x ++ rest) = Trit.value x := by
  obtain ⟨a, b, c, rfl⟩ := List.length_eq_three.mp hx
  show a.toInt + 3 * b.toInt + 9 * c.toInt = a.toInt + 3 * (b.toInt + 3 * (c.toInt + 3 * 0))
  ring

theorem get6_append {x : List Trit} (hx : x.length = 6) (rest : List Trit) :
    get6 (x ++ rest) = Trit.value x := by
  have hlo : (x.take 3).length = 3 := by rw [List.length_take, hx]; rfl
  have hhi : (x.drop 3).length = 3 := by rw [List.length_drop, hx]
  rw [get6, ← List.take_append_drop 3 x, List.append_assoc, get3_append hlo,
    List.drop_left' hlo, get3_append hhi, List.take_append_drop]
  exact (Trit.value_take_drop (by omega)).symm

theorem get9_append {x : List Trit} (hx : x.length = 9) (rest : List Trit) :
    get9 (x ++ rest) = Trit.value x := by
  have hlo : (x.take 3).length = 3 := by rw [List.length_take, hx]; rfl
  have hhi : (x.drop 3).length = 6 := by rw [List.length_drop, hx]
  have h6 : get6 (x.drop 3 ++ rest) = _ := get6_append hhi rest
  have hdrop : (x ++ rest).drop 6 = (x.drop 3 ++ rest).drop 3 := by
    rw [List.drop_append_of_le_length (by omega), List.drop_append_of_le_length (by omega),
      List.drop_drop]
  have h3 : (x ++ rest).drop 3 = x.drop 3 ++ rest := List.drop_append_of_le_length (by omega)
  have hget : get9 (x ++ rest) = get3 (x ++ rest) + 27 * get6 (x.drop 3 ++ rest) := by
    rw [get9, get6, hdrop, h3]
    ring
  have hget3 : get3 (x ++ rest) = Trit.value (x.take 3) := by
    conv_lhs => rw [← List.take_append_drop 3 x, List.append_assoc]
    exact get3_append hlo _
  rw [hget, hget3, h6]
  exact (Trit.value_take_drop (by omega)).symm

theorem get18_append {x : List Trit} (hx : x.length = 18) (rest : List Trit) :
    get18 (x ++ rest) = Trit.value x := by
  have hlo : (x.take 9).length = 9 := by rw [List.length_take, hx]; rfl
  have hhi : (x.drop 9).length = 9 := by rw [List.length_drop, hx]
  rw [get18, ← List.take_append_drop 9 x, List.append_assoc, get9_append hlo,
    List.drop_left' hlo, get9_append hhi, List.take_append_drop]
  exact (Trit.value_take_drop (by omega)).symm

theorem get3_put3 {t : ℤ} (ht : 2 * |t| < 3 ^ 3) (rest : List Trit) :
    get3 (put3 t ++ rest) = t := by
  rw [get3_append (length_put3 t), put3_eq ht, Trit.value_spell ht]

theorem get9_put9 {t : ℤ} (ht : 2 * |t| < 3 ^ 9) (rest : List Trit) :
    get9 (put9 t ++ rest) = t := by
  rw [get9_append (length_put9 t), put9_eq ht, Trit.value_spell ht]

theorem get18_put18 {t : ℤ} (ht : 2 * |t| < 3 ^ 18) (rest : List Trit) :
    get18 (put18 t ++ rest) = t := by
  rw [get18_append (length_put18 t), put18_eq ht, Trit.value_spell ht]

/-! ## Sizes -/

theorem sizeTrytesFrom_spec {n d r : ℕ} (hn : 2 * n < 27 ^ 13) (hd : d + r = 14)
    (hle : d ≤ 13) :
    sizeTrytesFrom n r d (27 ^ d) ≤ 13 ∧ 2 * n < 27 ^ sizeTrytesFrom n r d (27 ^ d) := by
  induction r generalizing d with
  | zero => omega
  | succ r ih =>
    have hodd : 27 ^ d % 2 = 1 := by rw [Nat.pow_mod]; simp
    have hpos : 0 < 27 ^ d := Nat.pow_pos (by decide)
    unfold sizeTrytesFrom
    split_ifs with hlt
    · have hne : d ≠ 13 := by
        rintro rfl
        omega
      have hpow : 27 ^ d * 27 % 2 ^ 64 = 27 ^ (d + 1) := by
        rw [← pow_succ]
        exact Nat.mod_eq_of_lt (lt_of_le_of_lt (Nat.pow_le_pow_right (by decide) (by omega))
          (by decide : 27 ^ 13 < 2 ^ 64))
      rw [hpow]
      exact ih (by omega) (by omega)
    · exact ⟨hle, by omega⟩

theorem sizeTrytes_spec {n : ℕ} (hn : n ≤ tritsSizeMax) :
    sizeTrytes n ≤ 13 ∧ 2 * n < 27 ^ sizeTrytes n :=
  sizeTrytesFrom_spec (r := 14) (d := 0) (by unfold tritsSizeMax at hn; omega) rfl (by decide)

/-- The trytes of a size, written behind their number. -/
theorem encodeSizeT_eq {n : ℕ} (hn : n ≤ tritsSizeMax) :
    encodeSizeT n = put3 (sizeTrytes n) ++ Trit.spell (3 * sizeTrytes n) n := by
  obtain ⟨hle, hfits⟩ := sizeTrytes_spec hn
  rw [encodeSizeT]
  congr 1
  split_ifs with hpos
  · have hone : 1 ≤ sizeTrytes n := by
      by_contra hlt
      rw [show sizeTrytes n = 0 by omega] at hfits
      omega
    have hint : (Int64.ofNat n).toInt = n :=
      Int64.toInt_ofNat_of_lt (by unfold tritsSizeMax at hn; omega)
    have hsize : minTrits (Int64.ofNat n) ≤ 3 * sizeTrytes n := by
      rw [minTrits, vAbs_eq, hint]
      exact minTritsFrom_le rfl (by omega) (by rw [pow_mul]; exact hfits)
    rw [longToTrits_zeros _ (by omega) hsize, hint, Trit.spell]
  · obtain rfl : n = 0 := by omega
    rfl

theorem length_encodeSizeT {n : ℕ} (hn : n ≤ tritsSizeMax) :
    (encodeSizeT n).length = sizeofSizeT n := by
  rw [encodeSizeT_eq hn, List.length_append, length_put3, Trit.length_spell, sizeofSizeT]
  omega

/-- **A size is read as it was written.** -/
theorem decodeSizeT_encodeSizeT {n : ℕ} (hn : n ≤ tritsSizeMax) (rest : List Trit) :
    decodeSizeT (encodeSizeT n ++ rest) = (.ok n, rest) := by
  obtain ⟨hle, hfits⟩ := sizeTrytes_spec hn
  have htryte : 2 * |(sizeTrytes n : ℤ)| < 3 ^ 3 := by
    rw [Nat.abs_cast]
    omega
  have hlen : (Trit.spell (3 * sizeTrytes n) (n : ℤ)).length = 3 * sizeTrytes n :=
    Trit.length_spell _ _
  rw [encodeSizeT_eq hn, List.append_assoc, decodeSizeT, if_neg (by simp [length_put3])]
  simp only [get3_put3 htryte]
  have hdrop : (put3 (sizeTrytes n) ++ (Trit.spell (3 * sizeTrytes n) (n : ℤ) ++ rest)).drop 3 =
      Trit.spell (3 * sizeTrytes n) (n : ℤ) ++ rest := List.drop_left' (length_put3 _)
  rw [if_neg (by omega), hdrop, Int.toNat_natCast,
    if_neg (by rw [List.length_append, hlen]; omega), List.drop_left' hlen]
  have hvalue : (tritsToLong (Trit.toInts (Trit.spell (3 * sizeTrytes n) (n : ℤ) ++ rest))
      (3 * sizeTrytes n)).toUInt64.toNat = n := by
    have htake : (Trit.toInts (Trit.spell (3 * sizeTrytes n) (n : ℤ) ++ rest)).take
        (3 * sizeTrytes n) = Trit.toInts (Trit.spell (3 * sizeTrytes n) (n : ℤ)) := by
      rw [Trit.toInts, List.map_append]
      exact List.take_left' (by rw [List.length_map, hlen])
    have hspell : Trit.value (Trit.spell (3 * sizeTrytes n) (n : ℤ)) = n := by
      refine Trit.value_spell ?_
      rw [Nat.abs_cast, pow_mul]
      exact_mod_cast hfits
    rw [tritsToLong_eq, htake]
    show (Int64.ofInt (Trit.value _)).toUInt64.toNat = n
    rw [hspell]
    show (Int64.ofNat n).toUInt64.toNat = n
    rw [Int64.toUInt64_ofNat', UInt64.toNat_ofNat']
    exact Nat.mod_eq_of_lt (by unfold tritsSizeMax at hn; omega)
  rw [hvalue]

end Mam

end Entangled
