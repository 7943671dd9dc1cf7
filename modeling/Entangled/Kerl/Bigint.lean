import Mathlib.Data.Nat.Digits.Lemmas
import Mathlib.Tactic.Ring
/-!
# Numbers in words of 32 bits

`bigint.c`. A number is a list of words, least significant first, and `Nat.ofDigits (2 ^ 32)` is
the number it spells. The loops that stop early are given with the words they leave alone:
`bigint_add_small` carries on as long as there is a carry, over whatever stands behind the number.
-/

namespace Entangled

namespace Bigint

/-- The number of a list of words. -/
def value (ws : List ℕ) : ℕ := Nat.ofDigits (2 ^ 32) ws

/-- Every entry fits a word. -/
def Words (ws : List ℕ) : Prop := ∀ w ∈ ws, w < 2 ^ 32

/-- `full_add`: the word and the carry. -/
def fullAdd (carry : Bool) (lh rh : ℕ) : ℕ × Bool :=
  let v := lh + rh
  let carry1 := decide (v / 2 ^ 32 ≠ 0)
  if carry then
    let w := v % 2 ^ 32 + 1
    (w % 2 ^ 32, carry1 || decide (w / 2 ^ 32 ≠ 0))
  else (v % 2 ^ 32, carry1)

/-- The loop of `bigint_add_small`: the words and how many of them it came by. -/
def propagate : List ℕ → List ℕ × ℕ
  | [] => ([], 0)
  | w :: ws =>
    let fa := fullAdd true w 0
    if fa.2 then
      let r := propagate ws
      (fa.1 :: r.1, r.2 + 1)
    else (fa.1 :: ws, 1)

/-- `bigint_add_small`: the words, and the size it returns. -/
def bigintAddSmall : List ℕ → ℕ → List ℕ × ℕ
  | [], _ => ([], 1)
  | w :: ws, other =>
    let fa := fullAdd false w other
    if fa.2 then
      let r := propagate ws
      (fa.1 :: r.1, r.2 + 1)
    else (fa.1 :: ws, 1)

/-- The loop of `bigint_add`. -/
def addLoop : Bool → List ℕ → List ℕ → List ℕ
  | carry, l :: lh, r :: rh =>
    let fa := fullAdd carry l r
    fa.1 :: addLoop fa.2 lh rh
  | _, lh, _ => lh

/-- `bigint_add`. -/
def bigintAdd (base rh : List ℕ) : List ℕ := addLoop false base rh

/-- The loop of `bigint_sub`. -/
def subLoop : Bool → List ℕ → List ℕ → List ℕ
  | carry, l :: lh, r :: rh =>
    let fa := fullAdd carry l (2 ^ 32 - 1 - r)
    fa.1 :: subLoop fa.2 lh rh
  | _, lh, _ => lh

/-- `bigint_sub`. -/
def bigintSub (base rh : List ℕ) : List ℕ := subLoop true base rh

/-- The carry that the loop of `bigint_sub` ends with, which is what the source asserts. -/
def subCarry : Bool → List ℕ → List ℕ → Bool
  | carry, l :: lh, r :: rh => subCarry (fullAdd carry l (2 ^ 32 - 1 - r)).2 lh rh
  | carry, _, _ => carry

/-- `bigint_sub` with its assertion; `none` where it fails. -/
def bigintSubChecked (base rh : List ℕ) : Option (List ℕ) :=
  if subCarry true base rh then some (bigintSub base rh) else none

/-- `bigint_not`. -/
def bigintNot (base : List ℕ) : List ℕ := base.map fun w => 2 ^ 32 - 1 - w

/-- The loop of `bigint_cmp`, over the words from the top. -/
def cmpLoop : List ℕ → List ℕ → ℤ
  | l :: lh, r :: rh => if l < r then -1 else if r < l then 1 else cmpLoop lh rh
  | _, _ => 0

/-- `bigint_cmp`. -/
def bigintCmp (lh rh : List ℕ) : ℤ := cmpLoop lh.reverse rh.reverse

/-! ## Words and numbers -/

variable {ws lh rh : List ℕ} {w m : ℕ}

@[simp] theorem value_nil : value [] = 0 := rfl

@[simp] theorem value_cons (w : ℕ) (ws : List ℕ) : value (w :: ws) = w + 2 ^ 32 * value ws := by
  rw [value, Nat.ofDigits_cons, value]

theorem value_append (lh rh : List ℕ) :
    value (lh ++ rh) = value lh + (2 ^ 32) ^ lh.length * value rh := by
  rw [value, Nat.ofDigits_append, value, value]

@[simp] theorem words_nil : Words [] := by simp [Words]

@[simp] theorem words_cons : Words (w :: ws) ↔ w < 2 ^ 32 ∧ Words ws := by simp [Words]

theorem Words.take (h : Words ws) (m : ℕ) : Words (ws.take m) :=
  fun w hw => h w (List.mem_of_mem_take hw)

theorem room_succ (m : ℕ) : (2 ^ 32) ^ (m + 1) = 2 ^ 32 * (2 ^ 32) ^ m := Nat.pow_succ'

theorem value_lt (h : Words ws) : value ws < (2 ^ 32) ^ ws.length :=
  Nat.ofDigits_lt_base_pow_length (by decide) h

/-- A number has one spelling in a given number of words. -/
theorem value_injective (hl : Words lh) (hr : Words rh) (hlen : lh.length = rh.length)
    (h : value lh = value rh) : lh = rh :=
  Nat.ofDigits_inj_of_len_eq (by decide) hlen hl hr h

/-! ## Adding -/

theorem fullAdd_eq (carry : Bool) {l r : ℕ} (hl : l < 2 ^ 32) (hr : r < 2 ^ 32) :
    fullAdd carry l r =
      ((l + r + carry.toNat) % 2 ^ 32, decide (2 ^ 32 ≤ l + r + carry.toNat)) := by
  unfold fullAdd
  rcases carry with _ | _
  · simp only [Bool.false_eq_true, if_false, Bool.toNat_false, Nat.add_zero, Prod.mk.injEq,
      decide_eq_decide, true_and]
    omega
  · simp only [if_true, Bool.toNat_true, Prod.mk.injEq, ← Bool.decide_or, decide_eq_decide]
    omega

/-- **Carrying on**, as far as the carry goes. -/
theorem propagate_spec (hw : Words ws) (hm : m ≤ ws.length)
    (h : value (ws.take m) + 1 < (2 ^ 32) ^ m) :
    (propagate ws).2 ≤ m ∧ value ((propagate ws).1.take m) = value (ws.take m) + 1 ∧
      Words (propagate ws).1 ∧ (propagate ws).1.length = ws.length := by
  induction ws generalizing m with
  | nil =>
    obtain rfl : m = 0 := Nat.le_zero.mp hm
    exact absurd h (by decide)
  | cons w ws ih =>
    obtain ⟨hw₀, hws⟩ := words_cons.mp hw
    obtain ⟨k, rfl⟩ : ∃ k, m = k + 1 := by
      rcases m with _ | k
      · rw [List.take_zero, value_nil] at h
        omega
      · exact ⟨k, rfl⟩
    rw [List.take_succ_cons, value_cons, room_succ] at h
    rw [propagate, fullAdd_eq true hw₀ (by decide)]
    simp only [Nat.add_zero, Bool.toNat_true, decide_eq_true_eq]
    split_ifs with hc
    · -- the word was full
      obtain ⟨hsize, hval, hwords, hlen⟩ := ih hws (by simpa using hm) (by omega)
      refine ⟨by omega, ?_, words_cons.mpr ⟨by omega, hwords⟩, by simp [hlen]⟩
      rw [List.take_succ_cons, List.take_succ_cons, value_cons, value_cons, hval]
      omega
    · refine ⟨by omega, ?_, words_cons.mpr ⟨by omega, hws⟩, by simp⟩
      rw [List.take_succ_cons, List.take_succ_cons, value_cons, value_cons]
      omega

/-- Behind the words it came by nothing is touched. -/
theorem drop_propagate (ws : List ℕ) :
    (propagate ws).1.drop (propagate ws).2 = ws.drop (propagate ws).2 := by
  induction ws with
  | nil => rfl
  | cons w ws ih =>
    rw [propagate]
    dsimp only
    split_ifs
    · exact ih
    · rfl

/-- **Adding a small number**, where the first `m` words have room for it. -/
theorem bigintAddSmall_spec {d : ℕ} (hd : d < 2 ^ 32) (hw : Words ws) (hm₀ : 1 ≤ m)
    (hm : m ≤ ws.length) (h : value (ws.take m) + d < (2 ^ 32) ^ m) :
    (bigintAddSmall ws d).2 ≤ m ∧
      value ((bigintAddSmall ws d).1.take m) = value (ws.take m) + d ∧
      Words (bigintAddSmall ws d).1 ∧ (bigintAddSmall ws d).1.length = ws.length := by
  cases ws with
  | nil =>
    rw [List.length_nil] at hm
    omega
  | cons w ws =>
    obtain ⟨hw₀, hws⟩ := words_cons.mp hw
    obtain ⟨k, rfl⟩ : ∃ k, m = k + 1 := ⟨m - 1, by omega⟩
    rw [List.take_succ_cons, value_cons, room_succ] at h
    rw [bigintAddSmall, fullAdd_eq false hw₀ hd]
    simp only [Nat.add_zero, Bool.toNat_false, decide_eq_true_eq]
    split_ifs with hc
    · obtain ⟨hsize, hval, hwords, hlen⟩ := propagate_spec (m := k) hws (by simpa using hm)
        (by omega)
      refine ⟨by omega, ?_, words_cons.mpr ⟨by omega, hwords⟩, by simp [hlen]⟩
      rw [List.take_succ_cons, List.take_succ_cons, value_cons, value_cons, hval]
      omega
    · refine ⟨by omega, ?_, words_cons.mpr ⟨by omega, hws⟩, by simp⟩
      rw [List.take_succ_cons, List.take_succ_cons, value_cons, value_cons]
      omega

theorem drop_bigintAddSmall (ws : List ℕ) (d : ℕ) :
    (bigintAddSmall ws d).1.drop (bigintAddSmall ws d).2 = ws.drop (bigintAddSmall ws d).2 := by
  cases ws with
  | nil => rfl
  | cons w ws =>
    rw [bigintAddSmall]
    dsimp only
    split_ifs
    · exact drop_propagate ws
    · rfl

/-- Whatever the carry does, the words count modulo their room. -/
theorem value_propagate (hw : Words ws) :
    value (propagate ws).1 = (value ws + 1) % (2 ^ 32) ^ ws.length ∧ Words (propagate ws).1 ∧
      (propagate ws).1.length = ws.length := by
  induction ws with
  | nil => exact ⟨rfl, words_nil, rfl⟩
  | cons w ws ih =>
    obtain ⟨hw₀, hws⟩ := words_cons.mp hw
    obtain ⟨hval, hwords, hlen⟩ := ih hws
    have hlt := value_lt hws
    rw [propagate, fullAdd_eq true hw₀ (by decide), List.length_cons, room_succ]
    simp only [Nat.add_zero, Bool.toNat_true, decide_eq_true_eq]
    split_ifs with hc
    · refine ⟨?_, words_cons.mpr ⟨Nat.mod_lt _ (by decide), hwords⟩, congrArg Nat.succ hlen⟩
      have hfull : w + 1 = 2 ^ 32 := by omega
      rw [value_cons, value_cons, hval, hfull, Nat.mod_self, Nat.zero_add, Nat.add_right_comm, hfull,
        show 2 ^ 32 + 2 ^ 32 * value ws = 2 ^ 32 * (value ws + 1) by omega, Nat.mul_mod_mul_left]
    · refine ⟨?_, words_cons.mpr ⟨Nat.mod_lt _ (by decide), hws⟩, rfl⟩
      rw [value_cons, value_cons, Nat.mod_eq_of_lt (by omega : w + 1 < 2 ^ 32),
        Nat.mod_eq_of_lt (by omega)]
      omega

theorem value_bigintAddSmall {d : ℕ} (hd : d < 2 ^ 32) (hw : Words ws) :
    value (bigintAddSmall ws d).1 = (value ws + d) % (2 ^ 32) ^ ws.length ∧
      Words (bigintAddSmall ws d).1 ∧ (bigintAddSmall ws d).1.length = ws.length := by
  cases ws with
  | nil => exact ⟨(Nat.mod_one _).symm, words_nil, rfl⟩
  | cons w ws =>
    obtain ⟨hw₀, hws⟩ := words_cons.mp hw
    obtain ⟨hval, hwords, hlen⟩ := value_propagate hws
    have hlt := value_lt hws
    rw [bigintAddSmall, fullAdd_eq false hw₀ hd, List.length_cons, room_succ]
    simp only [Nat.add_zero, Bool.toNat_false, decide_eq_true_eq]
    split_ifs with hc
    · refine ⟨?_, words_cons.mpr ⟨Nat.mod_lt _ (by decide), hwords⟩, congrArg Nat.succ hlen⟩
      -- what is left of the lowest word does not matter to the remainder
      have hlow : (w + d) % 2 ^ 32 < 2 ^ 32 := Nat.mod_lt _ (by decide)
      have hsplit : w + 2 ^ 32 * value ws + d =
          (w + d) % 2 ^ 32 + 2 ^ 32 * (value ws + 1) := by omega
      rw [value_cons, value_cons, hval, hsplit, Nat.mod_mul, Nat.add_mul_mod_self_left,
        Nat.mod_eq_of_lt hlow, Nat.add_mul_div_left _ _ (by decide), Nat.div_eq_of_lt hlow,
        Nat.zero_add]
    · refine ⟨?_, words_cons.mpr ⟨Nat.mod_lt _ (by decide), hws⟩, rfl⟩
      rw [value_cons, value_cons, Nat.mod_eq_of_lt (by omega : w + d < 2 ^ 32),
        Nat.mod_eq_of_lt (by omega)]
      omega

theorem addLoop_spec (carry : Bool) (hl : Words lh) (hr : Words rh)
    (hlen : lh.length = rh.length) :
    Words (addLoop carry lh rh) ∧ (addLoop carry lh rh).length = lh.length ∧
      value (addLoop carry lh rh) = (value lh + value rh + carry.toNat) % (2 ^ 32) ^ lh.length := by
  induction lh generalizing carry rh with
  | nil => exact ⟨words_nil, rfl, (Nat.mod_one _).symm⟩
  | cons l lh ih =>
    rcases rh with _ | ⟨r, rh⟩
    · cases hlen
    · obtain ⟨hl₀, hl'⟩ := words_cons.mp hl
      obtain ⟨hr₀, hr'⟩ := words_cons.mp hr
      obtain ⟨hwords, hlength, hval⟩ := ih (fullAdd carry l r).2 hl' hr' (by simpa using hlen)
      have hlow : (l + r + carry.toNat) % 2 ^ 32 < 2 ^ 32 := Nat.mod_lt _ (by decide)
      rw [fullAdd_eq carry hl₀ hr₀] at hwords hlength hval
      rw [addLoop, fullAdd_eq carry hl₀ hr₀]
      refine ⟨words_cons.mpr ⟨hlow, hwords⟩, congrArg Nat.succ hlength, ?_⟩
      have hout : (decide (2 ^ 32 ≤ l + r + carry.toNat)).toNat = (l + r + carry.toNat) / 2 ^ 32 := by
        have hc := Bool.toNat_le carry
        by_cases h : 2 ^ 32 ≤ l + r + carry.toNat
        · rw [decide_eq_true h, Bool.toNat_true]
          omega
        · rw [decide_eq_false h, Bool.toNat_false]
          omega
      have hsplit : l + 2 ^ 32 * value lh + (r + 2 ^ 32 * value rh) + carry.toNat =
          (l + r + carry.toNat) % 2 ^ 32 +
            2 ^ 32 * (value lh + value rh + (l + r + carry.toNat) / 2 ^ 32) := by omega
      rw [value_cons, value_cons, value_cons, hval, hout, List.length_cons, room_succ, hsplit,
        Nat.mod_mul, Nat.add_mul_mod_self_left, Nat.mod_eq_of_lt hlow,
        Nat.add_mul_div_left _ _ (by decide), Nat.div_eq_of_lt hlow, Nat.zero_add]

/-- **Addition**, modulo the room of the words. -/
theorem bigintAdd_spec (hl : Words lh) (hr : Words rh) (hlen : lh.length = rh.length) :
    Words (bigintAdd lh rh) ∧ (bigintAdd lh rh).length = lh.length ∧
      value (bigintAdd lh rh) = (value lh + value rh) % (2 ^ 32) ^ lh.length :=
  addLoop_spec false hl hr hlen

/-! ## Subtracting, inverting, comparing -/

theorem subLoop_spec (carry : Bool) (hl : Words lh) (hr : Words rh)
    (hlen : lh.length = rh.length) :
    ∃ out : ℕ, out ≤ 1 ∧ Words (subLoop carry lh rh) ∧ (subLoop carry lh rh).length = lh.length ∧
      value (subLoop carry lh rh) + value rh + 1 + (2 ^ 32) ^ lh.length * out =
        value lh + carry.toNat + (2 ^ 32) ^ lh.length := by
  induction lh generalizing carry rh with
  | nil =>
    rw [List.length_nil] at hlen
    rw [List.length_eq_zero_iff.mp hlen.symm]
    exact ⟨carry.toNat, Bool.toNat_le carry, words_nil, rfl, by simp [subLoop]; omega⟩
  | cons l lh ih =>
    cases rh with
    | nil => cases hlen
    | cons r rh =>
      obtain ⟨hl₀, hl'⟩ := words_cons.mp hl
      obtain ⟨hr₀, hr'⟩ := words_cons.mp hr
      obtain ⟨out, hout, hwords, hlength, hval⟩ := ih (fullAdd carry l (2 ^ 32 - 1 - r)).2 hl' hr'
        (by simpa using hlen)
      have hc := Bool.toNat_le carry
      rw [fullAdd_eq carry hl₀ (by omega)] at hwords hlength hval
      simp only at hwords hlength hval
      refine ⟨out, hout, ?_, ?_, ?_⟩
      · rw [subLoop, fullAdd_eq carry hl₀ (by omega)]
        exact words_cons.mpr ⟨Nat.mod_lt _ (by decide), hwords⟩
      · rw [subLoop, fullAdd_eq carry hl₀ (by omega), List.length_cons, List.length_cons, hlength]
      · rw [subLoop, fullAdd_eq carry hl₀ (by omega)]
        rw [value_cons, value_cons, value_cons, List.length_cons, room_succ, Nat.mul_assoc]
        generalize (2 ^ 32 : ℕ) ^ lh.length = P at hval ⊢
        generalize P * out = Q at hval ⊢
        by_cases hb : 2 ^ 32 ≤ l + (2 ^ 32 - 1 - r) + carry.toNat
        · simp only [hb, decide_true, Bool.toNat_true] at hval ⊢
          omega
        · simp only [hb, decide_false, Bool.toNat_false] at hval ⊢
          omega

/-- **Subtraction** of a number that is not larger. -/
theorem bigintSub_spec (hl : Words lh) (hr : Words rh) (hlen : lh.length = rh.length)
    (h : value rh ≤ value lh) :
    Words (bigintSub lh rh) ∧ (bigintSub lh rh).length = lh.length ∧
      value (bigintSub lh rh) = value lh - value rh := by
  obtain ⟨out, hout, hwords, hlength, hval⟩ := subLoop_spec true hl hr hlen
  have hlt := value_lt hwords
  have hltl := value_lt hl
  rw [hlength] at hlt
  refine ⟨hwords, hlength, ?_⟩
  rw [bigintSub]
  simp only [Bool.toNat_true] at hval
  rcases (by omega : out = 0 ∨ out = 1) with rfl | rfl
  · omega
  · omega

/-- The loop ends with a carry where the number taken away is not larger. -/
theorem subCarry_eq (carry : Bool) (hl : Words lh) (hr : Words rh)
    (hlen : lh.length = rh.length) :
    subCarry carry lh rh = decide (value rh < value lh + carry.toNat) := by
  induction lh generalizing carry rh with
  | nil =>
    rw [List.length_nil] at hlen
    rw [List.length_eq_zero_iff.mp hlen.symm]
    rcases carry with _ | _ <;> rfl
  | cons l lh ih =>
    rcases rh with _ | ⟨r, rh⟩
    · cases hlen
    · obtain ⟨hl₀, hl'⟩ := words_cons.mp hl
      obtain ⟨hr₀, hr'⟩ := words_cons.mp hr
      have hc := Bool.toNat_le carry
      rw [subCarry, fullAdd_eq carry hl₀ (by omega), ih _ hl' hr' (by simpa using hlen), value_cons,
        value_cons, decide_eq_decide]
      by_cases h : 2 ^ 32 ≤ l + (2 ^ 32 - 1 - r) + carry.toNat
      · simp only [h, decide_true, Bool.toNat_true]
        omega
      · simp only [h, decide_false, Bool.toNat_false]
        omega

/-- **The assertion** holds for a number that is not larger, and for no other. -/
theorem bigintSubChecked_eq (hl : Words lh) (hr : Words rh) (hlen : lh.length = rh.length) :
    bigintSubChecked lh rh = if value rh ≤ value lh then some (bigintSub lh rh) else none := by
  rw [bigintSubChecked, subCarry_eq true hl hr hlen, Bool.toNat_true]
  simp only [decide_eq_true_eq, Nat.lt_succ_iff]

theorem bigintNot_spec (h : Words ws) :
    Words (bigintNot ws) ∧ value (bigintNot ws) + value ws + 1 = (2 ^ 32) ^ ws.length := by
  induction ws with
  | nil => exact ⟨words_nil, rfl⟩
  | cons w ws ih =>
    obtain ⟨hw, hws⟩ := words_cons.mp h
    obtain ⟨hwords, hval⟩ := ih hws
    rw [bigintNot, List.map_cons, ← bigintNot, value_cons, value_cons, List.length_cons,
      room_succ]
    exact ⟨words_cons.mpr ⟨by omega, hwords⟩, by omega⟩

/-- Two's complement: invert and add one. -/
theorem negate_spec (h : Words ws) (hpos : 0 < value ws) :
    Words (bigintAddSmall (bigintNot ws) 1).1 ∧
      (bigintAddSmall (bigintNot ws) 1).1.length = ws.length ∧
      value (bigintAddSmall (bigintNot ws) 1).1 + value ws = (2 ^ 32) ^ ws.length := by
  obtain ⟨hwords, hval⟩ := bigintNot_spec h
  have hlen : (bigintNot ws).length = ws.length := by rw [bigintNot, List.length_map]
  have hne : 1 ≤ ws.length := by
    rcases ws with _ | ⟨w, ws⟩
    · exact absurd hpos (by simp)
    · simp
  have hroom : value ((bigintNot ws).take ws.length) + 1 < (2 ^ 32) ^ ws.length := by
    rw [List.take_of_length_le hlen.le]
    omega
  obtain ⟨-, hsum, hwords', hlen'⟩ := bigintAddSmall_spec (by decide) hwords hne hlen.ge hroom
  rw [List.take_of_length_le (by omega), List.take_of_length_le hlen.le] at hsum
  exact ⟨hwords', by omega, by omega⟩

/-- **Comparison.** -/
theorem bigintCmp_le_zero_iff (hl : Words lh) (hr : Words rh) (hlen : lh.length = rh.length) :
    bigintCmp lh rh ≤ 0 ↔ value lh ≤ value rh := by
  induction lh using List.reverseRecOn generalizing rh with
  | nil =>
    rw [List.length_eq_zero_iff.mp hlen.symm]
    exact ⟨fun _ => le_rfl, fun _ => le_rfl⟩
  | append_singleton lh l ih =>
    rcases List.eq_nil_or_concat' rh with rfl | ⟨rh, r, rfl⟩
    · simp at hlen
    · have hlen' : lh.length = rh.length := by simpa using hlen
      have hl' : Words lh := fun w hw => hl w (List.mem_append_left _ hw)
      have hr' : Words rh := fun w hw => hr w (List.mem_append_left _ hw)
      have hvl := value_lt hl'
      have hvr := value_lt hr'
      rw [← hlen'] at hvr
      rw [bigintCmp, List.reverse_concat, List.reverse_concat, cmpLoop, value_append, value_append,
        ← hlen', value_cons, value_cons, value_nil, Nat.mul_zero, Nat.add_zero, Nat.add_zero]
      generalize (2 ^ 32 : ℕ) ^ lh.length = P at hvl hvr ⊢
      rcases Nat.lt_trichotomy l r with hlt | rfl | hgt
      · rw [if_pos hlt]
        have := Nat.mul_le_mul_left P (show l + 1 ≤ r by omega)
        rw [Nat.mul_add, Nat.mul_one] at this
        omega
      · rw [if_neg (Nat.lt_irrefl l), if_neg (Nat.lt_irrefl l), ← bigintCmp, ih hl' hr' hlen']
        omega
      · rw [if_neg (by omega), if_pos hgt]
        have := Nat.mul_le_mul_left P (show r + 1 ≤ l by omega)
        rw [Nat.mul_add, Nat.mul_one] at this
        omega

end Bigint

end Entangled
