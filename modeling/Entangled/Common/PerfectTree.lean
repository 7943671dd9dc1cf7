import Mathlib.Data.Nat.Bitwise
import Mathlib.Tactic.Ring
/-!
# Perfect binary trees

The nodes of a perfect tree of height `h` are the pairs of a depth `d ≤ h` and a place `w < 2 ^ d`.
`preorder` numbers them depth first, a node before what is below it and the left side before the
right one; it is a bijection onto the numbers below `2 ^ (h + 1) - 1`. `nodeOf` is the value a tree
of a given combining function has at a node, and `climb` the way from a leaf to the root.
-/

namespace Entangled

namespace PerfectTree

/-- The number of the node at depth `d` and place `w` in a tree of height `h`. -/
def preorder : ℕ → ℕ → ℕ → ℕ
  | _, 0, _ => 0
  | 0, _ + 1, _ => 0
  | h + 1, d + 1, w =>
    if 2 ^ d ≤ w then 1 + (2 ^ (h + 1) - 1) + preorder h d (w - 2 ^ d) else 1 + preorder h d w

variable {h d d' w w' : ℕ}

@[simp] theorem preorder_zero (h w : ℕ) : preorder h 0 w = 0 := by
  cases h <;> rfl

theorem preorder_succ (h d w : ℕ) :
    preorder (h + 1) (d + 1) w =
      if 2 ^ d ≤ w then 1 + (2 ^ (h + 1) - 1) + preorder h d (w - 2 ^ d)
      else 1 + preorder h d w := rfl

theorem preorder_lt (hd : d ≤ h) (hw : w < 2 ^ d) : preorder h d w < 2 ^ (h + 1) - 1 := by
  induction h generalizing d w with
  | zero =>
    obtain rfl : d = 0 := by omega
    rw [preorder_zero]
    decide
  | succ h ih =>
    have hpow : 2 ^ (h + 2) = 2 * 2 ^ (h + 1) := by ring
    have hpos := Nat.two_pow_pos (h + 1)
    rcases d with _ | d
    · rw [preorder_zero]
      omega
    · rw [pow_succ] at hw
      rw [preorder_succ]
      split_ifs with hright
      · have := ih (d := d) (w := w - 2 ^ d) (by omega) (by omega)
        omega
      · have := ih (d := d) (w := w) (by omega) (by omega)
        omega

/-- **No two nodes have one number.** -/
theorem preorder_injective (hd : d ≤ h) (hw : w < 2 ^ d) (hd' : d' ≤ h) (hw' : w' < 2 ^ d')
    (heq : preorder h d w = preorder h d' w') : d = d' ∧ w = w' := by
  induction h generalizing d w d' w' with
  | zero =>
    obtain rfl : d = 0 := by omega
    obtain rfl : d' = 0 := by omega
    rw [pow_zero] at hw hw'
    exact ⟨rfl, by omega⟩
  | succ h ih =>
    rcases d with _ | d
    · rcases d' with _ | d'
      · rw [pow_zero] at hw hw'
        exact ⟨rfl, by omega⟩
      · rw [preorder_zero, preorder_succ] at heq
        split_ifs at heq <;> omega
    · rcases d' with _ | d'
      · rw [preorder_zero, preorder_succ] at heq
        split_ifs at heq <;> omega
      · rw [pow_succ] at hw hw'
        rw [preorder_succ, preorder_succ] at heq
        -- a node on the left has a number below those on the right
        split_ifs at heq with hr hr' hr'
        · obtain ⟨rfl, hsub⟩ := @ih d d' (w - 2 ^ d) (w' - 2 ^ d')
            (by omega) (by omega) (by omega) (by omega) (by omega)
          exact ⟨rfl, by omega⟩
        · have := preorder_lt (h := h) (d := d') (w := w') (by omega) (by omega)
          omega
        · have := preorder_lt (h := h) (d := d) (w := w) (by omega) (by omega)
          omega
        · obtain ⟨rfl, rfl⟩ := @ih d d' w w'
            (by omega) (by omega) (by omega) (by omega) (by omega)
          exact ⟨rfl, rfl⟩

/-- **Every number is one of a node.** -/
theorem exists_preorder {k : ℕ} (hk : k < 2 ^ (h + 1) - 1) :
    ∃ d w, d ≤ h ∧ w < 2 ^ d ∧ preorder h d w = k := by
  induction h generalizing k with
  | zero => exact ⟨0, 0, le_rfl, by decide, by rw [preorder_zero]; omega⟩
  | succ h ih =>
    have hpow : 2 ^ (h + 2) = 2 * 2 ^ (h + 1) := by ring
    rcases Nat.eq_zero_or_pos k with rfl | hpos
    · exact ⟨0, 0, Nat.zero_le _, by decide, preorder_zero _ _⟩
    · rcases Nat.lt_or_ge (k - 1) (2 ^ (h + 1) - 1) with hleft | hright
      · obtain ⟨d, w, hd, hw, hnum⟩ := ih hleft
        refine ⟨d + 1, w, by omega, by rw [pow_succ]; omega, ?_⟩
        rw [preorder_succ, if_neg (by omega)]
        omega
      · obtain ⟨d, w, hd, hw, hnum⟩ := ih (k := k - 1 - (2 ^ (h + 1) - 1)) (by omega)
        refine ⟨d + 1, w + 2 ^ d, by omega, by rw [pow_succ]; omega, ?_⟩
        rw [preorder_succ, if_pos (by omega), Nat.add_sub_cancel]
        omega

/-! ## Values -/

section Values

variable {α : Type*} (combine : α → α → α) (leaf : ℕ → α)

/-- The value at place `w`, `k` levels above the leaves. -/
def nodeOf : ℕ → ℕ → α
  | 0, w => leaf w
  | k + 1, w => combine (nodeOf k (2 * w)) (nodeOf k (2 * w + 1))

/-- The place next to `w`. -/
def sibling (w : ℕ) : ℕ := if w % 2 = 1 then w - 1 else w + 1

/-- From the value at place `w` of one level to the one above it, with the value next to it. -/
def climb (w : ℕ) (a b : α) : α := if w % 2 = 1 then combine b a else combine a b

/-- One step of the way to the root. -/
theorem climb_nodeOf (k w : ℕ) :
    climb combine w (nodeOf combine leaf k w) (nodeOf combine leaf k (sibling w)) =
      nodeOf combine leaf (k + 1) (w / 2) := by
  rw [climb, sibling, nodeOf]
  split_ifs with hodd
  · rw [show 2 * (w / 2) = w - 1 by omega, show w - 1 + 1 = w by omega]
  · rw [show 2 * (w / 2) = w by omega]

/-- The values next to the way up from place `w` of level `k`, on `n` levels. -/
def path : ℕ → ℕ → ℕ → List α
  | 0, _, _ => []
  | n + 1, k, w => nodeOf combine leaf k (sibling w) :: path n (k + 1) (w / 2)

end Values

end PerfectTree

end Entangled
