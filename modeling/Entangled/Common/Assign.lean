import Mathlib.Data.Nat.Notation
import Mathlib.Logic.Function.Basic
/-!
# Assignments in place

A run of assignments over one memory, the cell `dst t` made at step `t` of the cells `left t` and
`right t`. If no step reads a cell that one before it has written, and no cell is written twice, the
cells hold in the end what the first memory gives (`Assigned`); so a map of one array into others can
be worked out in place, the cells that are no longer read taking what comes out.
-/

namespace Entangled

variable {α : Type} {f : α → α → α} {dst left right : ℕ → ℕ} {m m' : ℕ → α} {t : ℕ}

/-- The first `t` steps have been made: of the memory `m` they made `m'`. -/
structure Assigned (f : α → α → α) (dst left right : ℕ → ℕ) (m : ℕ → α) (t : ℕ) (m' : ℕ → α) :
    Prop where
  written : ∀ u < t, m' (dst u) = f (m (left u)) (m (right u))
  kept : ∀ k, (∀ u < t, dst u ≠ k) → m' k = m k

/-- Step `t` reads and writes no cell that has been written. -/
structure Fresh (dst left right : ℕ → ℕ) (t : ℕ) : Prop where
  left : ∀ u < t, dst u ≠ left t
  right : ∀ u < t, dst u ≠ right t
  dst : ∀ u < t, dst u ≠ dst t

namespace Assigned

theorem start : Assigned f dst left right m 0 m :=
  ⟨fun u hu => absurd hu (Nat.not_lt_zero u), fun _ _ => rfl⟩

/-- **One step.** -/
theorem step (h : Assigned f dst left right m t m') (hfresh : Fresh dst left right t) :
    Assigned f dst left right m (t + 1)
      (Function.update m' (dst t) (f (m' (left t)) (m' (right t)))) := by
  have hleft : m' (left t) = m (left t) := h.kept _ hfresh.left
  have hright : m' (right t) = m (right t) := h.kept _ hfresh.right
  refine ⟨fun u hu => ?_, fun k hk => ?_⟩
  · rcases Nat.lt_succ_iff_lt_or_eq.mp hu with hlt | rfl
    · rw [Function.update_of_ne (hfresh.dst u hlt)]
      exact h.written u hlt
    · rw [Function.update_self, hleft, hright]
  · rw [Function.update_of_ne (hk t (Nat.lt_succ_self t)).symm]
    exact h.kept k fun u hu => hk u (Nat.lt_succ_of_lt hu)

end Assigned

end Entangled
