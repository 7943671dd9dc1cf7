import Mathlib.Data.Nat.Notation
import Mathlib.Logic.Function.Basic
/-!
# Cells written to other places

A loop that copies cells of one array to places of another (`scatter`). If no two cells go to one
place, each place holds what was sent there, in whatever order the loop went.
-/

namespace Entangled

variable {α : Type} {m n : ℕ}

/-- The cells `l` of the array `v`, written to their places in `w`. -/
def scatter (dst : Fin m → Fin n) (v : Vector α m) (l : List (Fin m)) (w : Vector α n) :
    Vector α n :=
  l.foldl (fun w i => w.set (dst i) v[i]) w

variable {dst : Fin m → Fin n} {v : Vector α m} {l : List (Fin m)} {w : Vector α n}

/-- A place that nothing is sent to. -/
theorem getElem_scatter_of_ne {k : Fin n} (hk : ∀ i ∈ l, dst i ≠ k) :
    (scatter dst v l w)[k] = w[k] := by
  induction l generalizing w with
  | nil => rfl
  | cons j l ih =>
    have hj : (dst j : ℕ) ≠ k := fun h => hk j List.mem_cons_self (Fin.ext h)
    calc (scatter dst v (j :: l) w)[k] = (w.set (dst j) v[j])[k] :=
          ih fun i hi => hk i (List.mem_cons_of_mem _ hi)
      _ = w[k] := Vector.getElem_set_ne _ _ hj

/-- **A place holds what was sent there.** -/
theorem getElem_scatter (hdst : Function.Injective dst) {i : Fin m} (hi : i ∈ l) :
    (scatter dst v l w)[dst i] = v[i] := by
  induction l generalizing w with
  | nil => exact absurd hi List.not_mem_nil
  | cons j l ih =>
    by_cases hil : i ∈ l
    · exact ih hil
    · obtain rfl : i = j := (List.mem_cons.mp hi).resolve_right hil
      have hne : ∀ k ∈ l, dst k ≠ dst i := fun k hk h => hil (hdst h ▸ hk)
      calc (scatter dst v (i :: l) w)[dst i] = (w.set (dst i) v[i])[dst i] :=
            getElem_scatter_of_ne hne
        _ = v[i] := Vector.getElem_set_self _

end Entangled
