import Mathlib.Data.List.Basic
import Mathlib.Order.Lattice
/-!
# The lowest cost so far

A search goes through candidates and keeps the first of the good ones with the lowest cost, as long
as the cost is below a bound. Searches over parts of the candidates are put together the same way.
-/

namespace Entangled

variable {α β : Type*} [LinearOrder β]

/-- `p` is the lowest cost of a good candidate that has been seen and `a` has it. Where none of them
is below `top`, nothing has been found yet. -/
structure Lowest (good : α → Prop) (cost : α → β) (top : β) (start : α) (seen : List α) (p : β)
    (a : α) : Prop where
  le : ∀ x ∈ seen, good x → p ≤ cost x
  found : p = top ∧ a = start ∨ p < top ∧ a ∈ seen ∧ good a ∧ cost a = p

namespace Lowest

variable {good : α → Prop} {cost : α → β} {top p q : β} {start a b x : α} {seen seen' : List α}

theorem nil : Lowest good cost top start [] top start where
  le := fun _ hx => absurd hx List.not_mem_nil
  found := .inl ⟨rfl, rfl⟩

theorem le_top (h : Lowest good cost top start seen p a) : p ≤ top := by
  rcases h.found with ⟨hp, -⟩ | ⟨hp, -⟩
  · exact hp.le
  · exact hp.le

/-- What has been found stays found while more is seen. -/
theorem found_append (h : Lowest good cost top start seen p a) (seen' : List α) :
    p = top ∧ a = start ∨ p < top ∧ a ∈ seen ++ seen' ∧ good a ∧ cost a = p := by
  rcases h.found with hnone | ⟨hp, hmem, hrest⟩
  · exact .inl hnone
  · exact .inr ⟨hp, List.mem_append_left seen' hmem, hrest⟩

/-- One more candidate that is not good, or not lower. -/
theorem keep (h : Lowest good cost top start seen p a) (hx : good x → p ≤ cost x) :
    Lowest good cost top start (seen ++ [x]) p a where
  le := by
    intro y hy hgood
    rcases List.mem_append.mp hy with hy | hy
    · exact h.le y hy hgood
    · obtain rfl := List.mem_singleton.mp hy
      exact hx hgood
  found := h.found_append [x]

/-- One more candidate, which is lower. -/
theorem improve (h : Lowest good cost top start seen p a) (hgood : good x) (hx : cost x < p) :
    Lowest good cost top start (seen ++ [x]) (cost x) x where
  le := by
    intro y hy hy'
    rcases List.mem_append.mp hy with hy | hy
    · exact hx.le.trans (h.le y hy hy')
    · obtain rfl := List.mem_singleton.mp hy
      exact le_rfl
  found := .inr ⟨hx.trans_le h.le_top, List.mem_append_right seen (List.mem_singleton_self x), hgood,
    rfl⟩

/-- **Two searches**, one after the other. -/
theorem append (h : Lowest good cost top start seen p a)
    (h' : Lowest good cost top start seen' q b) :
    Lowest good cost top start (seen ++ seen') (if q < p then q else p) (if q < p then b else a) := by
  split_ifs with hlt
  · refine ⟨fun y hy hgood => ?_, ?_⟩
    · rcases List.mem_append.mp hy with hy | hy
      · exact hlt.le.trans (h.le y hy hgood)
      · exact h'.le y hy hgood
    · rcases h'.found with ⟨rfl, -⟩ | ⟨hq, hmem, hrest⟩
      · exact absurd hlt (not_lt.mpr h.le_top)
      · exact .inr ⟨hq, List.mem_append_right seen hmem, hrest⟩
  · refine ⟨fun y hy hgood => ?_, h.found_append seen'⟩
    rcases List.mem_append.mp hy with hy | hy
    · exact h.le y hy hgood
    · exact (not_lt.mp hlt).trans (h'.le y hy hgood)

/-- **What has been found is one of the lowest**, where every good candidate is below the bound. -/
theorem best (h : Lowest good cost top start seen p a)
    (hbelow : ∀ x ∈ seen, good x → cost x < top) (hex : ∃ x ∈ seen, good x) :
    a ∈ seen ∧ good a ∧ ∀ x ∈ seen, good x → cost a ≤ cost x := by
  rcases h.found with ⟨rfl, -⟩ | ⟨-, hmem, hgood, rfl⟩
  · obtain ⟨x, hx, hxgood⟩ := hex
    exact absurd (h.le x hx hxgood) (not_le.mpr (hbelow x hx hxgood))
  · exact ⟨hmem, hgood, h.le⟩

/-- Where no good candidate is below the bound, nothing is found. -/
theorem eq_start (h : Lowest good cost top start seen p a)
    (habove : ∀ x ∈ seen, good x → top ≤ cost x) : a = start := by
  rcases h.found with ⟨-, rfl⟩ | ⟨hp, hmem, hgood, rfl⟩
  · rfl
  · exact absurd hp (not_lt.mpr (habove a hmem hgood))

end Lowest

end Entangled
