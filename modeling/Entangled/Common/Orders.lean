import Mathlib.Algebra.Order.BigOperators.Group.Finset
import Mathlib.Algebra.BigOperators.Group.List.Basic
import Mathlib.Algebra.Order.Group.MinMax
/-!
# Partial sums in every order

A finite set of amounts is added up one by one, in an order nobody promises.
What has been added before an element `x` is then any sum of a part of the
others. The largest of these sums is that of the positive amounts, the least
that of the negative ones, and both are met: `forall_before_le_iff` and
`forall_le_before_iff` turn a bound on every partial sum of every order into
one on two sums that know no order.
-/

namespace Entangled

namespace Orders

variable {ι : Type*} [DecidableEq ι] {M : Type*} [AddCommGroup M] [LinearOrder M]
  [IsOrderedAddMonoid M] {s : Finset ι} {done rest order : List ι} {x : ι} {f : ι → M} {c : M}

/-- A list that names every element of a set once. -/
structure Enumerates (order : List ι) (s : Finset ι) : Prop where
  nodup : order.Nodup
  mem_iff : ∀ x, x ∈ order ↔ x ∈ s

theorem Enumerates.toFinset_eq (h : Enumerates order s) : order.toFinset = s := by
  ext x
  rw [List.mem_toFinset, h.mem_iff]

theorem Enumerates.sum_eq {N : Type*} [AddCommMonoid N] (h : Enumerates order s) (g : ι → N) :
    (order.map g).sum = ∑ x ∈ s, g x := by
  rw [← h.toFinset_eq, List.sum_toFinset g h.nodup]

/-- What comes before `x` is without repetition, and among the others. -/
theorem Enumerates.before (h : Enumerates (done ++ x :: rest) s) :
    done.Nodup ∧ done.toFinset ⊆ s.erase x := by
  have hnd := List.nodup_append.mp h.nodup
  refine ⟨hnd.1, fun y hy => ?_⟩
  rw [List.mem_toFinset] at hy
  have hyx : y ≠ x := hnd.2.2 y hy x List.mem_cons_self
  exact Finset.mem_erase.mpr ⟨hyx, (h.mem_iff y).mp (List.mem_append_left _ hy)⟩

/-- Any part of the others can come first, and its complement last. -/
theorem enumerates_split {p : Finset ι} (hx : x ∈ s) (hp : p ⊆ s.erase x) :
    Enumerates (p.toList ++ x :: (s.erase x \ p).toList) s := by
  constructor
  · refine List.nodup_append.mpr ⟨p.nodup_toList, ?_, ?_⟩
    · refine List.nodup_cons.mpr ⟨?_, Finset.nodup_toList _⟩
      simp
    · intro y hy z hz hyz
      subst hyz
      rw [Finset.mem_toList] at hy
      rcases List.mem_cons.mp hz with rfl | hz
      · exact (Finset.mem_erase.mp (hp hy)).1 rfl
      · rw [Finset.mem_toList, Finset.mem_sdiff] at hz
        exact hz.2 hy
  · intro y
    have hmem : y ∈ p → y ∈ s := fun hy => (Finset.mem_erase.mp (hp hy)).2
    simp only [List.mem_append, List.mem_cons, Finset.mem_toList, Finset.mem_sdiff,
      Finset.mem_erase]
    by_cases hyx : y = x
    · simp [hyx, hx]
    · by_cases hy : y ∈ p
      · simp [hy, hmem hy]
      · simp [hyx, hy]

/-- An order of a part of a set goes on to one of all of it. -/
theorem exists_enumerates_append (hnd : order.Nodup) (hsub : ∀ x ∈ order, x ∈ s) :
    ∃ rest, Enumerates (order ++ rest) s := by
  refine ⟨(s \ order.toFinset).toList, ?_, fun x => ?_⟩
  · refine List.nodup_append.mpr ⟨hnd, Finset.nodup_toList _, ?_⟩
    rintro x hx y hy rfl
    rw [Finset.mem_toList, Finset.mem_sdiff, List.mem_toFinset] at hy
    exact hy.2 hx
  · simp only [List.mem_append, Finset.mem_toList, Finset.mem_sdiff, List.mem_toFinset]
    by_cases hx : x ∈ order
    · simp [hx, hsub x hx]
    · simp [hx]

/-- No partial sum exceeds that of the positive amounts. -/
theorem Enumerates.sum_before_le (h : Enumerates (done ++ x :: rest) s) (f : ι → M) :
    (done.map f).sum ≤ ∑ y ∈ s.erase x, max (f y) 0 := by
  obtain ⟨hnd, hsub⟩ := h.before
  rw [← List.sum_toFinset f hnd]
  calc ∑ y ∈ done.toFinset, f y
      ≤ ∑ y ∈ done.toFinset, max (f y) 0 := Finset.sum_le_sum fun y _ => le_max_left _ _
    _ ≤ ∑ y ∈ s.erase x, max (f y) 0 :=
        Finset.sum_le_sum_of_subset_of_nonneg hsub fun y _ _ => le_max_right _ _

omit [IsOrderedAddMonoid M] in
/-- An order that takes the positive amounts first meets their sum. -/
theorem exists_sum_before_eq (hx : x ∈ s) (f : ι → M) :
    ∃ done rest, Enumerates (done ++ x :: rest) s ∧
      (done.map f).sum = ∑ y ∈ s.erase x, max (f y) 0 := by
  have hsub : (s.erase x).filter (fun y => 0 < f y) ⊆ s.erase x := Finset.filter_subset _ _
  refine ⟨_, _, enumerates_split hx hsub, ?_⟩
  rw [Finset.sum_map_toList, Finset.sum_filter]
  refine Finset.sum_congr rfl fun y _ => ?_
  by_cases hy : 0 < f y
  · rw [if_pos hy, max_eq_left hy.le]
  · rw [if_neg hy, max_eq_right (not_lt.mp hy)]

/-- **A bound from above on every partial sum of every order.** -/
theorem forall_before_le_iff (hx : x ∈ s) :
    (∀ done rest, Enumerates (done ++ x :: rest) s → (done.map f).sum ≤ c) ↔
      ∑ y ∈ s.erase x, max (f y) 0 ≤ c := by
  constructor
  · intro h
    obtain ⟨done, rest, henum, heq⟩ := exists_sum_before_eq hx f
    exact heq ▸ h done rest henum
  · intro h done rest henum
    exact (henum.sum_before_le f).trans h

/-- **A bound from below on every partial sum of every order.** -/
theorem forall_le_before_iff (hx : x ∈ s) :
    (∀ done rest, Enumerates (done ++ x :: rest) s → c ≤ (done.map f).sum) ↔
      c ≤ ∑ y ∈ s.erase x, min (f y) 0 := by
  have hneg : ∑ y ∈ s.erase x, max (-f y) 0 = -∑ y ∈ s.erase x, min (f y) 0 := by
    rw [← Finset.sum_neg_distrib]
    refine Finset.sum_congr rfl fun y _ => ?_
    rw [← neg_zero, max_neg_neg, neg_zero]
  have hlist : ∀ l : List ι, (l.map fun y => -f y).sum = -(l.map f).sum := by
    intro l
    rw [List.sum_neg, List.map_map]
    rfl
  have h := forall_before_le_iff (f := fun y => -f y) (c := -c) hx
  simpa only [hlist, hneg, neg_le_neg_iff] using h

omit [DecidableEq ι] in
/-- The positive amounts add up to no more than bounds on all of them. -/
theorem sum_max_le {g : ι → M} (h : ∀ y ∈ s, |f y| ≤ g y) :
    ∑ y ∈ s, max (f y) 0 ≤ ∑ y ∈ s, g y := by
  refine Finset.sum_le_sum fun y hy => ?_
  exact max_le ((le_abs_self _).trans (h y hy)) ((abs_nonneg _).trans (h y hy))

omit [DecidableEq ι] in
/-- And the negative ones to no less. -/
theorem neg_sum_le_sum_min {g : ι → M} (h : ∀ y ∈ s, |f y| ≤ g y) :
    -∑ y ∈ s, g y ≤ ∑ y ∈ s, min (f y) 0 := by
  rw [← Finset.sum_neg_distrib]
  refine Finset.sum_le_sum fun y hy => ?_
  exact le_min (abs_le.mp (h y hy)).1 (neg_nonpos.mpr ((abs_nonneg _).trans (h y hy)))

omit [DecidableEq ι] in
/-- Where a prefix of lists put one after the other ends: inside one of them, or
at the end. -/
theorem flatMap_eq_append {β : Type*} {g : ι → List β} {es more : List β}
    (h : order.flatMap g = es ++ more) :
    (∃ done x rest e₁ e₂, order = done ++ x :: rest ∧ g x = e₁ ++ e₂ ∧
      es = done.flatMap g ++ e₁) ∨ es = order.flatMap g := by
  induction order generalizing es with
  | nil =>
    rw [List.flatMap_nil] at h
    obtain ⟨rfl, -⟩ := List.append_eq_nil_iff.mp h.symm
    exact .inr rfl
  | cons x order ih =>
    rw [List.flatMap_cons] at h
    rcases List.append_eq_append_iff.mp h with ⟨c, rfl, hc⟩ | ⟨c, hx, -⟩
    · rcases ih hc with ⟨done, y, rest, e₁, e₂, rfl, hy, rfl⟩ | rfl
      · exact .inl ⟨x :: done, y, rest, e₁, e₂, rfl, hy, by simp⟩
      · exact .inr rfl
    · exact .inl ⟨[], x, order, es, c, rfl, hx, rfl⟩

end Orders

end Entangled
