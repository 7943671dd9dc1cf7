import Mathlib.Algebra.BigOperators.Finprod
import Mathlib.Algebra.Order.BigOperators.Group.List
import Mathlib.Algebra.Order.Ring.Defs
/-!
# Sums over paths

A relation given by its lists of successors, with a weight for each edge. The weight of a path is
the product along it, and `pathSum` adds up the weights of all paths from one node to another.

Where no path goes on for ever, all that is finite: a sum over paths is what the successors' sums
come to (`pathSum_eq`), and there is a number for each node that counts the paths from it
(`exists_pathCount`), so that a worklist which replaces a node by its successors runs empty.
-/

namespace Entangled

namespace Paths

variable {κ R : Type*} (succ : κ → List κ) (w : κ → κ → R)

/-- The paths from one node to another, as lists of the nodes on them. -/
inductive IsPath : κ → κ → List κ → Prop
  | last (y : κ) : IsPath y y [y]
  | step {x a y : κ} {p : List κ} : a ∈ succ x → IsPath a y p → IsPath x y (x :: p)

/-- The weight of a path. -/
def along [One R] [Mul R] : List κ → R
  | x :: a :: rest => w x a * along (a :: rest)
  | _ => 1

/-- The weights of all paths from one node to another, added up. -/
noncomputable def pathSum [Semiring R] (x y : κ) : R :=
  ∑ᶠ p ∈ { p | IsPath succ x y p }, along w p

/-- A function whose value at `x` is what its values at the successors come to. -/
def Harmonic [Semiring R] (h : κ → R) (x : κ) : Prop :=
  h x = ((succ x).map fun a => w x a * h a).sum

variable {succ w} {x y a : κ} {p : List κ}

theorem IsPath.head (h : IsPath succ x y p) : ∃ rest, p = x :: rest := by
  cases h with
  | last => exact ⟨[], rfl⟩
  | step _ _ => exact ⟨_, rfl⟩

/-- A path ends at once, or goes on from a successor. -/
theorem isPath_iff : IsPath succ x y p ↔
    (x = y ∧ p = [x]) ∨ ∃ a ∈ succ x, ∃ q, IsPath succ a y q ∧ p = x :: q := by
  constructor
  · intro h
    cases h with
    | last => exact .inl ⟨rfl, rfl⟩
    | step ha hq => exact .inr ⟨_, ha, _, hq, rfl⟩
  · rintro (⟨rfl, rfl⟩ | ⟨a, ha, q, hq, rfl⟩)
    · exact .last x
    · exact .step ha hq

theorem along_cons [Semiring R] (h : IsPath succ a y p) :
    along w (x :: p) = w x a * along w p := by
  obtain ⟨rest, rfl⟩ := h.head
  rfl

/-- The paths that go on from a successor. -/
theorem setOf_isPath (x y : κ) : { p | IsPath succ x y p } =
    { p | x = y ∧ p = [x] } ∪
      ⋃ a ∈ { a | a ∈ succ x }, List.cons x '' { p | IsPath succ a y p } := by
  ext p
  simp only [Set.mem_ofPred_eq, Set.mem_union, Set.mem_iUnion, Set.mem_image, exists_prop]
  rw [isPath_iff]
  refine or_congr Iff.rfl ⟨?_, ?_⟩
  · rintro ⟨a, ha, q, hq, rfl⟩
    exact ⟨a, ha, q, hq, rfl⟩
  · rintro ⟨a, ha, q, hq, rfl⟩
    exact ⟨a, ha, q, hq, rfl⟩

/-! ## Where no path goes on for ever -/

variable (hwf : WellFounded fun b a => b ∈ succ a)
include hwf

theorem finite_isPath (x y : κ) : { p | IsPath succ x y p }.Finite := by
  induction x using hwf.induction with
  | _ x ih =>
    rw [setOf_isPath]
    refine ((Set.finite_singleton [x]).subset fun p hp => hp.2).union ?_
    exact (List.finite_toSet (succ x)).biUnion fun a ha => (ih a ha).image _

/-- **A sum over paths in terms of the successors'.** -/
theorem pathSum_eq [Semiring R] (hnodup : (succ x).Nodup) [Decidable (x = y)] :
    pathSum succ w x y =
      (if x = y then 1 else 0) + ((succ x).map fun a => w x a * pathSum succ w a y).sum := by
  classical
  have hdisj : Disjoint { p | x = y ∧ p = [x] }
      (⋃ a ∈ { a | a ∈ succ x }, List.cons x '' { p | IsPath succ a y p }) := by
    rw [Set.disjoint_left]
    rintro p ⟨-, rfl⟩ hp
    simp only [Set.mem_iUnion, Set.mem_image] at hp
    obtain ⟨a, -, q, hq, heq⟩ := hp
    obtain ⟨rest, rfl⟩ := hq.head
    cases heq
  have hpair : { a | a ∈ succ x }.PairwiseDisjoint
      fun a => List.cons x '' { p | IsPath succ a y p } := by
    intro a _ b _ hab
    rw [Function.onFun, Set.disjoint_left]
    rintro _ ⟨q, hq, rfl⟩ ⟨r, hr, heq⟩
    obtain rfl := (List.cons.inj heq).2
    obtain ⟨rest, hrest⟩ := hq.head
    obtain ⟨rest', hrest'⟩ := hr.head
    exact hab (List.cons.inj (hrest.symm.trans hrest')).1
  have hfin : ∀ a, (List.cons x '' { p | IsPath succ a y p }).Finite :=
    fun a => (finite_isPath hwf a y).image _
  have hsucc : { a | a ∈ succ x }.Finite := List.finite_toSet (succ x)
  have hfirst : ∑ᶠ p ∈ { p | x = y ∧ p = [x] }, along w p = if x = y then 1 else 0 := by
    by_cases hxy : x = y
    · have hset : { p | x = y ∧ p = [x] } = {[x]} := by
        ext p
        simp [hxy]
      rw [hset, finsum_mem_singleton, if_pos hxy]
      rfl
    · have hset : { p | x = y ∧ p = [x] } = ∅ := by
        ext p
        simp [hxy]
      rw [hset, finsum_mem_empty, if_neg hxy]
  have hrest : ∀ a, ∑ᶠ p ∈ List.cons x '' { p | IsPath succ a y p }, along w p =
      w x a * pathSum succ w a y := by
    intro a
    rw [finsum_mem_image (List.cons_injective.injOn), pathSum, mul_finsum_mem' _ _
      (finite_isPath hwf a y)]
    exact finsum_mem_congr rfl fun p hp => along_cons hp
  rw [pathSum, setOf_isPath, finsum_mem_union hdisj ((Set.finite_singleton [x]).subset
    fun p hp => hp.2) (hsucc.biUnion fun a _ => hfin a), hfirst,
    finsum_mem_biUnion hpair hsucc fun a _ => hfin a]
  congr 1
  rw [finsum_mem_congr rfl fun a _ => hrest a]
  have hset : { a | a ∈ succ x } = ((succ x).toFinset : Set κ) := by
    ext a
    simp
  rw [hset, finsum_mem_coe_finset, List.sum_toFinset _ hnodup]

/-- A node without successors is reached from where it is. -/
theorem pathSum_of_nil [Semiring R] (hx : succ x = []) [Decidable (x = y)] :
    pathSum succ w x y = if x = y then 1 else 0 := by
  rw [pathSum_eq hwf (by rw [hx]; exact List.nodup_nil), hx, List.map_nil, List.sum_nil, add_zero]

/-- The sum over the paths to `y` is harmonic away from `y`. -/
theorem harmonic_pathSum [Semiring R] (hnodup : (succ x).Nodup) (hxy : x ≠ y) :
    Harmonic succ w (fun x => pathSum succ w x y) x := by
  classical
  rw [Harmonic, pathSum_eq hwf hnodup, if_neg hxy, zero_add]

section

variable [Semiring R] [PartialOrder R] [IsStrictOrderedRing R] (hnodup : ∀ x, (succ x).Nodup)
  (hpos : ∀ x, ∀ a ∈ succ x, 0 < w x a)
include hnodup hpos

theorem pathSum_nonneg (x y : κ) : 0 ≤ pathSum succ w x y := by
  classical
  induction x using hwf.induction with
  | _ x ih =>
    have hsum : 0 ≤ ((succ x).map fun a => w x a * pathSum succ w a y).sum := by
      refine List.sum_nonneg fun v hv => ?_
      obtain ⟨a, ha, rfl⟩ := List.mem_map.mp hv
      exact mul_nonneg (hpos x a ha).le (ih a ha)
    rw [pathSum_eq hwf (hnodup x)]
    split
    · exact add_nonneg zero_le_one hsum
    · exact add_nonneg le_rfl hsum

/-- With positive weights, what is reached has a positive sum. -/
theorem pathSum_pos (h : Relation.ReflTransGen (fun a b => b ∈ succ a) x y) :
    0 < pathSum succ w x y := by
  classical
  have hterm : ∀ x, ∀ v ∈ (succ x).map fun a => w x a * pathSum succ w a y, 0 ≤ v := by
    intro x v hv
    obtain ⟨a, ha, rfl⟩ := List.mem_map.mp hv
    exact mul_nonneg (hpos x a ha).le (pathSum_nonneg hwf hnodup hpos a y)
  induction h using Relation.ReflTransGen.head_induction_on with
  | refl =>
    rw [pathSum_eq hwf (hnodup y), if_pos rfl]
    exact add_pos_of_pos_of_nonneg one_pos (List.sum_nonneg (hterm y))
  | @head x a hxa _ ih =>
    have hle : w x a * pathSum succ w a y ≤
        ((succ x).map fun a => w x a * pathSum succ w a y).sum :=
      List.single_le_sum (hterm x) _ (List.mem_map_of_mem hxa)
    have hgo := (mul_pos (hpos x a hxa) ih).trans_le hle
    rw [pathSum_eq hwf (hnodup x)]
    split
    · exact add_pos one_pos hgo
    · rw [zero_add]
      exact hgo

end

/-- **The paths from a node can be counted.** -/
theorem exists_pathCount : ∃ count : κ → ℕ, ∀ x, count x = 1 + ((succ x).map count).sum := by
  refine ⟨hwf.fix fun x count => 1 + ((succ x).attach.map fun a => count a.1 a.2).sum, fun x => ?_⟩
  rw [hwf.fix_eq]
  congr 2
  exact List.attach_map_val

end Paths

end Entangled
