import Mathlib.Algebra.BigOperators.Group.List.Basic
import Mathlib.Algebra.Order.Ring.Int
import Mathlib.Algebra.Order.BigOperators.Group.List
/-!
# Lists cut short

What is left of a list when its text is cut: the first entries, and perhaps what can still be read
of the next one. If the total of the entries is as before, nothing of weight was cut.
-/

namespace Entangled

variable {α β : Type*} {R : α → α → Prop} {l l' : List α}

/-- The first entries of a list, the last of them perhaps less than it was. -/
inductive Shortened (R : α → α → Prop) : List α → List α → Prop
  | nil (l : List α) : Shortened R [] l
  | last {a' a : α} (l : List α) (h : R a' a) : Shortened R [a'] (a :: l)
  | cons (a : α) {l' l : List α} (h : Shortened R l' l) : Shortened R (a :: l') (a :: l)

namespace Shortened

/-- What the cut leaves as it is, is that of the first entries. -/
theorem map_prefix {f : α → β} (hR : ∀ a' a, R a' a → f a' = f a) (h : Shortened R l' l) :
    l'.map f <+: l.map f := by
  induction h with
  | nil l => exact List.nil_prefix
  | last l h =>
    rw [List.map_singleton, List.map_cons, hR _ _ h]
    exact List.cons_prefix_cons.mpr ⟨rfl, List.nil_prefix⟩
  | cons a h ih => exact List.cons_prefix_cons.mpr ⟨rfl, ih⟩

variable {f : α → ℤ}

theorem nonneg (hR : ∀ a' a, R a' a → 0 ≤ f a → 0 ≤ f a' ∧ f a' ≤ f a) (h : Shortened R l' l)
    (hl : ∀ a ∈ l, 0 ≤ f a) : ∀ a ∈ l', 0 ≤ f a := by
  induction h with
  | nil l => exact fun a ha => absurd ha List.not_mem_nil
  | last l h =>
    intro a ha
    rw [List.mem_singleton.mp ha]
    exact (hR _ _ h (hl _ List.mem_cons_self)).1
  | cons a h ih =>
    intro b hb
    rcases List.mem_cons.mp hb with rfl | hb
    · exact hl b List.mem_cons_self
    · exact ih (fun c hc => hl c (List.mem_cons_of_mem a hc)) b hb

/-- A cut takes nothing from the total that is negative. -/
theorem sum_le (hR : ∀ a' a, R a' a → 0 ≤ f a → 0 ≤ f a' ∧ f a' ≤ f a) (h : Shortened R l' l)
    (hl : ∀ a ∈ l, 0 ≤ f a) : (l'.map f).sum ≤ (l.map f).sum := by
  have hsum : ∀ l : List α, (∀ a ∈ l, 0 ≤ f a) → 0 ≤ (l.map f).sum := by
    intro l hl
    refine List.sum_nonneg fun x hx => ?_
    obtain ⟨a, ha, rfl⟩ := List.mem_map.mp hx
    exact hl a ha
  induction h with
  | nil l => exact hsum l hl
  | last l h =>
    have hle := (hR _ _ h (hl _ List.mem_cons_self)).2
    have htail := hsum l fun a ha => hl a (List.mem_cons_of_mem _ ha)
    rw [List.map_singleton, List.sum_singleton, List.map_cons, List.sum_cons]
    omega
  | cons a h ih =>
    rw [List.map_cons, List.sum_cons, List.map_cons, List.sum_cons]
    exact Int.add_le_add_left (ih fun c hc => hl c (List.mem_cons_of_mem a hc)) (f a)

/-- **A cut that the total does not show** takes entries of no weight off the end. -/
theorem append_of_sum_eq (hR : ∀ a' a, R a' a → 0 ≤ f a → 0 ≤ f a' ∧ f a' ≤ f a)
    (heq : ∀ a' a, R a' a → f a' = f a → a' = a) (h : Shortened R l' l) (hl : ∀ a ∈ l, 0 ≤ f a)
    (hsum : (l'.map f).sum = (l.map f).sum) :
    ∃ dropped, l = l' ++ dropped ∧ ∀ a ∈ dropped, f a = 0 := by
  have hzero : ∀ l : List α, (∀ a ∈ l, 0 ≤ f a) → (l.map f).sum = 0 → ∀ a ∈ l, f a = 0 := by
    intro l hl hl0 a ha
    have hle := List.single_le_sum (l := l.map f)
      (fun x hx => by obtain ⟨b, hb, rfl⟩ := List.mem_map.mp hx; exact hl b hb)
      (f a) (List.mem_map_of_mem ha)
    have := hl a ha
    omega
  induction h with
  | nil l => exact ⟨l, rfl, hzero l hl hsum.symm⟩
  | @last a' a l h =>
    have htail : ∀ b ∈ l, 0 ≤ f b := fun b hb => hl b (List.mem_cons_of_mem a hb)
    have hle := (hR a' a h (hl a List.mem_cons_self)).2
    rw [List.map_singleton, List.sum_singleton, List.map_cons, List.sum_cons] at hsum
    have hnonneg := sum_le hR (nil (R := R) l) htail
    rw [List.map_nil, List.sum_nil] at hnonneg
    obtain rfl := heq a' a h (by omega)
    exact ⟨l, rfl, hzero l htail (by omega)⟩
  | cons a h ih =>
    rw [List.map_cons, List.sum_cons, List.map_cons, List.sum_cons] at hsum
    obtain ⟨dropped, hl', hdropped⟩ := ih (fun c hc => hl c (List.mem_cons_of_mem a hc))
      (by omega)
    exact ⟨dropped, by rw [hl', List.cons_append], hdropped⟩

end Shortened

end Entangled
