import Entangled.Common.Runs
import Mathlib.Data.List.Nodup
/-!
# Numbers that are handed out

A machine has counters, and a call of it can take the number a counter stands at. If the counters
never go down, and a counter has passed a number once it is taken, no run takes a number of a
counter twice (`Tally.nodup_taken`). The condition and the invariant are those of runs in general.

A list of things with names, of which one is changed or one is added, is what holds the counters.
-/

namespace Entangled

namespace Runs

variable {σ α ι : Type*} {step : σ → α → σ} {I : σ → Prop} {cond : σ → α → Prop}
  {next : σ → ι → ℕ} {takes : σ → α → Option (ι × ℕ)} {s : σ} {as : List α}

/-- What the calls of a run take, in their order. -/
def taken (step : σ → α → σ) (takes : σ → α → Option (ι × ℕ)) : σ → List α → List (ι × ℕ)
  | _, [] => []
  | s, a :: as => (takes s a).toList ++ taken step takes (step s a) as

/-- The counters are not set back, and what is taken is behind them. -/
structure Tally (step : σ → α → σ) (I : σ → Prop) (cond : σ → α → Prop) (next : σ → ι → ℕ)
    (takes : σ → α → Option (ι × ℕ)) : Prop where
  keeps : ∀ s a, I s → cond s a → I (step s a)
  grows : ∀ s a i, I s → cond s a → next s i ≤ next (step s a) i
  takes : ∀ s a i n, I s → cond s a → takes s a = some (i, n) →
    next s i = n ∧ n < next (step s a) i

namespace Tally

/-- What is taken later has not been passed. -/
theorem le_of_mem_taken (h : Tally step I cond next takes) (hs : I s)
    (hmeets : Meets step cond s as) {i : ι} {n : ℕ} (hmem : (i, n) ∈ taken step takes s as) :
    next s i ≤ n := by
  induction as generalizing s with
  | nil => exact absurd hmem List.not_mem_nil
  | cons a as ih =>
    obtain ⟨hcond, hrest⟩ := hmeets
    rcases List.mem_append.mp hmem with hfirst | hlater
    · exact Nat.le_of_eq (h.takes s a i n hs hcond (Option.mem_toList.mp hfirst)).1
    · exact Nat.le_trans (h.grows s a i hs hcond) (ih (h.keeps s a hs hcond) hrest hlater)

/-- **No number is taken twice.** -/
theorem nodup_taken (h : Tally step I cond next takes) (hs : I s) (hmeets : Meets step cond s as) :
    (taken step takes s as).Nodup := by
  induction as generalizing s with
  | nil => exact List.nodup_nil
  | cons a as ih =>
    obtain ⟨hcond, hrest⟩ := hmeets
    have hkept := h.keeps s a hs hcond
    refine List.nodup_append.mpr ⟨?_, ih hkept hrest, ?_⟩
    · rcases takes s a with _ | p
      · exact List.nodup_nil
      · exact List.nodup_singleton p
    · intro p hp q hq heq
      subst heq
      obtain ⟨i, n⟩ := p
      have hpassed := (h.takes s a i n hs hcond (Option.mem_toList.mp hp)).2
      exact absurd (h.le_of_mem_taken hkept hrest hq) (Nat.not_le.mpr hpassed)

/-- What is taken meets what every call sees to. -/
theorem forall_taken (h : Tally step I cond next takes) {P : ι × ℕ → Prop}
    (hP : ∀ s a p, I s → cond s a → takes s a = some p → P p) (hs : I s)
    (hmeets : Meets step cond s as) : ∀ p ∈ taken step takes s as, P p := by
  induction as generalizing s with
  | nil => exact fun p hp => absurd hp List.not_mem_nil
  | cons a as ih =>
    obtain ⟨hcond, hrest⟩ := hmeets
    intro p hp
    rcases List.mem_append.mp hp with hfirst | hlater
    · exact hP s a p hs hcond (Option.mem_toList.mp hfirst)
    · exact ih (h.keeps s a hs hcond) hrest p hlater

end Tally

end Runs

/-! ## Things with names -/

namespace Named

variable {α κ : Type*} [DecidableEq κ] {name : α → κ} {l : List α} {i : ℕ} {x y : α} {k : κ}

/-- The first thing of a name. -/
def lookup (name : α → κ) (l : List α) (k : κ) : Option α := l.find? fun x => name x = k

theorem lookup_cons : lookup name (x :: l) k = if name x = k then some x else lookup name l k := by
  unfold lookup
  by_cases h : name x = k
  · rw [if_pos h, List.find?_cons_of_pos (by simpa using h)]
  · rw [if_neg h, List.find?_cons_of_neg (by simpa using h)]

theorem lookup_eq_none (h : k ∉ l.map name) : lookup name l k = none := by
  refine List.find?_eq_none.mpr fun x hx => ?_
  rw [decide_eq_true_eq]
  exact fun hk => h (hk ▸ List.mem_map_of_mem hx)

omit [DecidableEq κ] in
theorem map_modify {f : α → α} (hf : ∀ x, name (f x) = name x) :
    (l.modify i f).map name = l.map name := by
  induction l generalizing i with
  | nil => cases i <;> rfl
  | cons x l ih =>
    cases i with
    | zero => simp [hf]
    | succ i => simp [ih]

theorem lookup_of_getElem? (hnodup : (l.map name).Nodup) (hx : l[i]? = some x) :
    lookup name l (name x) = some x := by
  induction l generalizing i with
  | nil => cases hx
  | cons y l ih =>
    obtain ⟨hnot, hrest⟩ := List.nodup_cons.mp hnodup
    rw [lookup_cons]
    rcases i with _ | i
    · obtain rfl : y = x := Option.some.inj hx
      exact if_pos rfl
    · have hmem : name x ∈ l.map name := List.mem_map_of_mem (List.mem_of_getElem? hx)
      have hne : name y ≠ name x := fun h => hnot (h ▸ hmem)
      rw [if_neg hne]
      exact ih hrest hx

/-- **One thing is changed**, and keeps its name. -/
theorem lookup_modify {f : α → α} (hnodup : (l.map name).Nodup) (hx : l[i]? = some x)
    (hf : name (f x) = name x) :
    lookup name (l.modify i f) k = if name x = k then some (f x) else lookup name l k := by
  induction l generalizing i with
  | nil => cases hx
  | cons y l ih =>
    obtain ⟨hnot, hrest⟩ := List.nodup_cons.mp hnodup
    rcases i with _ | i
    · obtain rfl : y = x := Option.some.inj hx
      rw [List.modify_zero_cons, lookup_cons, lookup_cons, hf]
      split_ifs <;> rfl
    · have hmem : name x ∈ l.map name := List.mem_map_of_mem (List.mem_of_getElem? hx)
      rw [List.modify_succ_cons, lookup_cons, lookup_cons, ih hrest hx]
      by_cases hk : name x = k
      · have hne : name y ≠ k := fun h => hnot (h.trans hk.symm ▸ hmem)
        rw [if_neg hne, if_pos hk, if_pos hk]
      · rw [if_neg hk, if_neg hk]

/-- **One thing is added** under a new name. -/
theorem lookup_append (hnew : name y ∉ l.map name) :
    lookup name (l ++ [y]) k = if name y = k then some y else lookup name l k := by
  induction l with
  | nil => exact lookup_cons
  | cons x l ih =>
    rw [List.map_cons, List.mem_cons, not_or] at hnew
    rw [List.cons_append, lookup_cons, lookup_cons, ih hnew.2]
    by_cases hk : name y = k
    · rw [if_neg fun h => hnew.1 (hk.trans h.symm), if_pos hk, if_pos hk]
    · rw [if_neg hk, if_neg hk]

omit [DecidableEq κ] in
theorem nodup_append_singleton (hnodup : (l.map name).Nodup) (hnew : name y ∉ l.map name) :
    ((l ++ [y]).map name).Nodup := by
  rw [List.map_append, List.map_singleton, List.nodup_append]
  refine ⟨hnodup, List.nodup_singleton _, fun a ha b hb hab => ?_⟩
  rw [List.mem_singleton] at hb
  exact hnew (hb ▸ hab ▸ ha)

end Named

end Entangled
