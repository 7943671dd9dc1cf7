import Entangled.Common.Prog
import Mathlib.Data.List.Count
import Mathlib.Data.List.Nodup
/-!
# Depth-first search with a visited set

The loop that both walks over the tangle share: pop a node, skip it when it
was seen, otherwise visit it, which may fail, may stop the search, and
otherwise says which nodes to push. The visit is a program of its own, so it
can read a store, count, or collect.

Three rules come out of the loop. `search_run` and `search_error` carry an
invariant of stack, visited set and state to the end of a run, and say where a
run can end. `search_ne_out` bounds the number of rounds, so the fuel of a
bounded loop is never what ends it. `Explored` is the invariant that makes
the visited nodes the reachable ones.
-/

namespace Entangled

namespace Search

open Prog

variable {ε σ κ : Type} [DecidableEq κ]

/-- What visiting a node decides: the nodes to push, the visited set from here
on, and whether the search ends at once. -/
structure Visit (κ : Type) where
  next : List κ
  seen : List κ
  stop : Bool

/-- Pop, skip what was seen, visit, push; `out` is the error of a run that used
up its rounds. -/
def search (visit : κ → List κ → EStateM ε σ (Visit κ)) (out : ε) :
    ℕ → List κ → List κ → EStateM ε σ (List κ)
  | _, [], seen => pure seen
  | 0, _ :: _, _ => fail out
  | n + 1, h :: stack, seen =>
    if h ∈ seen then search visit out n stack seen
    else do
      let v ← visit h seen
      if v.stop then pure v.seen else search visit out n (v.next ++ stack) v.seen

variable {visit : κ → List κ → EStateM ε σ (Visit κ)} {out : ε}

/-- An invariant of the loop: kept by skipping a seen node and by a visit that
does not stop. -/
structure Invariant (visit : κ → List κ → EStateM ε σ (Visit κ))
    (I : List κ → List κ → σ → Prop) : Prop where
  skip : ∀ {h stack seen s}, I (h :: stack) seen s → h ∈ seen → I stack seen s
  push : ∀ {h stack seen s v s'}, I (h :: stack) seen s → h ∉ seen →
    visit h seen s = .ok v s' → v.stop = false → I (v.next ++ stack) v.seen s'

variable {I : List κ → List κ → σ → Prop}

/-- The stack, visited set and state that a run comes through. -/
inductive Passes (visit : κ → List κ → EStateM ε σ (Visit κ)) (stack seen : List κ) (s : σ) :
    List κ → List κ → σ → Prop
  | start : Passes visit stack seen s stack seen s
  | skip {h : κ} {rest seen' : List κ} {t : σ} :
      Passes visit stack seen s (h :: rest) seen' t → h ∈ seen' →
      Passes visit stack seen s rest seen' t
  | push {h : κ} {rest seen' : List κ} {t t' : σ} {v : Visit κ} :
      Passes visit stack seen s (h :: rest) seen' t → h ∉ seen' → visit h seen' t = .ok v t' →
      v.stop = false → Passes visit stack seen s (v.next ++ rest) v.seen t'

omit [DecidableEq κ] in
/-- What a run comes through is an invariant, the strongest one. -/
theorem passes_invariant (visit : κ → List κ → EStateM ε σ (Visit κ)) (stack seen : List κ)
    (s : σ) : Invariant visit (Passes visit stack seen s) :=
  ⟨fun h hx => .skip h hx, fun h hx hv hstop => .push h hx hv hstop⟩

omit [DecidableEq κ] in
/-- **An invariant holds wherever a run comes through.** -/
theorem Invariant.passes (hI : Invariant visit I) {stack seen stack' seen' : List κ} {s s' : σ}
    (h0 : I stack seen s) (h : Passes visit stack seen s stack' seen' s') :
    I stack' seen' s' := by
  induction h with
  | start => exact h0
  | skip _ hx ih => exact hI.skip ih hx
  | push _ hx hv hstop ih => exact hI.push ih hx hv hstop

/-- A run from the invariant has come to a fresh node `h`, with the invariant
still in force, and is about to visit it. -/
def Reaches (I : List κ → List κ → σ → Prop) (h : κ) (seen : List κ) (t : σ) : Prop :=
  ∃ stack, I (h :: stack) seen t ∧ h ∉ seen

/-- **How a run returns.** Either the stack ran empty with the invariant in
force, or a visit reached with the invariant in force asked to stop. -/
theorem search_run (hI : Invariant visit I) {n : ℕ} {stack seen r : List κ} {s s' : σ}
    (h0 : I stack seen s) (h : search visit out n stack seen s = .ok r s') :
    I [] r s' ∨ ∃ x seen' t v, Reaches I x seen' t ∧
      visit x seen' t = .ok v s' ∧ v.stop = true ∧ r = v.seen := by
  induction n generalizing stack seen s with
  | zero =>
    cases stack with
    | nil =>
      cases h
      exact .inl h0
    | cons x stack => cases h
  | succ n ih =>
    cases stack with
    | nil =>
      cases h
      exact .inl h0
    | cons x stack =>
      rw [search] at h
      by_cases hx : x ∈ seen
      · rw [if_pos hx] at h
        exact ih (hI.skip h0 hx) h
      · rw [if_neg hx] at h
        obtain ⟨v, t, hv, hrest⟩ := bind_eq_ok.mp h
        cases hstop : v.stop with
        | true =>
          rw [hstop] at hrest
          cases hrest
          exact .inr ⟨x, seen, s, v, ⟨stack, h0, hx⟩, hv, hstop, rfl⟩
        | false =>
          simp only [hstop, Bool.false_eq_true, if_false] at hrest
          exact ih (hI.push h0 hx hv hstop) hrest

/-- **How a run fails.** It used up its rounds, or a visit reached with the
invariant in force failed. -/
theorem search_error (hI : Invariant visit I) {n : ℕ} {stack seen : List κ} {s s' : σ} {e : ε}
    (h0 : I stack seen s) (h : search visit out n stack seen s = .error e s') :
    e = out ∨ ∃ x seen' t, Reaches I x seen' t ∧ visit x seen' t = .error e s' := by
  induction n generalizing stack seen s with
  | zero =>
    cases stack with
    | nil => cases h
    | cons x stack =>
      cases h
      exact .inl rfl
  | succ n ih =>
    cases stack with
    | nil => cases h
    | cons x stack =>
      rw [search] at h
      by_cases hx : x ∈ seen
      · rw [if_pos hx] at h
        exact ih (hI.skip h0 hx) h
      · rw [if_neg hx] at h
        rcases bind_eq_error.mp h with hv | ⟨v, t, hv, hrest⟩
        · exact .inr ⟨x, seen, s, ⟨stack, h0, hx⟩, hv⟩
        · cases hstop : v.stop with
          | true => rw [hstop] at hrest; cases hrest
          | false =>
            simp only [hstop, Bool.false_eq_true, if_false] at hrest
            exact ih (hI.push h0 hx hv hstop) hrest

/-- A frame of every visit is a frame of the search. -/
theorem search_keeps {R : σ → σ → Prop} (hrefl : ∀ s, R s s)
    (htrans : ∀ {s t u}, R s t → R t u → R s u) (hv : ∀ x seen, Keeps R (visit x seen)) :
    ∀ (n : ℕ) (stack seen : List κ), Keeps R (search visit out n stack seen) := by
  intro n
  induction n with
  | zero =>
    intro stack seen
    cases stack with
    | nil => exact Keeps.pure hrefl seen
    | cons x stack => exact Keeps.fail hrefl out
  | succ n ih =>
    intro stack seen
    cases stack with
    | nil => exact Keeps.pure hrefl seen
    | cons x stack =>
      rw [search]
      split
      · exact ih stack seen
      · refine Keeps.bind htrans (hv x seen) fun v => ?_
        split
        · exact Keeps.pure hrefl v.seen
        · exact ih _ _

/-- A search whose visits succeed, and that has rounds enough, returns. -/
theorem search_returns {P : σ → Prop} (hv : ∀ x seen, Succeeds P (visit x seen)) {n : ℕ}
    {stack seen : List κ} {s : σ} (hs : P s)
    (hout : ∀ s', search visit out n stack seen s ≠ .error out s') :
    ∃ r s', search visit out n stack seen s = .ok r s' ∧ P s' := by
  have hvisit : ∀ {x seen s v s'}, P s → visit x seen s = .ok v s' → P s' := by
    intro x seen s v s' hs hr
    obtain ⟨_, _, hr', hs'⟩ := hv x seen s hs
    rw [hr] at hr'
    cases hr'
    exact hs'
  have hI : Invariant visit fun _ _ s => P s := ⟨fun h _ => h, fun h _ hr _ => hvisit h hr⟩
  cases hr : search visit out n stack seen s with
  | ok r s' =>
    refine ⟨r, s', rfl, ?_⟩
    rcases search_run hI hs hr with h | ⟨x, seen', t, v, ⟨_, ht, -⟩, hx, -, -⟩
    · exact h
    · exact hvisit ht hx
  | error e s' =>
    exfalso
    rcases search_error hI hs hr with rfl | ⟨x, seen', t, ⟨_, ht, -⟩, hx⟩
    · exact hout s' hr
    · obtain ⟨_, _, hr', -⟩ := hv x seen' t ht
      rw [hx] at hr'
      cases hr'

/-! ## Rounds -/

/-- The nodes of a finite universe that are still to be visited. -/
def unseen (univ seen : List κ) : ℕ := univ.countP (fun x => decide (x ∉ seen))

theorem unseen_le (univ : List κ) {seen seen' : List κ} (hsub : ∀ y ∈ seen, y ∈ seen') :
    unseen univ seen' ≤ unseen univ seen := by
  refine List.countP_mono_left fun y _ hy => ?_
  simp only [decide_eq_true_eq] at hy ⊢
  exact fun h => hy (hsub y h)

theorem unseen_lt {univ seen seen' : List κ} {x : κ} (hx : x ∈ univ) (hfresh : x ∉ seen)
    (hsub : ∀ y ∈ seen, y ∈ seen') (hmem : x ∈ seen') : unseen univ seen' < unseen univ seen := by
  unfold unseen
  rw [List.countP_eq_length_filter, List.countP_eq_length_filter]
  have hle : ∀ y, decide (y ∉ seen') = true → decide (y ∉ seen) = true := by
    intro y hy
    simp only [decide_eq_true_eq] at hy ⊢
    exact fun h => hy (hsub y h)
  have hsl := List.monotone_filter_right univ hle
  refine Nat.lt_of_le_of_ne hsl.length_le fun heq => ?_
  have hmemf : x ∈ univ.filter (fun y => decide (y ∉ seen)) := by simp [hx, hfresh]
  rw [← hsl.eq_of_length heq] at hmemf
  simp [hmem] at hmemf

/-- **Enough rounds.** If a visit pushes nothing, or comes to a node of a finite
universe and pushes at most `k`, a search given `stack + k · unseen` rounds does
not run out. -/
theorem search_ne_out (hI : Invariant visit I) (univ : List κ) (k : ℕ)
    (hvisit : ∀ {x seen s v s'}, Reaches I x seen s → visit x seen s = .ok v s' → v.stop = false →
      (v.next = [] ∨ (x ∈ univ ∧ v.next.length ≤ k)) ∧ x ∈ v.seen ∧ ∀ y ∈ seen, y ∈ v.seen)
    (herr : ∀ {x seen s s'}, Reaches I x seen s → visit x seen s ≠ .error out s') :
    ∀ {n : ℕ} {stack seen : List κ} {s s' : σ}, I stack seen s →
      stack.length + k * unseen univ seen ≤ n →
      search visit out n stack seen s ≠ .error out s' := by
  intro n
  induction n with
  | zero =>
    intro stack seen s s' _ hn
    have : stack = [] := List.length_eq_zero_iff.mp (by omega)
    subst this
    simp [search]
  | succ n ih =>
    intro stack seen s s' h0 hn
    cases stack with
    | nil => simp [search]
    | cons x stack =>
      rw [search]
      by_cases hx : x ∈ seen
      · rw [if_pos hx]
        exact ih (hI.skip h0 hx) (by simp only [List.length_cons] at hn; omega)
      · rw [if_neg hx]
        have hr : Reaches I x seen s := ⟨stack, h0, hx⟩
        intro hbad
        rcases bind_eq_error.mp hbad with hv | ⟨v, t, hv, hrest⟩
        · exact herr hr hv
        · cases hstop : v.stop with
          | true => rw [hstop] at hrest; cases hrest
          | false =>
            simp only [hstop, Bool.false_eq_true, if_false] at hrest
            obtain ⟨hnext, hmem, hsub⟩ := hvisit hr hv hstop
            refine ih (hI.push h0 hx hv hstop) ?_ hrest
            rcases hnext with hnil | ⟨hu, hk⟩
            · have hle := Nat.mul_le_mul_left k (unseen_le univ hsub)
              rw [hnil]
              simp only [List.length_cons, List.nil_append] at hn ⊢
              omega
            · -- one fresh node of the universe pays for the `k` it may push
              have hlt := unseen_lt hu hx hsub hmem
              have hmul : k * (unseen univ v.seen + 1) ≤ k * unseen univ seen :=
                Nat.mul_le_mul_left k hlt
              rw [Nat.mul_add, Nat.mul_one] at hmul
              simp only [List.length_cons, List.length_append] at hn ⊢
              omega

/-! ## Reachability -/

/-- The nodes a search from `root` can come to without entering `blocked`. -/
inductive Reach (succ : κ → List κ) (blocked : List κ) (root : κ) : κ → Prop
  | root : root ∉ blocked → Reach succ blocked root root
  | step {x y : κ} : Reach succ blocked root x → y ∈ succ x → y ∉ blocked →
      Reach succ blocked root y

variable {succ : κ → List κ} {blocked : List κ} {root : κ}

omit [DecidableEq κ] in
theorem Reach.not_mem {x : κ} (h : Reach succ blocked root x) : x ∉ blocked := by
  cases h with
  | root h => exact h
  | step _ _ h => exact h

omit [DecidableEq κ] in
/-- A larger blocked set that leaves the reached nodes alone changes nothing. -/
theorem Reach.mono {succ' : κ → List κ} {blocked' : List κ}
    (hs : ∀ x, Reach succ blocked root x → ∀ y ∈ succ x, y ∈ succ' x)
    (hb : ∀ x, Reach succ blocked root x → x ∉ blocked') {x : κ}
    (h : Reach succ blocked root x) : Reach succ' blocked' root x := by
  induction h with
  | root h => exact .root (hb _ (.root h))
  | @step x y hx hy hn ih => exact .step ih (hs x hx y hy) (hb y (.step hx hy hn))

/-- **What a search has done so far**, with `order` the nodes visited after
`blocked`: they are distinct and reachable, and every edge out of them leads
to a blocked node, a visited one or one on the stack. -/
structure Explored (succ : κ → List κ) (blocked : List κ) (root : κ)
    (stack order : List κ) : Prop where
  nodup : order.Nodup
  sound : ∀ x ∈ order, Reach succ blocked root x
  pending : ∀ x ∈ stack, x ∈ blocked ∨ Reach succ blocked root x
  rooted : root ∈ blocked ∨ root ∈ order ∨ root ∈ stack
  closed : ∀ x ∈ order, ∀ y ∈ succ x, y ∈ blocked ∨ y ∈ order ∨ y ∈ stack

namespace Explored

variable {stack order : List κ} {x : κ}

theorem start : Explored succ blocked root [root] [] where
  nodup := List.nodup_nil
  sound := by simp
  pending := by
    intro x hx
    rw [List.mem_singleton] at hx
    subst hx
    by_cases h : x ∈ blocked
    · exact .inl h
    · exact .inr (.root h)
  rooted := by simp
  closed := by simp

omit [DecidableEq κ] in
theorem skip (h : Explored succ blocked root (x :: stack) order) (hx : x ∈ blocked ++ order) :
    Explored succ blocked root stack order where
  nodup := h.nodup
  sound := h.sound
  pending := fun y hy => h.pending y (List.mem_cons_of_mem _ hy)
  rooted := by
    rcases h.rooted with hr | hr | hr
    · exact .inl hr
    · exact .inr (.inl hr)
    · rcases List.mem_cons.mp hr with rfl | hr
      · exact (List.mem_append.mp hx).imp_right .inl
      · exact .inr (.inr hr)
  closed := by
    intro a ha y hy
    rcases h.closed a ha y hy with hr | hr | hr
    · exact .inl hr
    · exact .inr (.inl hr)
    · rcases List.mem_cons.mp hr with rfl | hr
      · exact (List.mem_append.mp hx).imp_right .inl
      · exact .inr (.inr hr)

omit [DecidableEq κ] in
/-- Visiting a fresh node: its successors must be pushed, and what is pushed
must succeed it or a node visited before. -/
theorem push {next : List κ} (h : Explored succ blocked root (x :: stack) order)
    (hx : x ∉ blocked ++ order) (hall : ∀ y ∈ succ x, y ∈ next)
    (honly : ∀ y ∈ next, ∃ a ∈ order ++ [x], y ∈ succ a) :
    Explored succ blocked root (next ++ stack) (order ++ [x]) := by
  rw [List.mem_append, not_or] at hx
  have hreach : Reach succ blocked root x :=
    (h.pending x List.mem_cons_self).resolve_left hx.1
  have hsound : ∀ a ∈ order ++ [x], Reach succ blocked root a := by
    intro a ha
    rcases List.mem_append.mp ha with ha | ha
    · exact h.sound a ha
    · exact List.mem_singleton.mp ha ▸ hreach
  refine ⟨?_, hsound, ?_, ?_, ?_⟩
  · rw [List.nodup_append]
    refine ⟨h.nodup, List.nodup_singleton _, fun a ha b hb hab => hx.2 ?_⟩
    rw [← List.mem_singleton.mp hb, ← hab]
    exact ha
  · intro y hy
    rcases List.mem_append.mp hy with hy | hy
    · obtain ⟨a, ha, hya⟩ := honly y hy
      by_cases hb : y ∈ blocked
      · exact .inl hb
      · exact .inr (.step (hsound a ha) hya hb)
    · exact h.pending y (List.mem_cons_of_mem _ hy)
  · rcases h.rooted with hr | hr | hr
    · exact .inl hr
    · exact .inr (.inl (List.mem_append_left _ hr))
    · rcases List.mem_cons.mp hr with rfl | hr
      · exact .inr (.inl (by simp))
      · exact .inr (.inr (List.mem_append_right _ hr))
  · intro a ha y hy
    rcases List.mem_append.mp ha with ha | ha
    · rcases h.closed a ha y hy with hr | hr | hr
      · exact .inl hr
      · exact .inr (.inl (List.mem_append_left _ hr))
      · rcases List.mem_cons.mp hr with rfl | hr
        · exact .inr (.inl (by simp))
        · exact .inr (.inr (List.mem_append_right _ hr))
    · rw [List.mem_singleton] at ha
      subst ha
      exact .inr (.inr (List.mem_append_left _ (hall y hy)))

omit [DecidableEq κ] in
/-- **An exhausted search has visited exactly the reachable nodes.** -/
theorem mem_iff (h : Explored succ blocked root [] order) :
    x ∈ order ↔ Reach succ blocked root x := by
  refine ⟨h.sound x, fun hr => ?_⟩
  induction hr with
  | root hb => simpa [hb] using h.rooted
  | @step x y _ hy hb ih => simpa [hb] using h.closed x ih y hy

omit [DecidableEq κ] in
/-- The edges may grow while the search goes on, only not at the nodes it has visited. -/
theorem relabel {succ' : κ → List κ} (h : Explored succ blocked root stack order)
    (hgrow : ∀ x, ∀ y ∈ succ x, y ∈ succ' x) (hsame : ∀ x ∈ order, succ' x = succ x) :
    Explored succ' blocked root stack order where
  nodup := h.nodup
  sound x hx := (h.sound x hx).mono (fun x _ => hgrow x) fun _ hr => hr.not_mem
  pending x hx := (h.pending x hx).imp_right fun hr =>
    hr.mono (fun x _ => hgrow x) fun _ hr => hr.not_mem
  rooted := h.rooted
  closed x hx y hy := h.closed x hx y (hsame x hx ▸ hy)

omit [DecidableEq κ] in
theorem fresh (h : Explored succ blocked root stack order) : ∀ y ∈ order, y ∉ blocked :=
  fun y hy => (h.sound y hy).not_mem

end Explored

end Search

end Entangled
