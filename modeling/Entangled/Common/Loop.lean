import Entangled.Common.Prog
import Mathlib.Data.Nat.Notation
import Mathlib.Logic.Relation
/-!
# Loops whose end is open

A loop of C whose body is a program of its own. Each turn goes round again with new locals, or
leaves with a result; an error leaves too. A run is given a number of turns and fails once they are
used up, so that it is total, and `EndsWithin` says that a number is enough.

`Iter` is a turn that goes round again and `Head` reaches what can stand at the head of the loop. A
loop ends when some measure falls with every iteration (`endsWithin_of_decreasing`), and
`progress_iff` compares that with the heads at which it goes round without getting on.
-/

namespace Entangled

namespace Loop

open Prog

variable {ε τ σ α : Type}

/-- What a turn comes to: the locals of the next one, or the result. -/
inductive Turn (σ α : Type)
  | again (s : σ)
  | done (a : α)

variable (body : σ → EStateM ε τ (Turn σ α)) (out : ε)

/-- Go round for `n` turns at most. -/
def run : ℕ → σ → EStateM ε τ α
  | 0, _ => fail out
  | n + 1, s => do
    match ← body s with
    | .again s' => run n s'
    | .done a => pure a

/-- A turn that goes round again, between locals and states. -/
def Iter (p q : σ × τ) : Prop := body p.1 p.2 = .ok (.again q.1) q.2

/-- What a run comes to at the head of the loop. -/
def Head (p₀ p : σ × τ) : Prop := Relation.ReflTransGen (Iter body) p₀ p

/-- The loop is left within `n` turns. -/
def EndsWithin : ℕ → σ × τ → Prop
  | 0, _ => False
  | n + 1, p => ∀ q, Iter body p q → EndsWithin n q

variable {body out} {p p₀ q r : σ × τ} {n : ℕ} {s : σ} {t t' : τ} {a : α}

theorem run_of_iter (h : Iter body p q) (n : ℕ) :
    run body out (n + 1) p.1 p.2 = run body out n q.1 q.2 := by
  rw [run, bind_apply_ok h]

theorem run_of_done (h : body s t = .ok (.done a) t') (n : ℕ) :
    run body out (n + 1) s t = .ok a t' := by
  rw [run, bind_apply_ok h]
  rfl

/-- A turn that leaves does so whatever turns were left. -/
theorem run_of_leaves (hno : ∀ q, ¬Iter body p q) (n k : ℕ) :
    run body out (n + 1) p.1 p.2 = run body out (k + 1) p.1 p.2 := by
  cases hb : body p.1 p.2 with
  | error e t => rw [run, run, bind_apply_error hb, bind_apply_error hb]
  | ok turn t =>
    cases turn with
    | again s => exact absurd hb (hno (s, t))
    | done a => rw [run_of_done hb, run_of_done hb]

/-- **A loop that ends** needs no more turns than that. -/
theorem run_of_endsWithin (h : EndsWithin body n p) (k : ℕ) :
    run body out (n + k) p.1 p.2 = run body out n p.1 p.2 := by
  induction n generalizing p with
  | zero => exact h.elim
  | succ n ih =>
    rw [Nat.add_right_comm]
    by_cases hgo : ∃ q, Iter body p q
    · obtain ⟨q, hgo⟩ := hgo
      rw [run_of_iter hgo, run_of_iter hgo]
      exact ih (h q hgo)
    · exact run_of_leaves (fun q hq => hgo ⟨q, hq⟩) _ _

/-- **One that does not** uses up any number of turns. -/
theorem run_of_not_endsWithin (h : ¬EndsWithin body n p) :
    ∃ t, run body out n p.1 p.2 = .error out t := by
  induction n generalizing p with
  | zero => exact ⟨p.2, rfl⟩
  | succ n ih =>
    simp only [EndsWithin, not_forall] at h
    obtain ⟨q, hgo, hn⟩ := h
    obtain ⟨t, hr⟩ := ih hn
    exact ⟨t, by rw [run_of_iter hgo, hr]⟩

/-- **How a run returns**: at a head of the loop the turn leaves. -/
theorem run_eq_ok (h : run body out n s t = .ok a t') :
    ∃ p, Head body (s, t) p ∧ body p.1 p.2 = .ok (.done a) t' := by
  induction n generalizing s t with
  | zero => cases h
  | succ n ih =>
    obtain ⟨turn, t₁, hb, hrest⟩ := bind_eq_ok.mp h
    cases turn with
    | again s₁ =>
      obtain ⟨p, hp, hdone⟩ := ih hrest
      have hit : Iter body (s, t) (s₁, t₁) := hb
      exact ⟨p, Relation.ReflTransGen.head hit hp, hdone⟩
    | done a₁ =>
      cases hrest
      exact ⟨(s, t), .refl, hb⟩

/-- A turn goes round in one way only. -/
theorem Iter.unique (hq : Iter body p q) (hr : Iter body p r) : q = r := by
  have heq := hq.symm.trans hr
  injection heq with hturn hstate
  injection hturn with hlocal
  exact Prod.ext hlocal hstate

/-- A turn that leaves does not go round. -/
theorem not_iter_of_done (hdone : body p.1 p.2 = .ok (.done a) t) : ¬Iter body p q := by
  intro hpq
  have heq := hdone.symm.trans hpq
  injection heq with hturn
  cases hturn

/-- From a head at which the loop leaves it comes to no other. -/
theorem Head.eq_of_leaves (h : Head body p q) (hdone : body p.1 p.2 = .ok (.done a) t) : q = p := by
  rcases Relation.ReflTransGen.cases_head h with heq | ⟨r, hpr, -⟩
  · exact heq.symm
  · exact absurd hpr (not_iter_of_done hdone)

/-- A loop comes to one head at which it leaves. -/
theorem Head.eq_of_done {b : α} (hp : Head body p₀ p) (hq : Head body p₀ q)
    (hdp : body p.1 p.2 = .ok (.done a) t) (hdq : body q.1 q.2 = .ok (.done b) t') : p = q := by
  have hunique : Relator.RightUnique (Iter body) := fun _ _ _ hxy hxz => hxy.unique hxz
  rcases Relation.ReflTransGen.total_of_right_unique hunique hp hq with hpq | hqp
  · have hpq' : Head body p q := hpq
    exact (hpq'.eq_of_leaves hdp).symm
  · have hqp' : Head body q p := hqp
    exact hqp'.eq_of_leaves hdq

/-- An invariant of the heads. -/
theorem Head.invariant {I : σ × τ → Prop} (h : Head body p₀ p) (h₀ : I p₀)
    (hstep : ∀ p q, Head body p₀ p → I p → Iter body p q → I q) : I p := by
  induction h with
  | refl => exact h₀
  | tail hp hpq ih => exact hstep _ _ hp ih hpq

/-- A loop whose measure falls with every iteration ends. -/
theorem endsWithin_of_decreasing (μ : σ × τ → ℕ)
    (hdec : ∀ p q, Head body p₀ p → Iter body p q → μ q < μ p) (hp : Head body p₀ p)
    (hn : μ p < n) : EndsWithin body n p := by
  induction n generalizing p with
  | zero => omega
  | succ n ih =>
    intro q hpq
    have hlt := hdec p q hp hpq
    exact ih (hp.tail hpq) (by omega)

/-- **A loop that gets on returns**: from a head where the invariant holds it leaves as it should,
or goes on to one where it holds again and the measure is smaller. -/
theorem run_returns {I : σ × τ → Prop} {Q : α → τ → Prop} (μ : σ × τ → ℕ)
    (hstep : ∀ p, I p → (∃ a t, body p.1 p.2 = .ok (.done a) t ∧ Q a t) ∨
      ∃ q, Iter body p q ∧ I q ∧ μ q < μ p) (hp : I p) (hn : μ p < n) :
    ∃ a t, run body out n p.1 p.2 = .ok a t ∧ Q a t := by
  induction n generalizing p with
  | zero => omega
  | succ n ih =>
    rcases hstep p hp with ⟨a, t, hdone, hq⟩ | ⟨q, hpq, hq, hlt⟩
    · exact ⟨a, t, run_of_done hdone n, hq⟩
    · rw [run_of_iter hpq]
      exact ih hq (by omega)

/-- Such a loop keeps its invariant at every head. -/
theorem Head.of_progress {I : σ × τ → Prop} {Q : α → τ → Prop}
    (hstep : ∀ p, I p → (∃ a t, body p.1 p.2 = .ok (.done a) t ∧ Q a t) ∨
      ∃ q, Iter body p q ∧ I q) (h : Head body p₀ p) (h₀ : I p₀) : I p := by
  refine h.invariant h₀ fun p q _ hp hpq => ?_
  rcases hstep p hp with ⟨a, t, hdone, -⟩ | ⟨q', hpq', hq'⟩
  · exact absurd hpq (not_iter_of_done hdone)
  · rwa [hpq.unique hpq']

/-- Such a loop ends. -/
theorem endsWithin_of_progress {I : σ × τ → Prop} {Q : α → τ → Prop} (μ : σ × τ → ℕ)
    (hstep : ∀ p, I p → (∃ a t, body p.1 p.2 = .ok (.done a) t ∧ Q a t) ∨
      ∃ q, Iter body p q ∧ I q ∧ μ q < μ p) (hp : I p) (hn : μ p < n) : EndsWithin body n p := by
  have hkeep : ∀ p, I p → (∃ a t, body p.1 p.2 = .ok (.done a) t ∧ Q a t) ∨
      ∃ q, Iter body p q ∧ I q := fun p hp =>
    (hstep p hp).imp id fun ⟨q, hpq, hq, _⟩ => ⟨q, hpq, hq⟩
  refine endsWithin_of_decreasing μ (fun p' q (hp' : Head body p p') hpq => ?_) .refl hn
  rcases hstep p' (Head.of_progress hkeep hp' hp) with ⟨a, t, hdone, -⟩ | ⟨q', hpq', -, hlt⟩
  · exact absurd hpq (not_iter_of_done hdone)
  · rwa [hpq.unique hpq']

/-- A loop that can always go round again does not end. -/
theorem not_endsWithin_of_iter {I : σ × τ → Prop}
    (hI : ∀ p, I p → ∃ q, Iter body p q ∧ I q) (hp : I p) (n : ℕ) : ¬EndsWithin body n p := by
  induction n generalizing p with
  | zero => exact id
  | succ n ih =>
    obtain ⟨q, hpq, hq⟩ := hI p hp
    exact fun h => ih hq (h q hpq)

/-- **When a loop makes progress**: it ends, and every iteration makes some, just when it is never
stuck. -/
theorem progress_iff {Progress : σ × τ → σ × τ → Prop} {Stuck : σ × τ → Prop} (μ : σ × τ → ℕ)
    (hdec : ∀ p q, Head body p₀ p → Iter body p q → Progress p q → μ q < μ p)
    (hstuck : ∀ p, Head body p₀ p → Stuck p → ∃ q, Iter body p q ∧ ¬Progress p q)
    (hfree : ∀ p q, Head body p₀ p → Iter body p q → ¬Stuck p → Progress p q) :
    ((∃ n, EndsWithin body n p₀) ∧ ∀ p q, Head body p₀ p → Iter body p q → Progress p q) ↔
      ∀ p, Head body p₀ p → ¬Stuck p := by
  constructor
  · rintro ⟨-, hprog⟩ p hp hs
    obtain ⟨q, hpq, hno⟩ := hstuck p hp hs
    exact hno (hprog p q hp hpq)
  · intro hno
    have hprog : ∀ p q, Head body p₀ p → Iter body p q → Progress p q :=
      fun p q hp hpq => hfree p q hp hpq (hno p hp)
    exact ⟨⟨μ p₀ + 1, endsWithin_of_decreasing μ
      (fun p q hp hpq => hdec p q hp hpq (hprog p q hp hpq)) .refl (Nat.lt_succ_self _)⟩, hprog⟩

end Loop

end Entangled
