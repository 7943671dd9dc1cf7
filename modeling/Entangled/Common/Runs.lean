import Mathlib.Data.List.Basic
/-!
# Runs of calls

A machine is called again and again, and a run is the list of the calls. What is
asked of it is *upheld* along a run when every state the run comes through is
sound and every call does, in the state it is made in, what it should. Where one
call is decided by a condition on the state it meets, so is the run.
-/

namespace Entangled

namespace Runs

variable {σ α : Type*} {step : σ → α → σ} {sound I : σ → Prop} {kept cond : σ → α → Prop}
  {s : σ} {as : List α}

/-- Every state of the run is sound, and every call of it is kept. -/
def Upheld (step : σ → α → σ) (sound : σ → Prop) (kept : σ → α → Prop) : σ → List α → Prop
  | s, [] => sound s
  | s, a :: as => sound s ∧ kept s a ∧ Upheld step sound kept (step s a) as

/-- Every call of the run meets the condition, in the state it is made in. -/
def Meets (step : σ → α → σ) (cond : σ → α → Prop) : σ → List α → Prop
  | _, [] => True
  | s, a :: as => cond s a ∧ Meets step cond (step s a) as

theorem Upheld.start (h : Upheld step sound kept s as) : sound s := by
  cases as with
  | nil => exact h
  | cons a as => exact h.1

/-- **A run is decided call by call.** The invariant is kept by the calls that
meet the condition, so only these need be looked at. -/
theorem upheld_iff_meets (hsound : ∀ s, I s → sound s)
    (hkept : ∀ s a, I s → (kept s a ∧ sound (step s a) ↔ cond s a))
    (hinv : ∀ s a, I s → cond s a → I (step s a)) (hs : I s) :
    Upheld step sound kept s as ↔ Meets step cond s as := by
  induction as generalizing s with
  | nil => exact ⟨fun _ => trivial, fun _ => hsound s hs⟩
  | cons a as ih =>
    constructor
    · intro ⟨_, hk, hrest⟩
      have hc : cond s a := (hkept s a hs).mp ⟨hk, hrest.start⟩
      exact ⟨hc, (ih (hinv s a hs hc)).mp hrest⟩
    · intro ⟨hc, hrest⟩
      exact ⟨hsound s hs, ((hkept s a hs).mpr hc).1, (ih (hinv s a hs hc)).mpr hrest⟩

end Runs

end Entangled
