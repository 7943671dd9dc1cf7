import Mathlib.Logic.Basic
/-!
# Fallible stateful programs

A C function that reports an error code and works on memory it shares with
its caller is an `EStateM` program: on failure the state stays as the failing
statement left it, nothing is rolled back. This file adds the primitives the
programs below are written with, the two inversion rules for sequencing, and
frame conditions that compose along a program.
-/

namespace Entangled

namespace Prog

variable {ε σ τ α β : Type}

/-- Stop with an error code, keeping the state. -/
def fail (e : ε) : EStateM ε σ α := fun s => .error e s

/-- Read a component of the state. -/
def gets (f : σ → α) : EStateM ε σ α := fun s => .ok (f s) s

/-- Overwrite the state. -/
def update (f : σ → σ) : EStateM ε σ Unit := fun s => .ok () (f s)

/-- Run a program on one component of a larger state. -/
def zoom (view : σ → τ) (put : τ → σ → σ) (x : EStateM ε τ α) : EStateM ε σ α := fun s =>
  match x (view s) with
  | .ok a t => .ok a (put t s)
  | .error e t => .error e (put t s)

/-- Run a program and hand its outcome, error included, to the caller. -/
def outcome (x : EStateM ε σ α) : EStateM ε σ (Except ε α) := fun s =>
  match x s with
  | .ok a s' => .ok (.ok a) s'
  | .error e s' => .ok (.error e) s'

/-- The state a run leaves behind, whether it returned or failed. -/
def final (x : EStateM ε σ α) (s : σ) : σ :=
  match x s with
  | .ok _ s' => s'
  | .error _ s' => s'

/-- A run returns, and its value and last state pass a test. For concrete runs
this evaluates. -/
def returns (x : EStateM ε σ α) (s : σ) (p : α → σ → Bool) : Bool :=
  match x s with
  | .ok a s' => p a s'
  | .error _ _ => false

/-! ## Inversion -/

variable {x : EStateM ε σ α} {f : α → EStateM ε σ β} {s s' : σ} {a : α} {b : β} {e : ε}

@[simp] theorem pure_apply : (pure a : EStateM ε σ α) s = .ok a s := rfl

@[simp] theorem fail_apply : (fail e : EStateM ε σ α) s = .error e s := rfl

@[simp] theorem gets_apply {g : σ → α} : (gets g : EStateM ε σ α) s = .ok (g s) s := rfl

@[simp] theorem update_apply {g : σ → σ} : (update g : EStateM ε σ Unit) s = .ok () (g s) := rfl

theorem bind_apply_ok (h : x s = .ok a s') : (x >>= f) s = f a s' := by
  simp only [bind, EStateM.bind, h]

theorem bind_apply_error (h : x s = .error e s') : (x >>= f) s = .error e s' := by
  simp only [bind, EStateM.bind, h]

theorem gets_bind {g : σ → α} : (gets g >>= f) s = f (g s) s := rfl

theorem update_bind {g : σ → σ} {k : Unit → EStateM ε σ β} : (update g >>= k) s = k () (g s) := rfl

theorem bind_eq_ok :
    (x >>= f) s = .ok b s' ↔ ∃ a t, x s = .ok a t ∧ f a t = .ok b s' := by
  constructor
  · intro h
    cases hx : x s with
    | ok a t => exact ⟨a, t, rfl, by rwa [bind_apply_ok hx] at h⟩
    | error e t => rw [bind_apply_error hx] at h; cases h
  · rintro ⟨a, t, hx, hf⟩
    rw [bind_apply_ok hx, hf]

theorem bind_eq_error :
    (x >>= f) s = .error e s' ↔
      x s = .error e s' ∨ ∃ a t, x s = .ok a t ∧ f a t = .error e s' := by
  constructor
  · intro h
    cases hx : x s with
    | ok a t => exact .inr ⟨a, t, rfl, by rwa [bind_apply_ok hx] at h⟩
    | error e t => rw [bind_apply_error hx] at h; cases h; exact .inl rfl
  · rintro (hx | ⟨a, t, hx, hf⟩)
    · exact bind_apply_error hx
    · rw [bind_apply_ok hx, hf]

theorem final_of_ok (h : x s = .ok a s') : final x s = s' := by
  rw [final, h]

theorem final_of_error (h : x s = .error e s') : final x s = s' := by
  rw [final, h]

@[simp] theorem final_pure : final (pure a : EStateM ε σ α) s = s := rfl

@[simp] theorem final_update {g : σ → σ} : final (update g : EStateM ε σ Unit) s = g s := rfl

theorem final_gets_bind {g : σ → α} : final (gets g >>= f) s = final (f (g s)) s := rfl

theorem final_update_bind {g : σ → σ} {k : Unit → EStateM ε σ β} :
    final (update g >>= k) s = final (k ()) (g s) := rfl

theorem final_bind_of_ok (h : x s = .ok a s') : final (x >>= f) s = final (f a) s' := by
  unfold final
  rw [bind_apply_ok h]

theorem final_bind_of_error (h : x s = .error e s') : final (x >>= f) s = s' := by
  unfold final
  rw [bind_apply_error h]

theorem of_returns {p : α → σ → Bool} (h : returns x s p = true) :
    ∃ a s', x s = .ok a s' ∧ p a s' = true := by
  unfold returns at h
  cases hx : x s with
  | ok a s' => exact ⟨a, s', rfl, by rwa [hx] at h⟩
  | error e s' => rw [hx] at h; cases h

theorem zoom_eq_ok {view : σ → τ} {put : τ → σ → σ} {x : EStateM ε τ α} :
    zoom view put x s = .ok a s' ↔ ∃ t, x (view s) = .ok a t ∧ s' = put t s := by
  unfold zoom
  cases x (view s) with
  | ok b t =>
    constructor
    · intro h; cases h; exact ⟨t, rfl, rfl⟩
    · rintro ⟨u, h, rfl⟩; cases h; rfl
  | error e t => simp

theorem zoom_eq_error {view : σ → τ} {put : τ → σ → σ} {x : EStateM ε τ α} :
    zoom view put x s = .error e s' ↔ ∃ t, x (view s) = .error e t ∧ s' = put t s := by
  unfold zoom
  cases x (view s) with
  | ok b t => simp
  | error b t =>
    constructor
    · intro h; cases h; exact ⟨t, rfl, rfl⟩
    · rintro ⟨u, h, rfl⟩; cases h; rfl

theorem outcome_eq_ok {r : Except ε α} :
    outcome x s = .ok r s' ↔
      (∃ a, r = .ok a ∧ x s = .ok a s') ∨ ∃ e, r = .error e ∧ x s = .error e s' := by
  unfold outcome
  cases x s <;> cases r <;> simp [eq_comm]

theorem outcome_ne_error : outcome x s ≠ .error e s' := by
  unfold outcome
  cases x s <;> simp

/-! ## Frames

`Keeps R x` says that every run of `x`, failing or not, relates the state it
starts from to the state it leaves by `R`. For a reflexive and transitive `R`
this passes along sequencing, so the frame of a program is read off its
statements. -/

/-- Every run relates its first state to its last. -/
def Keeps (R : σ → σ → Prop) (x : EStateM ε σ α) : Prop := ∀ s, R s (final x s)

variable {R : σ → σ → Prop}

theorem Keeps.of_ok (h : Keeps R x) (hx : x s = .ok a s') : R s s' := by
  have := h s
  rwa [final, hx] at this

theorem Keeps.of_error (h : Keeps R x) (hx : x s = .error e s') : R s s' := by
  have := h s
  rwa [final, hx] at this

theorem keeps_iff :
    Keeps R x ↔ (∀ s a s', x s = .ok a s' → R s s') ∧ ∀ s e s', x s = .error e s' → R s s' := by
  refine ⟨fun h => ⟨fun s a s' => h.of_ok, fun s e s' => h.of_error⟩, fun ⟨hok, herr⟩ s => ?_⟩
  unfold final
  cases hx : x s with
  | ok a s' => exact hok s a s' hx
  | error e s' => exact herr s e s' hx

theorem Keeps.bind (htrans : ∀ {s t u}, R s t → R t u → R s u) (hx : Keeps R x)
    (hf : ∀ a, Keeps R (f a)) : Keeps R (x >>= f) := by
  rw [keeps_iff]
  constructor
  · intro s b s' h
    obtain ⟨a, t, hxs, hfa⟩ := bind_eq_ok.mp h
    exact htrans (hx.of_ok hxs) ((hf a).of_ok hfa)
  · intro s e s' h
    rcases bind_eq_error.mp h with hxs | ⟨a, t, hxs, hfa⟩
    · exact hx.of_error hxs
    · exact htrans (hx.of_ok hxs) ((hf a).of_error hfa)

theorem Keeps.pure (hrefl : ∀ s, R s s) (a : α) : Keeps R (pure a : EStateM ε σ α) := hrefl

theorem Keeps.fail (hrefl : ∀ s, R s s) (e : ε) : Keeps R (fail e : EStateM ε σ α) := hrefl

theorem Keeps.gets (hrefl : ∀ s, R s s) (g : σ → α) : Keeps R (gets g : EStateM ε σ α) := hrefl

theorem Keeps.update {g : σ → σ} (h : ∀ s, R s (g s)) :
    Keeps R (update g : EStateM ε σ Unit) := h

theorem Keeps.outcome (h : Keeps R x) : Keeps R (outcome x) := by
  rw [keeps_iff]
  refine ⟨fun s r s' hr => ?_, fun s e s' hr => absurd hr outcome_ne_error⟩
  rcases outcome_eq_ok.mp hr with ⟨a, -, hx⟩ | ⟨e, -, hx⟩
  · exact h.of_ok hx
  · exact h.of_error hx

theorem Keeps.zoom {S : τ → τ → Prop} {view : σ → τ} {put : τ → σ → σ} {x : EStateM ε τ α}
    (h : Keeps S x) (hput : ∀ s t, S (view s) t → R s (put t s)) : Keeps R (zoom view put x) := by
  rw [keeps_iff]
  constructor
  · intro s a s' hr
    obtain ⟨t, hx, rfl⟩ := zoom_eq_ok.mp hr
    exact hput s t (h.of_ok hx)
  · intro s e s' hr
    obtain ⟨t, hx, rfl⟩ := zoom_eq_error.mp hr
    exact hput s t (h.of_error hx)

/-! ## Success

`Succeeds P x` says that from every state with `P` a run of `x` returns, again in
such a state. -/

/-- Every run from a state with `P` returns in one. -/
def Succeeds (P : σ → Prop) (x : EStateM ε σ α) : Prop := ∀ s, P s → ∃ a s', x s = .ok a s' ∧ P s'

variable {P : σ → Prop}

theorem Succeeds.bind (hx : Succeeds P x) (hf : ∀ a, Succeeds P (f a)) : Succeeds P (x >>= f) := by
  intro s hs
  obtain ⟨a, s₁, h₁, hs₁⟩ := hx s hs
  obtain ⟨b, s₂, h₂, hs₂⟩ := hf a s₁ hs₁
  exact ⟨b, s₂, by rw [bind_apply_ok h₁, h₂], hs₂⟩

theorem Succeeds.pure (a : α) : Succeeds P (pure a : EStateM ε σ α) := fun s hs => ⟨a, s, rfl, hs⟩

theorem Succeeds.gets (g : σ → α) : Succeeds P (gets g : EStateM ε σ α) :=
  fun s hs => ⟨g s, s, rfl, hs⟩

theorem Succeeds.update {g : σ → σ} (h : ∀ s, P s → P (g s)) :
    Succeeds P (update g : EStateM ε σ Unit) := fun s hs => ⟨(), g s, rfl, h s hs⟩

theorem Succeeds.zoom {Q : τ → Prop} {view : σ → τ} {put : τ → σ → σ} {x : EStateM ε τ α}
    (h : Succeeds Q x) (hview : ∀ s, P s → Q (view s)) (hput : ∀ s t, P s → Q t → P (put t s)) :
    Succeeds P (zoom view put x) := by
  intro s hs
  obtain ⟨a, t, hx, ht⟩ := h (view s) (hview s hs)
  exact ⟨a, put t s, zoom_eq_ok.mpr ⟨t, hx, rfl⟩, hput s t hs ht⟩

end Prog

end Entangled
