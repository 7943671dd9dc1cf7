import Mathlib.Data.List.Basic
/-!
# Reading within bounds

A program that reads a buffer can come to an end in two ways before it has its result: it gives up,
which is an answer, or it does what it must not do, which is none. `NoFault` says that it does not
come to the second. The lemmas take a program apart: it is free of faults when its first step is and,
whatever that step gives, so is the rest.
-/

namespace Entangled

/-- What a program must not do: touch what is outside the buffer, or use what nobody has set. -/
inductive Fault
  | outside
  | unset
  deriving DecidableEq

/-- Why a program has no result. -/
inductive Halt
  | fault (f : Fault)
  | failed
  deriving DecidableEq

/-- A program that reads a buffer. -/
abbrev Bounded (α : Type) := Except Halt α

namespace Bounded

variable {α β : Type}

/-- The `n` values from place `i` on. -/
def read (buffer : List α) (i n : ℕ) : Bounded (List α) :=
  if i + n ≤ buffer.length then .ok ((buffer.drop i).take n) else .error (.fault .outside)

/-- `return -1` where the condition holds. -/
def giveUpIf (p : Prop) [Decidable p] : Bounded Unit := if p then .error .failed else .ok ()

/-- The program does nothing it must not do. -/
def NoFault (x : Bounded α) : Prop := ∀ f, x ≠ .error (.fault f)

variable {x : Bounded α} {g : α → Bounded β} {buffer : List α} {i n : ℕ} {p : Prop} [Decidable p]

theorem read_eq_ok_iff {l : List α} :
    read buffer i n = .ok l ↔ i + n ≤ buffer.length ∧ l = (buffer.drop i).take n := by
  unfold read
  split_ifs with h
  · simp only [Except.ok.injEq, h, true_and]
    exact eq_comm
  · simp only [h, false_and]

theorem giveUpIf_eq_ok_iff {u : Unit} : giveUpIf p = .ok u ↔ ¬ p := by
  unfold giveUpIf
  split_ifs with h <;> simp [h]

theorem bind_eq_ok_iff {b : β} : x >>= g = .ok b ↔ ∃ a, x = .ok a ∧ g a = .ok b := by
  cases x with
  | error e => simp [bind, Except.bind]
  | ok a => simp [bind, Except.bind]

theorem noFault_ok (a : α) : NoFault (.ok a : Bounded α) := fun _ h => by cases h

theorem noFault_failed : NoFault (.error .failed : Bounded α) := fun _ h => by cases h

theorem noFault_bind : NoFault (x >>= g) ↔ NoFault x ∧ ∀ a, x = .ok a → NoFault (g a) := by
  cases x with
  | error e =>
    constructor
    · exact fun h => ⟨fun f heq => h f (by rw [Except.error.inj heq]; rfl), fun a ha => by cases ha⟩
    · exact fun h f heq => h.1 f (by rw [Except.error.inj heq])
  | ok a =>
    constructor
    · exact fun h => ⟨noFault_ok a, fun b hb => Except.ok.inj hb ▸ h⟩
    · exact fun h => h.2 a rfl

theorem noFault_read : NoFault (read buffer i n) ↔ i + n ≤ buffer.length := by
  unfold read
  split_ifs with h
  · exact iff_of_true (noFault_ok _) h
  · exact iff_of_false (fun hno => hno _ rfl) h

theorem noFault_giveUpIf : NoFault (giveUpIf p) := by
  unfold giveUpIf
  split_ifs
  · exact noFault_failed
  · exact noFault_ok _

/-- A check. -/
theorem noFault_giveUpIf_bind {x : Bounded β} :
    NoFault (giveUpIf p >>= fun _ => x) ↔ p ∨ NoFault x := by
  rw [noFault_bind]
  constructor
  · rintro ⟨-, h⟩
    by_cases hp : p
    · exact .inl hp
    · exact .inr (h () (giveUpIf_eq_ok_iff.mpr hp))
  · rintro (hp | hx)
    · exact ⟨noFault_giveUpIf, fun a ha => absurd hp (giveUpIf_eq_ok_iff.mp ha)⟩
    · exact ⟨noFault_giveUpIf, fun _ _ => hx⟩

/-- A stretch of the buffer. -/
theorem noFault_read_bind {g : List α → Bounded β} :
    NoFault (read buffer i n >>= g) ↔
      i + n ≤ buffer.length ∧ NoFault (g ((buffer.drop i).take n)) := by
  rw [noFault_bind, noFault_read]
  constructor
  · rintro ⟨hle, h⟩
    exact ⟨hle, h _ (read_eq_ok_iff.mpr ⟨hle, rfl⟩)⟩
  · rintro ⟨hle, h⟩
    refine ⟨hle, fun a ha => ?_⟩
    rw [(read_eq_ok_iff.mp ha).2]
    exact h

/-- The program does not give up. -/
def NotFailed (x : Bounded α) : Prop := x ≠ .error .failed

theorem notFailed_read : NotFailed (read buffer i n) := by
  unfold read NotFailed
  split_ifs <;> exact fun h => by cases h

theorem NotFailed.bind (hx : NotFailed x) (hg : ∀ a, NotFailed (g a)) : NotFailed (x >>= g) := by
  cases x with
  | error e => exact fun h => hx (congrArg Except.error (Except.error.inj h))
  | ok a => exact hg a

/-- A program that does not give up is free of faults when it has a result. -/
theorem NotFailed.noFault_bind (hx : NotFailed x) :
    NoFault (x >>= g) ↔ ∃ a, x = .ok a ∧ NoFault (g a) := by
  cases x with
  | error e =>
    cases e with
    | failed => exact absurd rfl hx
    | fault f =>
      constructor
      · exact fun h => absurd rfl (h f)
      · rintro ⟨a, ha, -⟩
        cases ha
  | ok a =>
    constructor
    · exact fun h => ⟨a, rfl, h⟩
    · rintro ⟨b, hb, h⟩
      exact Except.ok.inj hb ▸ h

end Bounded

end Entangled
