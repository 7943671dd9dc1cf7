import Mathlib.Data.List.Basic
/-!
# Replaying what was written

A writer and a reader of one format share a running state: a checksum, a cipher, a sponge. The
writer appends to a tape, the reader takes from its front, and the reader follows the writer when
from the same state it reads back what was written, gets to the same state and leaves what comes
behind. That is kept by doing one thing after the other, and by doing something aside, on a copy of
the state.
-/

namespace Entangled

/-- A running state and a tape. -/
structure Tape (σ α : Type) where
  state : σ
  cells : List α

/-- A reader changes the state and takes from the tape, whether it fails or not. -/
def TapeReader (ε σ α β : Type) : Type := Tape σ α → Except ε β × Tape σ α

namespace TapeReader

variable {ε σ α β γ : Type}

instance : Monad (TapeReader ε σ α) where
  pure b t := (.ok b, t)
  bind u f t :=
    match u t with
    | (.ok b, t') => f b t'
    | (.error e, t') => (.error e, t')

/-- A failure. -/
def fail (e : ε) : TapeReader ε σ α β := fun t => (.error e, t)

/-- A failure unless a condition holds. -/
def guard (p : Prop) [Decidable p] (e : ε) : TapeReader ε σ α Unit := if p then pure () else fail e

/-- A step of the state that reads nothing. -/
def modify (g : σ → σ) : TapeReader ε σ α Unit := fun t => (.ok (), ⟨g t.state, t.cells⟩)

/-- A step of the state that gives something out. -/
def modifyGet (g : σ → β × σ) : TapeReader ε σ α β := fun t =>
  (.ok (g t.state).1, ⟨(g t.state).2, t.cells⟩)

/-- A reader on a copy of the state. -/
def fork (u : TapeReader ε σ α β) : TapeReader ε σ α β := fun t =>
  let (b, t') := u t
  (b, ⟨t.state, t'.cells⟩)

theorem bind_ok {u : TapeReader ε σ α β} {f : β → TapeReader ε σ α γ} {t t' : Tape σ α} {b : β}
    (hu : u t = (.ok b, t')) : (u >>= f) t = f b t' := by
  show (match u t with
    | (.ok b, t') => f b t'
    | (.error e, t') => (.error e, t')) = _
  rw [hu]

theorem bind_error {u : TapeReader ε σ α β} {f : β → TapeReader ε σ α γ} {t t' : Tape σ α} {e : ε}
    (hu : u t = (.error e, t')) : (u >>= f) t = (.error e, t') := by
  show (match u t with
    | (.ok b, t') => f b t'
    | (.error e, t') => (.error e, t')) = _
  rw [hu]

/-- What is read one after the other was read so. -/
theorem bind_eq_ok {u : TapeReader ε σ α β} {f : β → TapeReader ε σ α γ} {t t' : Tape σ α} {c : γ}
    (h : (u >>= f) t = (.ok c, t')) : ∃ b t₁, u t = (.ok b, t₁) ∧ f b t₁ = (.ok c, t') := by
  rcases hu : u t with ⟨e | b, t₁⟩
  · rw [bind_error hu] at h
    cases h
  · rw [bind_ok hu] at h
    exact ⟨b, t₁, rfl, h⟩

/-- A guard that lets through. -/
theorem guard_eq_ok {p : Prop} [Decidable p] {e : ε} {t t' : Tape σ α} {b : Unit}
    (h : guard p e t = (.ok b, t')) : p ∧ t' = t := by
  unfold guard at h
  split_ifs at h with hp
  · cases h
    exact ⟨hp, rfl⟩
  · cases h

theorem guard_pos {p : Prop} [Decidable p] {e : ε} (hp : p) :
    guard (σ := σ) (α := α) p e = pure () := if_pos hp

end TapeReader

/-- A step of the state that writes nothing. -/
def Tape.modify {σ α : Type} (g : σ → σ) (t : Tape σ α) : Tape σ α := ⟨g t.state, t.cells⟩

/-- A writer that goes on with what a step of the state gives out. -/
def Tape.modifyGet {σ α β : Type} (g : σ → β × σ) (w : β → Tape σ α → Tape σ α) (t : Tape σ α) :
    Tape σ α :=
  w (g t.state).1 ⟨(g t.state).2, t.cells⟩

/-- Something written past the state. -/
def Tape.append {σ α : Type} (out : List α) (t : Tape σ α) : Tape σ α := ⟨t.state, t.cells ++ out⟩

/-- A writer on a copy of the state. -/
def Tape.fork {σ α : Type} (w : Tape σ α → Tape σ α) (t : Tape σ α) : Tape σ α :=
  ⟨t.state, (w t).cells⟩

/-- **The reader follows the writer**, and returns `b`. -/
def Replays {ε σ α β : Type} (w : Tape σ α → Tape σ α) (u : TapeReader ε σ α β) (b : β) : Prop :=
  ∀ s written, ∃ s' out, w ⟨s, written⟩ = ⟨s', written ++ out⟩ ∧
    ∀ rest, u ⟨s, out ++ rest⟩ = (.ok b, ⟨s', rest⟩)

namespace Replays

variable {ε σ α β γ : Type} {w v : Tape σ α → Tape σ α} {u : TapeReader ε σ α β}
variable {f : β → TapeReader ε σ α γ} {b : β} {c : γ}

/-- Nothing written, nothing read. -/
theorem pure (b : β) : Replays id (Pure.pure b : TapeReader ε σ α β) b := by
  intro s written
  exact ⟨s, [], by rw [List.append_nil]; rfl, fun rest => rfl⟩

/-- **One after the other.** -/
theorem bind (H : Replays w u b) (H' : Replays v (f b) c) :
    Replays (fun t => v (w t)) (u >>= f) c := by
  intro s written
  obtain ⟨s₁, out₁, hw₁, hu₁⟩ := H s written
  obtain ⟨s₂, out₂, hw₂, hu₂⟩ := H' s₁ (written ++ out₁)
  refine ⟨s₂, out₁ ++ out₂, ?_, fun rest => ?_⟩
  · show v (w _) = _
    rw [hw₁, hw₂, List.append_assoc]
  · rw [List.append_assoc, TapeReader.bind_ok (hu₁ _)]
    exact hu₂ rest

theorem modify (g : σ → σ) :
    Replays (Tape.modify g) (TapeReader.modify g : TapeReader ε σ α Unit) () := by
  intro s written
  exact ⟨g s, [], by rw [List.append_nil]; rfl, fun rest => rfl⟩

/-- Both sides go on with what the same step gives out. -/
theorem modifyGet {β : Type} (g : σ → β × σ) {w : β → Tape σ α → Tape σ α}
    {f : β → TapeReader ε σ α γ} {c : γ} (H : ∀ b, Replays (w b) (f b) c) :
    Replays (Tape.modifyGet g w) (TapeReader.modifyGet g >>= f) c := by
  intro s written
  obtain ⟨s', out, hw, hu⟩ := H (g s).1 (g s).2 written
  exact ⟨s', out, hw, fun rest => (TapeReader.bind_ok rfl).trans (hu rest)⟩

/-- A check that holds. -/
theorem guard {p : Prop} [Decidable p] {e : ε} (hp : p) :
    Replays id (TapeReader.guard p e : TapeReader ε σ α Unit) () := by
  rw [TapeReader.guard_pos hp]
  exact pure ()

end Replays

/-- **The reader gets past** what was written, and returns `b`; the states may part. -/
def GetsPast {ε σ α β : Type} (w : Tape σ α → Tape σ α) (u : TapeReader ε σ α β) (b : β) : Prop :=
  ∀ s written, ∃ out, (w ⟨s, written⟩).cells = written ++ out ∧
    ∀ rest, ∃ s', u ⟨s, out ++ rest⟩ = (.ok b, ⟨s', rest⟩)

section GetsPast

variable {ε σ α β γ : Type} {w v : Tape σ α → Tape σ α} {u : TapeReader ε σ α β}
variable {f : β → TapeReader ε σ α γ} {b : β} {c : γ}

theorem Replays.getsPast (H : Replays w u b) : GetsPast w u b := by
  intro s written
  obtain ⟨s', out, hw, hu⟩ := H s written
  exact ⟨out, by rw [hw], fun rest => ⟨s', hu rest⟩⟩

theorem Replays.bind_getsPast (H : Replays w u b) (H' : GetsPast v (f b) c) :
    GetsPast (fun t => v (w t)) (u >>= f) c := by
  intro s written
  obtain ⟨s₁, out₁, hw₁, hu₁⟩ := H s written
  obtain ⟨out₂, hw₂, hu₂⟩ := H' s₁ (written ++ out₁)
  refine ⟨out₁ ++ out₂, ?_, fun rest => ?_⟩
  · show (v (w _)).cells = _
    rw [hw₁, hw₂, List.append_assoc]
  · obtain ⟨s', hs'⟩ := hu₂ rest
    exact ⟨s', by rw [List.append_assoc, TapeReader.bind_ok (hu₁ _), hs']⟩

/-- **Aside, on a copy of the state**, it is enough to get past. -/
theorem GetsPast.fork (H : GetsPast w u b) : Replays (Tape.fork w) (TapeReader.fork u) b := by
  intro s written
  obtain ⟨out, hw, hu⟩ := H s written
  refine ⟨s, out, ?_, fun rest => ?_⟩
  · rw [Tape.fork, hw]
  · obtain ⟨s', hs'⟩ := hu rest
    simp only [TapeReader.fork, hs']

end GetsPast

/-- **The writer writes `n` cells**, whatever the state. -/
def Writes {σ α : Type} (w : Tape σ α → Tape σ α) (n : ℕ) : Prop :=
  ∀ t, (w t).cells.length = t.cells.length + n

namespace Writes

variable {σ α β : Type} {w v : Tape σ α → Tape σ α} {m n : ℕ}

theorem comp (H : Writes w m) (H' : Writes v n) : Writes (fun t => v (w t)) (m + n) := by
  intro t
  rw [H' (w t), H t, Nat.add_assoc]

theorem modify (g : σ → σ) : Writes (Tape.modify g : Tape σ α → Tape σ α) 0 := fun _ => rfl

theorem modifyGet (g : σ → β × σ) {w : β → Tape σ α → Tape σ α} (H : ∀ b, Writes (w b) n) :
    Writes (Tape.modifyGet g w) n := fun t => H (g t.state).1 ⟨(g t.state).2, t.cells⟩

theorem append {out : List α} (hn : out.length = n) :
    Writes (Tape.append out : Tape σ α → Tape σ α) n := by
  intro t
  rw [← hn]
  exact List.length_append

theorem fork (H : Writes w n) : Writes (Tape.fork w) n := H

/-- A writer for each element of a list. -/
theorem foldl {l : List β} {w : β → Tape σ α → Tape σ α} (H : ∀ b ∈ l, Writes (w b) n) :
    Writes (fun t => l.foldl (fun t b => w b t) t) (n * l.length) := by
  induction l with
  | nil => exact fun _ => rfl
  | cons b l ih =>
    intro t
    have hrest := ih (fun b hb => H b (List.mem_cons_of_mem _ hb)) (w b t)
    have hfirst := H b List.mem_cons_self t
    dsimp only at hrest ⊢
    rw [List.foldl_cons, List.length_cons, Nat.mul_succ, hrest, hfirst]
    omega

end Writes

end Entangled
