import Entangled.Common.Search
import Mathlib.Logic.Relation
/-!
# Processes

A program that other threads can interrupt between any two of its atomic steps.
A process is the tree of what it may still do: its next step changes the shared
state, and how it goes on depends on the state it met. Local variables live in
the continuation.

`run` takes a process to the program that nobody interrupts. `Safe` is the
rely-guarantee judgement for threads that promise each other one and the same
relation: whatever the others do between the steps stays in it, and each step of
the process does as well. A system of safe threads never leaves the relation.
-/

namespace Entangled

open Prog Search

/-- What a thread may still do: it has returned, it has failed, or it takes one
step on the shared state and goes on. -/
inductive Process (ε σ α : Type) where
  | done (a : α)
  | failed (e : ε)
  | step (act : σ → σ) (next : σ → Process ε σ α)

namespace Process

variable {ε σ α β κ L : Type}

/-- Sequencing: the second process starts where the first returned. -/
def andThen : Process ε σ α → (α → Process ε σ β) → Process ε σ β
  | done a, f => f a
  | failed e, _ => failed e
  | step act next, f => step act fun s => (next s).andThen f

instance : Monad (Process ε σ) where
  pure := done
  bind := andThen

/-- Run a program in one step. -/
def atomic (x : EStateM ε σ α) : Process ε σ α :=
  step (final x) fun s =>
    match x s with
    | .ok a _ => done a
    | .error e _ => failed e

/-- Run a process and hand its outcome, error included, to the caller. -/
def attempted : Process ε σ α → Process ε σ (Except ε α)
  | done a => done (.ok a)
  | failed e => done (.error e)
  | step act next => step act fun s => (next s).attempted

/-- The search loop as a process: a visit is one step, and between two of them the
shared state may change. What the visits work on besides is local. -/
def searching [DecidableEq κ] (visit : κ → List κ → L → EStateM ε σ (Visit κ × L)) (out : ε) :
    ℕ → List κ → List κ → L → Process ε σ (List κ × L)
  | _, [], seen, l => done (seen, l)
  | 0, _ :: _, _, _ => failed out
  | n + 1, h :: stack, seen, l =>
    if h ∈ seen then searching visit out n stack seen l
    else atomic (visit h seen l) >>= fun r =>
      if r.1.stop then done (r.1.seen, r.2)
      else searching visit out n (r.1.next ++ stack) r.1.seen r.2

/-! ## Without interruption -/

/-- The program a process is when nobody interrupts it. -/
def run : Process ε σ α → EStateM ε σ α
  | done a => pure a
  | failed e => fail e
  | step act next => fun s => (next s).run (act s)

theorem run_bind (p : Process ε σ α) (f : α → Process ε σ β) :
    (p >>= f).run = p.run >>= fun a => (f a).run := by
  induction p with
  | done a => rfl
  | failed e => rfl
  | step act next ih =>
    funext s
    exact congrFun (ih s) (act s)

theorem run_atomic (x : EStateM ε σ α) : (atomic x).run = x := by
  funext s
  show (match x s with | .ok a _ => done a | .error e _ => failed e).run (final x s) = x s
  unfold final
  cases x s <;> rfl

/-! ## What every step keeps -/

/-- Each step the process can take stays in `R`, from whatever state. -/
def Stays (R : σ → σ → Prop) : Process ε σ α → Prop
  | done _ => True
  | failed _ => True
  | step act next => (∀ s, R s (act s)) ∧ ∀ s, Stays R (next s)

theorem Stays.bind {R : σ → σ → Prop} {p : Process ε σ α} {f : α → Process ε σ β}
    (hp : Stays R p) (hf : ∀ a, Stays R (f a)) : Stays R (p >>= f) := by
  induction p with
  | done a => exact hf a
  | failed e => trivial
  | step act next ih => exact ⟨hp.1, fun s => ih s (hp.2 s)⟩

theorem Stays.atomic {R : σ → σ → Prop} {x : EStateM ε σ α} (hx : Keeps R x) :
    Stays R (atomic x) := by
  refine ⟨hx, fun s => ?_⟩
  dsimp only
  cases x s <;> trivial

theorem Stays.attempted {R : σ → σ → Prop} {p : Process ε σ α} (hp : Stays R p) :
    Stays R p.attempted := by
  induction p with
  | done a => trivial
  | failed e => trivial
  | step act next ih => exact ⟨hp.1, fun s => ih s (hp.2 s)⟩

theorem Stays.searching [DecidableEq κ] {R : σ → σ → Prop}
    {visit : κ → List κ → L → EStateM ε σ (Visit κ × L)} {out : ε}
    (hv : ∀ h seen l, Keeps R (visit h seen l)) (n : ℕ) (stack seen : List κ) (l : L) :
    Stays R (searching visit out n stack seen l) := by
  induction n generalizing stack seen l with
  | zero => cases stack <;> trivial
  | succ n ih =>
    cases stack with
    | nil => trivial
    | cons h stack =>
      rw [Process.searching]
      split
      · exact ih stack seen l
      · refine Stays.bind (Stays.atomic (hv h seen l)) fun r => ?_
        split
        · trivial
        · exact ih _ _ _

/-- A process that nobody interrupts keeps what its steps keep. -/
theorem Stays.keeps_run {R : σ → σ → Prop} (hrefl : ∀ s, R s s)
    (htrans : ∀ {s t u}, R s t → R t u → R s u) {p : Process ε σ α} (hp : Stays R p) :
    Keeps R p.run := by
  induction p with
  | done a => exact Keeps.pure hrefl a
  | failed e => exact Keeps.fail hrefl e
  | step act next ih => exact fun s => htrans (hp.1 s) (ih s (hp.2 s) (act s))

/-! ## Safety under interference -/

variable {R : σ → σ → Prop} {Q : α → σ → Prop} {p : Process ε σ α} {s s' : σ}

/-- **Safe from a state**: if what the others do between its steps stays in `R`,
then each of its steps does, and where it returns `Q` holds. -/
def Safe (R : σ → σ → Prop) (Q : α → σ → Prop) : Process ε σ α → σ → Prop
  | done a, s => Q a s
  | failed _, _ => True
  | step act next, s => ∀ s', R s s' → R s' (act s') ∧ Safe R Q (next s') (act s')

theorem Safe.bind {Q' : β → σ → Prop} {f : α → Process ε σ β} (hp : Safe R Q p s)
    (hf : ∀ a s', Q a s' → Safe R Q' (f a) s') : Safe R Q' (p >>= f) s := by
  induction p generalizing s with
  | done a => exact hf a s hp
  | failed e => trivial
  | step act next ih =>
    intro s' hs
    obtain ⟨hact, hnext⟩ := hp s' hs
    exact ⟨hact, ih s' hnext⟩

theorem Safe.mono {Q' : α → σ → Prop} (hp : Safe R Q p s)
    (h : ∀ a s', Q a s' → Q' a s') : Safe R Q' p s := by
  induction p generalizing s with
  | done a => exact h a s hp
  | failed e => trivial
  | step act next ih =>
    intro s' hs
    obtain ⟨hact, hnext⟩ := hp s' hs
    exact ⟨hact, ih s' hnext⟩

/-- What the relation keeps is there at the end. -/
theorem Safe.frame {K : σ → Prop} (hK : ∀ {s t}, K s → R s t → K t) (hp : Safe R Q p s)
    (hs : K s) : Safe R (fun a s => Q a s ∧ K s) p s := by
  induction p generalizing s with
  | done a => exact ⟨hp, hs⟩
  | failed e => trivial
  | step act next ih =>
    intro s' hs'
    obtain ⟨hact, hnext⟩ := hp s' hs'
    exact ⟨hact, ih s' hnext (hK (hK hs hs') hact)⟩

/-- Safety survives what the others do. -/
theorem Safe.interfered (htrans : ∀ {s t u}, R s t → R t u → R s u)
    (hstable : ∀ a {s t}, Q a s → R s t → Q a t) (hp : Safe R Q p s) (hs : R s s') :
    Safe R Q p s' := by
  cases p with
  | done a => exact hstable a hp hs
  | failed e => trivial
  | step act next => exact fun t ht => hp t (htrans hs ht)

/-- One step, from wherever the others have left the state. -/
theorem Safe.atomic {x : EStateM ε σ α}
    (h : ∀ s', R s s' → R s' (final x s') ∧ ∀ a t, x s' = .ok a t → Q a t) :
    Safe R Q (atomic x) s := by
  intro s' hs
  obtain ⟨hact, hQ⟩ := h s' hs
  refine ⟨hact, ?_⟩
  dsimp only
  cases hx : x s' with
  | error e t => trivial
  | ok a t =>
    rw [final_of_ok hx]
    exact hQ a t hx

theorem Safe.attempted (hp : Safe R Q p s) :
    Safe R (fun r s => ∀ a, r = .ok a → Q a s) p.attempted s := by
  induction p generalizing s with
  | done a =>
    intro b hb
    cases hb
    exact hp
  | failed e => exact fun b hb => by cases hb
  | step act next ih =>
    intro s' hs
    obtain ⟨hact, hnext⟩ := hp s' hs
    exact ⟨hact, ih s' hnext⟩

/-- **The loop rule.** An invariant of stack, visited nodes, local variables and
state that interference, skipping and visiting keep is in force when the loop
ends. -/
theorem Safe.searching [DecidableEq κ] {visit : κ → List κ → L → EStateM ε σ (Visit κ × L)}
    {out : ε} {I : List κ → List κ → L → σ → Prop} {Q : List κ × L → σ → Prop}
    (hstable : ∀ {stack seen l s t}, I stack seen l s → R s t → I stack seen l t)
    (hskip : ∀ {h stack seen l s}, I (h :: stack) seen l s → h ∈ seen → I stack seen l s)
    (hact : ∀ {h stack seen l s}, I (h :: stack) seen l s → h ∉ seen →
      R s (final (visit h seen l) s))
    (hvisit : ∀ {h stack seen l s v l' t}, I (h :: stack) seen l s → h ∉ seen →
      visit h seen l s = .ok (v, l') t →
      if v.stop then Q (v.seen, l') t else I (v.next ++ stack) v.seen l' t)
    (hend : ∀ {seen l s}, I [] seen l s → Q (seen, l) s) :
    ∀ (n : ℕ) {stack seen : List κ} {l : L} {s : σ}, I stack seen l s →
      Safe R Q (searching visit out n stack seen l) s := by
  intro n
  induction n with
  | zero =>
    intro stack seen l s hI
    cases stack with
    | nil => exact hend hI
    | cons h stack => trivial
  | succ n ih =>
    intro stack seen l s hI
    cases stack with
    | nil => exact hend hI
    | cons h stack =>
      rw [Process.searching]
      by_cases hh : h ∈ seen
      · rw [if_pos hh]
        exact ih (hskip hI hh)
      · rw [if_neg hh]
        refine Safe.bind (Q := fun r t =>
          if r.1.stop then Q (r.1.seen, r.2) t else I (r.1.next ++ stack) r.1.seen r.2 t)
          (Safe.atomic fun s' hs => ?_) fun r t hr => ?_
        · exact ⟨hact (hstable hI hs) hh, fun r t hx => hvisit (hstable hI hs) hh hx⟩
        · cases hstop : r.1.stop with
          | true =>
            rw [hstop] at hr
            exact hr
          | false =>
            rw [hstop] at hr
            exact ih hr

end Process

/-! ## Threads -/

/-- Threads on one shared state. -/
structure Threads (ε σ α : Type) where
  state : σ
  running : List (Process ε σ α)

namespace Threads

variable {ε σ α : Type}

/-- One step of the system: the environment acts, a call starts a thread, a thread
takes a step, or it is gone. -/
inductive Step (env : σ → σ → Prop) (calls : Process ε σ α → Prop) :
    Threads ε σ α → Threads ε σ α → Prop
  | environment {s s' : σ} {ps : List (Process ε σ α)} : env s s' →
      Step env calls ⟨s, ps⟩ ⟨s', ps⟩
  | call {s : σ} {p : Process ε σ α} {ps : List (Process ε σ α)} : calls p →
      Step env calls ⟨s, ps⟩ ⟨s, p :: ps⟩
  | act {s : σ} {act : σ → σ} {next : σ → Process ε σ α} (ps qs : List (Process ε σ α)) :
      Step env calls ⟨s, ps ++ .step act next :: qs⟩ ⟨act s, ps ++ next s :: qs⟩
  | gone {s : σ} {p : Process ε σ α} {ps qs : List (Process ε σ α)} :
      Step env calls ⟨s, ps ++ p :: qs⟩ ⟨s, ps ++ qs⟩

/-- The states of the system, over every interleaving, from the states in `init`. -/
inductive Reachable (init : σ → Prop) (env : σ → σ → Prop) (calls : Process ε σ α → Prop) :
    Threads ε σ α → Prop
  | start {s : σ} : init s → Reachable init env calls ⟨s, []⟩
  | step {S S' : Threads ε σ α} : Reachable init env calls S → Step env calls S S' →
      Reachable init env calls S'

variable {init : σ → Prop} {env : σ → σ → Prop} {calls : Process ε σ α → Prop}
  {R : σ → σ → Prop} {S S' : Threads ε σ α}

/-- Every thread is safe where the system is, and the state has an invariant. -/
structure AllSafe (R : σ → σ → Prop) (inv : σ → Prop) (S : Threads ε σ α) : Prop where
  inv : inv S.state
  threads : ∀ p ∈ S.running, Process.Safe R (fun _ _ => True) p S.state

theorem AllSafe.moved {inv : σ → Prop} {s s' : σ} {ps : List (Process ε σ α)}
    (htrans : ∀ {s t u}, R s t → R t u → R s u) (hinv : ∀ {s t}, inv s → R s t → inv t)
    (h : AllSafe R inv ⟨s, ps⟩) (hs : R s s') : AllSafe R inv ⟨s', ps⟩ :=
  ⟨hinv h.inv hs, fun p hp => (h.threads p hp).interfered htrans (fun _ _ _ _ _ => trivial) hs⟩

/-- One step of the system keeps every thread safe. -/
theorem AllSafe.step {inv : σ → Prop} (hrefl : ∀ s, R s s)
    (htrans : ∀ {s t u}, R s t → R t u → R s u) (hinv : ∀ {s t}, inv s → R s t → inv t)
    (henv : ∀ {s t}, env s t → R s t)
    (hcalls : ∀ {p s}, calls p → inv s → Process.Safe R (fun _ _ => True) p s)
    (h : AllSafe R inv S) (hstep : Step env calls S S') : AllSafe R inv S' := by
  cases hstep with
  | environment he => exact h.moved htrans hinv (henv he)
  | call hp =>
    refine ⟨h.inv, fun q hq => ?_⟩
    rcases List.mem_cons.mp hq with rfl | hq
    · exact hcalls hp h.inv
    · exact h.threads q hq
  | @act s act next ps qs =>
    obtain ⟨hact, hnext⟩ := h.threads (.step act next) (by simp) s (hrefl s)
    refine ⟨hinv h.inv hact, fun q hq => ?_⟩
    have hothers : ∀ q ∈ ps ++ qs, Process.Safe R (fun _ _ => True) q (act s) := by
      intro q hq
      have hall : q ∈ ps ++ .step act next :: qs :=
        ((List.sublist_cons_self (.step act next) qs).append_left ps).mem hq
      exact (h.threads q hall).interfered htrans (fun _ _ _ _ _ => trivial) hact
    rcases List.mem_append.mp hq with hq | hq
    · exact hothers q (List.mem_append_left _ hq)
    · rcases List.mem_cons.mp hq with rfl | hq
      · exact hnext
      · exact hothers q (List.mem_append_right _ hq)
  | @gone _ p ps qs =>
    refine ⟨h.inv, fun q hq => h.threads q ?_⟩
    exact ((List.sublist_cons_self p qs).append_left ps).mem hq

/-- **Safe threads stay safe**, over every interleaving, and keep what their relation
keeps. -/
theorem Reachable.allSafe {inv : σ → Prop} (hrefl : ∀ s, R s s)
    (htrans : ∀ {s t u}, R s t → R t u → R s u) (hinv : ∀ {s t}, inv s → R s t → inv t)
    (hinit : ∀ {s}, init s → inv s) (henv : ∀ {s t}, env s t → R s t)
    (hcalls : ∀ {p s}, calls p → inv s → Process.Safe R (fun _ _ => True) p s)
    (h : Reachable init env calls S) : AllSafe R inv S := by
  induction h with
  | start hs => exact ⟨hinit hs, fun p hp => by cases hp⟩
  | step _ hstep ih => exact ih.step hrefl htrans hinv henv hcalls hstep

/-- A thread that nobody interrupts does what its program does. -/
theorem Reachable.runs {p : Process ε σ α} {s s' : σ} {a : α} {ps : List (Process ε σ α)}
    (h : Reachable init env calls ⟨s, p :: ps⟩) (hr : p.run s = .ok a s') :
    Reachable init env calls ⟨s', .done a :: ps⟩ := by
  induction p generalizing s with
  | done b =>
    cases hr
    exact h
  | failed e => cases hr
  | step act next ih => exact ih s (h.step (.act [] ps)) hr

/-- A call that returns when nobody interrupts it can be made and left to run. -/
theorem Reachable.called {p : Process ε σ α} {s : σ} {ps : List (Process ε σ α)}
    (h : Reachable init env calls ⟨s, ps⟩) (hp : calls p)
    (hr : returns p.run s (fun _ _ => true) = true) :
    ∃ a, Reachable init env calls ⟨final p.run s, .done a :: ps⟩ := by
  obtain ⟨a, s', hrun, -⟩ := of_returns hr
  refine ⟨a, ?_⟩
  rw [final_of_ok hrun]
  exact (h.step (.call hp)).runs hrun

end Threads

end Entangled
