import Entangled.Common.Loop
import Entangled.Tangle.Spent
import Entangled.TipSelection.Transition
/-!
# The random walk

`walker.c`: from the entry point on, draw an approver, look up the tail of its bundle and ask the
validator; step to the tail if it is valid, else draw again; stop when no approver is left.

The approver that was drawn and its tail share one buffer. The lookup overwrites the one with the
other, so it is the tail that a rejection takes out of the approver set. And from the first step on
the current tail is kept in that buffer too.

What a walk is run on, the store, the validator and the random numbers, is a `WalkWorld`; `node`
is the world of the node.
-/

namespace Entangled

open Prog

variable {Hash σ : Type} [DecidableEq Hash]

/-- What a walk draws from and asks. -/
structure WalkWorld (Hash σ : Type) where
  probability : σ → Probability × σ
  findTail : Hash → EStateM TipRetcode σ (Option Hash)
  isValid : Hash → EStateM TipRetcode σ Bool

/-- What a walk works on. -/
structure WalkState (Hash σ : Type) where
  world : σ
  cw : CwCalcResult Hash

/-- Functions of the walk. -/
abbrev RandomWalkM (Hash σ : Type) := EStateM TipRetcode (WalkState Hash σ)

/-- `curr_tail_hash` and `approver_tail_hash`: the one points to the entry point until the walk has
moved, and to the other from then on. -/
structure WalkPosition (Hash : Type) where
  moved : Bool
  approverTailHash : Option Hash

/-- What `curr_tail_hash` points to. -/
def WalkPosition.currTailHash (w : WalkPosition Hash) (ep : Hash) : Option Hash :=
  if w.moved then w.approverTailHash else some ep

namespace WalkWorld

variable (E : Exponential) (alpha : ℚ) (W : WalkWorld Hash σ)

/-- Run a function on the world. -/
def onWorld {α : Type} (x : EStateM TipRetcode σ α) : RandomWalkM Hash σ α :=
  zoom WalkState.world (fun w s => { s with world := w }) x

/-- `select_approver`, which leaves the buffer alone if nothing is drawn. -/
def selectApprover (curr : Hash) (approver : Option Hash) : RandomWalkM Hash σ (Option Hash) :=
  fun s =>
    match mapTransitionProbabilities E alpha s.cw (s.cw.approversOf curr) with
    | .error e => .error e s
    | .ok probs =>
      let r := W.probability s.world
      .ok (draw (r.1 * probs.sum) ((s.cw.approversOf curr).zip probs) <|> approver)
        { s with world := r.2 }

/-- `find_tail_if_valid`: what the buffer holds then, and `has_valid_tail`. -/
def findTailIfValid (txHash : Hash) : RandomWalkM Hash σ (Hash × Bool) := do
  match ← onWorld (W.findTail txHash) with
  | none => pure (txHash, false)
  | some tail => do
    let hasValidTail ← onWorld (W.isValid tail)
    pure (tail, hasValidTail)

/-- One turn of the loop of `random_walker_select_approver_tail`, with what the buffer holds. -/
def selectTurn (curr : Hash) (approver : Option Hash) :
    RandomWalkM Hash σ (Loop.Turn (Option Hash) (Option Hash × Bool)) := do
  let s ← gets id
  if s.cw.approversOf curr = [] then pure (.done (approver, false))
  else do
    match ← selectApprover E alpha W curr approver with
    | none => fail (.of .undefinedRead)
    | some drawn => do
      let r ← findTailIfValid W drawn
      if r.2 then pure (.done (some r.1, true))
      else do
        update fun s => { s with cw := s.cw.removeApprover curr r.1 }
        pure (.again (some r.1))

/-- `random_walker_select_approver_tail`: the buffer and `has_approver_tail`. -/
def randomWalkerSelectApproverTail (rounds : ℕ) (curr : Hash) (approver : Option Hash) :
    RandomWalkM Hash σ (Option Hash × Bool) := do
  let s ← gets id
  if curr ∈ s.cw.txToApprovers.keys then
    Loop.run (selectTurn E alpha W curr) (.of .outOfRounds) rounds approver
  else pure (approver, false)

/-- Copy what `curr_tail_hash` points to. -/
def readTail (ep : Hash) (w : WalkPosition Hash) : RandomWalkM Hash σ Hash :=
  match w.currTailHash ep with
  | none => fail (.of .undefinedRead)
  | some h => pure h

/-- One turn of the loop of `iota_consensus_random_walker_randomize`. -/
def walkTurn (rounds : ℕ) (ep : Hash) (w : WalkPosition Hash) :
    RandomWalkM Hash σ (Loop.Turn (WalkPosition Hash) Hash) := do
  let curr ← readTail ep w
  let r ← randomWalkerSelectApproverTail E alpha W rounds curr w.approverTailHash
  if r.2 then pure (.again ⟨true, r.1⟩)
  else do
    let tip ← readTail ep { w with approverTailHash := r.1 }
    pure (.done tip)

/-- `iota_consensus_random_walker_randomize`. -/
def randomWalkerRandomize (rounds : ℕ) (ep : Hash) : RandomWalkM Hash σ Hash := do
  let epIsValid ← onWorld (W.isValid ep)
  if epIsValid then
    Loop.run (walkTurn E alpha W rounds ep) (.of .outOfRounds) rounds ⟨false, none⟩
  else fail .exitProbabilitiesInvalidEntrypoint

end WalkWorld

/-! ## The world of a node -/

section

variable [HashBytes Hash] {ρ : Type}

/-- Hand the code of what is called on. -/
def passOn {τ α : Type} (x : EStateM Retcode τ α) : EStateM TipRetcode τ α := fun t =>
  match x t with
  | .ok a t' => .ok a t'
  | .error e t' => .error (.of e) t'

/-- The store, the validator and a source of random numbers. -/
def node (conf : TipConf Hash) (sponge : Sponge Hash) (initial latest : Snapshot Hash)
    (latestSolidMilestoneIndex : ℕ) (probability : ρ → Probability × ρ) :
    WalkWorld Hash (ExitProbValidator Hash × ρ) where
  probability s := ((probability s.2).1, s.1, (probability s.2).2)
  findTail h := zoom Prod.fst (fun epv s => (epv, s.2))
    (passOn (ExitProbValidator.onTangle (Tangle.findTail h)))
  isValid h := zoom Prod.fst (fun epv s => (epv, s.2))
    (passOn (ExitProbValidator.isValid conf sponge initial latest latestSolidMilestoneIndex h))

end

end Entangled
