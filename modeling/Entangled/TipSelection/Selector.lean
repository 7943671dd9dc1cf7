import Entangled.TipSelection.LastTail
import Entangled.TipSelection.Weights
/-!
# The tip selector

`tip_selector.c`: entry point, cumulative weights, a walk for the trunk, a walk for the branch from
the reference or the entry point, and a check that the two are consistent. Every step that fails
jumps to the clean-up, and so does a reference that was not rated. The clean-up ends with the
validator's `destroy`, whose code is stored in `ret`: it is always `RC_OK`.

`Approved` is what an answer stands for, and `getTransactionsToApprove_approved_iff` says when it
does. The steps are parameters; `nodeSelector` has those of a node.
-/

namespace Entangled

open Prog

variable {Hash σ : Type} [DecidableEq Hash]

/-- `tips_pair_t`, `none` where the caller's buffer was not written. -/
structure TipsPair (Hash : Type) where
  trunk : Option Hash
  branch : Option Hash
  deriving DecidableEq, Repr

/-- What the tip selector works on: the store and the validator, and the answer. -/
structure SelectorState (Hash σ : Type) where
  world : σ
  tips : TipsPair Hash

/-- The steps of `tip_selector_t`. Setting up the walk validator and freeing it cannot fail. -/
structure TipSelector (Hash σ : Type) where
  validatorInit : σ → σ
  validatorDestroy : σ → σ
  getEntryPoint : ℕ → EStateM TipRetcode σ Hash
  cwRatingCalculate : Hash → EStateM TipRetcode σ (CwCalcResult Hash)
  randomize : CwCalcResult Hash → Hash → EStateM TipRetcode σ (Hash × CwCalcResult Hash)
  stackPush : Hash → EStateM TipRetcode σ Unit
  checkConsistency : List Hash → EStateM TipRetcode σ Bool

/-- Functions of the tip selector. -/
abbrev SelectorM (Hash σ : Type) := EStateM TipRetcode (SelectorState Hash σ)

namespace TipSelector

variable (S : TipSelector Hash σ)

/-- Run a step. -/
def step {α : Type} (x : EStateM TipRetcode σ α) : SelectorM Hash σ α :=
  zoom SelectorState.world (fun w s => { s with world := w }) x

/-- Where the branch is walked for from: a reference has to be rated. -/
def branchStart (cw : CwCalcResult Hash) (ep : Hash) : Option Hash → SelectorM Hash σ Hash
  | none => pure ep
  | some reference =>
    if cw.rating reference = none then fail .tipSelectorReferenceTooOld else pure reference

/-- The steps before the clean-up. -/
def selectTips (depth : ℕ) (reference : Option Hash) : SelectorM Hash σ Unit := do
  update fun s => { s with world := S.validatorInit s.world }
  let ep ← step (S.getEntryPoint depth)
  let cw ← step (S.cwRatingCalculate ep)
  let trunk ← step (S.randomize cw ep)
  update fun s => { s with tips := { s.tips with trunk := some trunk.1 } }
  step (S.stackPush trunk.1)
  let start ← branchStart trunk.2 ep reference
  let branch ← step (S.randomize trunk.2 start)
  update fun s => { s with tips := { s.tips with branch := some branch.1 } }
  step (S.stackPush branch.1)
  -- the branch was pushed last and is on top
  let consistent ← step (S.checkConsistency [branch.1, trunk.1])
  if consistent then pure () else fail .tipSelectorTipsNotConsistent

/-- `iota_consensus_tip_selector_get_transactions_to_approve`. The code of the clean-up takes the
place of whatever the steps returned. -/
def getTransactionsToApprove (depth : ℕ) (reference : Option Hash) : SelectorM Hash σ Unit := do
  let _ret ← outcome (selectTips S depth reference)
  update fun s => { s with world := S.validatorDestroy s.world }
  pure ()

/-! ## What an answer stands for -/

/-- **An approved pair**: every step succeeded, from the world `w`, the reference was rated if there
was one, and the ledger validator reported the trunk and the branch consistent. -/
def Approved (depth : ℕ) (reference : Option Hash) (w : σ) (tips : TipsPair Hash) : Prop :=
  ∃ ep cw cw' cw'' trunk branch w₁ w₂ w₃ w₄ w₅ w₆ w₇,
    S.getEntryPoint depth (S.validatorInit w) = .ok ep w₁ ∧
    S.cwRatingCalculate ep w₁ = .ok cw w₂ ∧
    S.randomize cw ep w₂ = .ok (trunk, cw') w₃ ∧
    S.stackPush trunk w₃ = .ok () w₄ ∧
    (∀ r, reference = some r → cw'.rating r ≠ none) ∧
    S.randomize cw' (reference.getD ep) w₄ = .ok (branch, cw'') w₅ ∧
    S.stackPush branch w₅ = .ok () w₆ ∧
    S.checkConsistency [branch, trunk] w₆ = .ok true w₇ ∧
    tips = ⟨some trunk, some branch⟩

variable {S} {depth : ℕ} {reference : Option Hash} {s s' : SelectorState Hash σ}
  {cw : CwCalcResult Hash} {ep start : Hash}

omit [DecidableEq Hash] in
theorem step_eq_ok {α : Type} {x : EStateM TipRetcode σ α} {a : α} :
    (step x : SelectorM Hash σ α) s = .ok a s' ↔
      ∃ w, x s.world = .ok a w ∧ s' = { s with world := w } := zoom_eq_ok

theorem branchStart_eq_ok :
    (branchStart cw ep reference : SelectorM Hash σ Hash) s = .ok start s' ↔
      (∀ r, reference = some r → cw.rating r ≠ none) ∧ start = reference.getD ep ∧ s' = s := by
  cases reference with
  | none =>
    constructor
    · intro h
      cases h
      exact ⟨fun r hr => absurd hr.symm (Option.some_ne_none r), rfl, rfl⟩
    · rintro ⟨-, rfl, rfl⟩
      rfl
  | some r =>
    rw [branchStart]
    by_cases hr : cw.rating r = none
    · rw [if_pos hr]
      exact iff_of_false (fun h => by cases h) fun h => h.1 r rfl hr
    · rw [if_neg hr]
      constructor
      · intro h
        cases h
        exact ⟨fun r' hr' => Option.some.inj hr' ▸ hr, rfl, rfl⟩
      · rintro ⟨-, rfl, rfl⟩
        rfl

/-- **Nothing jumps to the clean-up** just when the pair that is left is approved. -/
theorem selectTips_ok (h : selectTips S depth reference s = .ok () s') :
    Approved S depth reference s.world s'.tips := by
  unfold selectTips at h
  rw [update_bind] at h
  obtain ⟨ep, s₁, h₁, h⟩ := bind_eq_ok.mp h
  obtain ⟨w₁, hep, rfl⟩ := step_eq_ok.mp h₁
  obtain ⟨cw, s₂, h₂, h⟩ := bind_eq_ok.mp h
  obtain ⟨w₂, hcw, rfl⟩ := step_eq_ok.mp h₂
  obtain ⟨⟨trunk, cw'⟩, s₃, h₃, h⟩ := bind_eq_ok.mp h
  obtain ⟨w₃, htrunk, rfl⟩ := step_eq_ok.mp h₃
  rw [update_bind] at h
  obtain ⟨_, s₄, h₄, h⟩ := bind_eq_ok.mp h
  obtain ⟨w₄, hpush, rfl⟩ := step_eq_ok.mp h₄
  obtain ⟨start, s₅, h₅, h⟩ := bind_eq_ok.mp h
  obtain ⟨hrated, rfl, rfl⟩ := branchStart_eq_ok.mp h₅
  obtain ⟨⟨branch, cw''⟩, s₆, h₆, h⟩ := bind_eq_ok.mp h
  obtain ⟨w₅, hbranch, rfl⟩ := step_eq_ok.mp h₆
  rw [update_bind] at h
  obtain ⟨_, s₇, h₇, h⟩ := bind_eq_ok.mp h
  obtain ⟨w₆, hpush', rfl⟩ := step_eq_ok.mp h₇
  obtain ⟨consistent, s₈, h₈, h⟩ := bind_eq_ok.mp h
  obtain ⟨w₇, hcheck, rfl⟩ := step_eq_ok.mp h₈
  cases consistent with
  | false => cases h
  | true =>
    cases h
    exact ⟨ep, cw, cw', cw'', trunk, branch, w₁, w₂, w₃, w₄, w₅, w₆, w₇, hep, hcw, htrunk, hpush,
      hrated, hbranch, hpush', hcheck, rfl⟩

theorem selectTips_of_approved {tips : TipsPair Hash}
    (h : Approved S depth reference s.world tips) :
    ∃ w, selectTips S depth reference s = .ok () ⟨w, tips⟩ := by
  obtain ⟨ep, cw, cw', cw'', trunk, branch, w₁, w₂, w₃, w₄, w₅, w₆, w₇, hep, hcw, htrunk, hpush,
    hrated, hbranch, hpush', hcheck, rfl⟩ := h
  refine ⟨w₇, ?_⟩
  unfold selectTips
  rw [update_bind]
  refine (bind_apply_ok (step_eq_ok.mpr ⟨w₁, hep, rfl⟩)).trans ?_
  refine (bind_apply_ok (step_eq_ok.mpr ⟨w₂, hcw, rfl⟩)).trans ?_
  refine (bind_apply_ok (step_eq_ok.mpr ⟨w₃, htrunk, rfl⟩)).trans ?_
  rw [update_bind]
  refine (bind_apply_ok (step_eq_ok.mpr ⟨w₄, hpush, rfl⟩)).trans ?_
  refine (bind_apply_ok (branchStart_eq_ok.mpr ⟨hrated, rfl, rfl⟩)).trans ?_
  refine (bind_apply_ok (step_eq_ok.mpr ⟨w₅, hbranch, rfl⟩)).trans ?_
  rw [update_bind]
  refine (bind_apply_ok (step_eq_ok.mpr ⟨w₆, hpush', rfl⟩)).trans ?_
  -- the check is the last step, and what it leaves of the tips is the pair
  have hlast : step (S.checkConsistency [branch, trunk]) ⟨w₆, ⟨some trunk, some branch⟩⟩ =
      .ok true ⟨w₇, ⟨some trunk, some branch⟩⟩ := step_eq_ok.mpr ⟨w₇, hcheck, rfl⟩
  exact bind_apply_ok hlast

/-- **The answer is always `RC_OK`**, over what the steps have left in the tips. -/
theorem getTransactionsToApprove_ok (S : TipSelector Hash σ) (depth : ℕ) (reference : Option Hash)
    (s : SelectorState Hash σ) :
    ∃ s', getTransactionsToApprove S depth reference s = .ok () s' ∧
      s'.tips = (final (selectTips S depth reference) s).tips := by
  cases hr : selectTips S depth reference s with
  | ok a s' =>
    have hout : outcome (selectTips S depth reference) s = .ok (.ok a) s' :=
      outcome_eq_ok.mpr (.inl ⟨a, rfl, hr⟩)
    exact ⟨_, (bind_apply_ok hout).trans rfl, by rw [final_of_ok hr]⟩
  | error e s' =>
    have hout : outcome (selectTips S depth reference) s = .ok (.error e) s' :=
      outcome_eq_ok.mpr (.inr ⟨e, rfl, hr⟩)
    exact ⟨_, (bind_apply_ok hout).trans rfl, by rw [final_of_error hr]⟩

end TipSelector

/-! ## The selector of a node -/

section

variable [HashBytes Hash] {ρ : Type}

/-- `iota_consensus_entry_point_selector_get_entry_point`. -/
def getEntryPoint (latestSolidMilestoneIndex : ℕ) (latestSolidMilestone : Hash) (depth : ℕ) :
    TangleM Hash Hash := do
  let milestoneIndex := latestSolidMilestoneIndex - depth - 1
  match ← Tangle.milestoneLoadByIndex (milestoneIndex + 1) with
  | some milestone => pure milestone.hash
  | none => pure latestSolidMilestone

/-- Run a function on the store of a node. -/
def onNode {α : Type} (x : EStateM TipRetcode (Tangle Hash) α) :
    EStateM TipRetcode (ExitProbValidator Hash × ρ) α :=
  zoom (fun w => w.1.tangle) (fun t w => ({ w.1 with tangle := t }, w.2)) x

/-- A random walk from a transaction, over the result of the cumulative weights. -/
def walkFrom (E : Exponential) (alpha : ℚ) (W : WalkWorld Hash (ExitProbValidator Hash × ρ))
    (rounds : ℕ) (cw : CwCalcResult Hash) (ep : Hash) :
    EStateM TipRetcode (ExitProbValidator Hash × ρ) (Hash × CwCalcResult Hash) := fun w =>
  match W.randomWalkerRandomize E alpha rounds ep ⟨w, cw⟩ with
  | .ok tip s => .ok (tip, s.cw) s.world
  | .error e s => .error e s.world

/-- The steps of a node that selects by random walks. The lists of the validator are new with each
call, and nothing runs out of memory. -/
def nodeSelector (E : Exponential) (wide : ℕ → Option (BitVec 64)) (conf : TipConf Hash)
    (sponge : Sponge Hash) (initial latest : Snapshot Hash) (latestSolidMilestoneIndex : ℕ)
    (latestSolidMilestone : Hash) (probability : ρ → Probability × ρ) (rounds : ℕ) :
    TipSelector Hash (ExitProbValidator Hash × ρ) where
  validatorInit w := (ExitProbValidator.freshValidator w.1.tangle, w.2)
  validatorDestroy w := (ExitProbValidator.freshValidator w.1.tangle, w.2)
  getEntryPoint depth :=
    onNode (passOn (getEntryPoint latestSolidMilestoneIndex latestSolidMilestone depth))
  cwRatingCalculate ep := onNode (Rating.cwRatingCalculateDfs wide rounds (some ep))
  randomize := walkFrom E conf.alpha
    (node conf sponge initial latest latestSolidMilestoneIndex probability) rounds
  stackPush _ := pure ()
  checkConsistency tips :=
    onNode (passOn (Ledger.checkConsistency sponge conf.genesisHash initial latest tips))

end

/-! ## A reference that is too old -/

namespace TipSelector

theorem nodup_twoTails :
    ([plainTx 1 0 0 10 0 0 0, plainTx 2 1 1 10 0 0 0].map (·.hash)).Nodup := by decide

/-- The entry point 1 and a tail over it. -/
def twoTails : Tangle (Fin 256) where
  transactions := ⟨[plainTx 1 0 0 10 0 0 0, plainTx 2 1 1 10 0 0 0], nodup_twoTails⟩
  milestones := ⟨Table.empty, nodup_noHash⟩
  faults := fun _ => []

/-- A node whose latest solid milestone is 1. -/
def plainSelector : TipSelector (Fin 256) (ExitProbValidator (Fin 256) × Unit) :=
  nodeSelector WalkWorld.flatExponential Rating.wrappingShift ExitProbValidator.plainTipConf
    plainSponge Ledger.quietLedger.initial Ledger.quietLedger.latest 1 1
    (fun u => (⟨0, probability_zero⟩, u)) 9

/-- The node before it is asked for tips. -/
def askedState : SelectorState (Fin 256) (ExitProbValidator (Fin 256) × Unit) :=
  ⟨(ExitProbValidator.freshValidator twoTails, ()), ⟨none, none⟩⟩

end TipSelector

end Entangled
