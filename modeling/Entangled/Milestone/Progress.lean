import Entangled.Milestone.InStep
/-!
# The end of the solid-milestone loop

Each iteration of `update_latest_solid_milestone` that does not leave the loop moves the latest
solid milestone on by one, but for one case: the milestone loaded is solid and not the direct
successor. Nothing then changes, the same milestone is loaded again, and the loop goes round
for as long as it stays solid.

`GoesOn` is one iteration that stays, `Head` the states at the head of the loop, and `EndsWithin`
says that the loop is left within some number of iterations. `Stuck` is the case above.
-/

namespace Entangled

open Prog

variable {Hash : Type} [DecidableEq Hash] [HashBytes Hash]

namespace Tracker

variable (sponge : Sponge Hash) (setup : Setup Hash) (rounds : ℕ)

/-! ## Iterations -/

/-- Load the next milestone above the latest solid one. -/
def loadNext : TrackerM Hash (Option (Milestone Hash)) := fun T =>
  onLedger (Ledger.onTangle (Tangle.milestoneLoadNext T.latestSolidMilestoneIndex)) T

/-- An iteration at `m` that does not leave the loop, from `T` to `T'` with `o` loaded. -/
def GoesOn (m : Milestone Hash) (T : Tracker Hash) (o : Option (Milestone Hash))
    (T' : Tracker Hash) : Prop :=
  m.index ≤ T.latestMilestoneIndex ∧ T.running = true ∧
    ∃ T₁ T₂, checkSolidity setup rounds m.hash T = .ok true T₁ ∧
      confirmNext sponge setup m T₁ = .ok true T₂ ∧ loadNext T₂ = .ok o T'

/-- The loop is left within `n` iterations. -/
def EndsWithin : ℕ → Option (Milestone Hash) → Tracker Hash → Prop
  | 0, _, _ => False
  | n + 1, o, T => ∀ m o' T', o = some m → GoesOn sponge setup rounds m T o' T' → EndsWithin n o' T'

/-- The states at the head of the loop in a call from `T₀`, with the milestone loaded. -/
inductive Head (T₀ : Tracker Hash) : Option (Milestone Hash) → Tracker Hash → Prop
  | start {o : Option (Milestone Hash)} {T : Tracker Hash} : loadNext T₀ = .ok o T → Head T₀ o T
  | next {m : Milestone Hash} {o : Option (Milestone Hash)} {T T' : Tracker Hash} :
      Head T₀ (some m) T → GoesOn sponge setup rounds m T o T' → Head T₀ o T'

/-- A solid milestone behind a gap, which the loop can load again. -/
def Stuck (m : Milestone Hash) (T : Tracker Hash) : Prop :=
  T.latestSolidMilestoneIndex + 1 < m.index ∧ m.index ≤ T.latestMilestoneIndex ∧
    T.running = true ∧ ∃ T₁, checkSolidity setup rounds m.hash T = .ok true T₁ ∧
      T₁.ledger.tangle.succeeds .milestoneLoad = true

variable {sponge setup rounds} {m : Milestone Hash} {o o' : Option (Milestone Hash)}
  {T T' T₀ T₁ : Tracker Hash} {n : ℕ}

/-! ## The loop and its iterations -/

/-- An iteration that stays is a round of the loop. -/
theorem GoesOn.updateLoop (h : GoesOn sponge setup rounds m T o T') (n : ℕ) :
    updateLoop sponge setup rounds (n + 1) (some m) T = updateLoop sponge setup rounds n o T' := by
  obtain ⟨hle, hrun, T₁, T₂, hsolid, hconf, hload⟩ := h
  have hload' : onLedger (Ledger.onTangle
      (Tangle.milestoneLoadNext T₂.latestSolidMilestoneIndex)) T₂ = .ok o T' := hload
  rw [Tracker.updateLoop, gets_bind]
  dsimp only [id]
  rw [if_pos ⟨hle, hrun⟩, bind_apply_ok hsolid, if_neg (by decide), bind_apply_ok hconf,
    if_pos rfl, gets_bind]
  exact bind_apply_ok hload'

/-- A round that is no such iteration leaves the loop, whatever rounds were left. -/
theorem updateLoop_of_leaves (hno : ∀ o T', ¬GoesOn sponge setup rounds m T o T') (n k : ℕ) :
    updateLoop sponge setup rounds (n + 1) (some m) T =
      updateLoop sponge setup rounds (k + 1) (some m) T := by
  rw [updateLoop, updateLoop, gets_bind, gets_bind]
  dsimp only [id]
  split
  · rename_i hcond
    cases hs : checkSolidity setup rounds m.hash T with
    | error e T₁ => rw [bind_apply_error hs, bind_apply_error hs]
    | ok isSolid T₁ =>
      rw [bind_apply_ok hs, bind_apply_ok hs]
      cases isSolid with
      | false => rfl
      | true =>
        rw [if_neg (by decide), if_neg (by decide)]
        cases hc : confirmNext sponge setup m T₁ with
        | error e T₂ => rw [bind_apply_error hc, bind_apply_error hc]
        | ok goesOn T₂ =>
          rw [bind_apply_ok hc, bind_apply_ok hc]
          cases goesOn with
          | false => rfl
          | true =>
            rw [if_pos rfl, if_pos rfl, gets_bind, gets_bind]
            cases hl : loadNext T₂ with
            | error e T₃ => exact (bind_apply_error hl).trans (bind_apply_error hl).symm
            -- the rounds differ from here on, and here is where the loop would stay
            | ok o T₃ => exact absurd ⟨hcond.1, hcond.2, T₁, T₂, hs, hc, hl⟩ (hno o T₃)
  · rfl

/-- **A loop that ends** needs no more rounds than it has iterations. -/
theorem updateLoop_of_endsWithin (h : EndsWithin sponge setup rounds n o T) (k : ℕ) :
    updateLoop sponge setup rounds (n + k) o T = updateLoop sponge setup rounds n o T := by
  induction n generalizing o T with
  | zero => exact h.elim
  | succ n ih =>
    rw [Nat.add_right_comm]
    cases o with
    | none => rfl
    | some m =>
      by_cases hgo : ∃ o' T', GoesOn sponge setup rounds m T o' T'
      · obtain ⟨o', T', hgo⟩ := hgo
        rw [hgo.updateLoop, hgo.updateLoop]
        exact ih (h m o' T' rfl hgo)
      · exact updateLoop_of_leaves (fun o' T' hg => hgo ⟨o', T', hg⟩) _ _

/-- **One that does not end** runs out of any number of rounds. -/
theorem updateLoop_of_not_endsWithin (h : ¬EndsWithin sponge setup rounds n o T) :
    ∃ T', updateLoop sponge setup rounds n o T = .error .outOfRounds T' := by
  induction n generalizing o T with
  | zero => exact ⟨T, rfl⟩
  | succ n ih =>
    simp only [EndsWithin, not_forall] at h
    obtain ⟨m, o', T', rfl, hgo, hn⟩ := h
    obtain ⟨T'', hr⟩ := ih hn
    exact ⟨T'', by rw [hgo.updateLoop, hr]⟩

/-! ## What an iteration moves -/

/-- The bounds of the loop are as they were. -/
structure SameBounds (T T' : Tracker Hash) : Prop where
  latest : T'.latestMilestoneIndex = T.latestMilestoneIndex
  running : T'.running = T.running
  solid : T'.latestSolidMilestoneIndex = T.latestSolidMilestoneIndex

theorem sameBounds_checkSolidity {hash : Hash} {b : Bool}
    (hr : checkSolidity setup rounds hash T = .ok b T') : SameBounds T T' := by
  rw [checkSolidity, gets_bind] at hr
  obtain ⟨s, -, rfl⟩ := zoom_eq_ok.mp hr
  exact ⟨rfl, rfl, rfl⟩

omit [DecidableEq Hash] in
/-- A load returns just when the store lets it, and uses up its outcome. -/
theorem loadNext_eq_ok : loadNext T = .ok o T' ↔
    T.ledger.tangle.succeeds .milestoneLoad = true ∧
      o = (T.ledger.tangle.milestones.next T.latestSolidMilestoneIndex).map (·.milestone) ∧
      T' = { T with ledger := { T.ledger with
        tangle := T.ledger.tangle.popped .milestoneLoad } } := by
  have hload : Tangle.milestoneLoadNext T.latestSolidMilestoneIndex T.ledger.tangle =
      if T.ledger.tangle.succeeds .milestoneLoad then
        .ok ((T.ledger.tangle.milestones.next T.latestSolidMilestoneIndex).map (·.milestone))
          (T.ledger.tangle.popped .milestoneLoad)
      else .error .storageFailed (T.ledger.tangle.popped .milestoneLoad) := by
    have hattempt := Tangle.attempt_eq .milestoneLoad T.ledger.tangle
    unfold Tangle.milestoneLoadNext
    by_cases hs : T.ledger.tangle.succeeds .milestoneLoad = true
    · rw [if_pos hs] at hattempt ⊢
      rw [bind_apply_ok hattempt]
      rfl
    · rw [if_neg hs] at hattempt ⊢
      exact bind_apply_error hattempt
  unfold loadNext onLedger Ledger.onTangle zoom
  dsimp only
  rw [hload]
  by_cases hs : T.ledger.tangle.succeeds .milestoneLoad = true
  · rw [if_pos hs]
    constructor
    · intro h
      cases h
      exact ⟨hs, rfl, rfl⟩
    · rintro ⟨-, rfl, rfl⟩
      rfl
  · rw [if_neg hs]
    exact iff_of_false (fun h => by cases h) fun h => hs h.1

omit [DecidableEq Hash] in
/-- What the loop is offered lies above the latest solid milestone. -/
theorem sameBounds_loadNext (hr : loadNext T = .ok o T') :
    SameBounds T T' ∧ ∀ m, o = some m → T.latestSolidMilestoneIndex < m.index := by
  obtain ⟨-, rfl, rfl⟩ := loadNext_eq_ok.mp hr
  refine ⟨⟨rfl, rfl, rfl⟩, fun m hm => ?_⟩
  obtain ⟨r, hnext, rfl⟩ := Option.map_eq_some_iff.mp hm
  exact (Milestones.find?_of_next hnext).1

/-- The direct successor is moved to, any other milestone is left alone. -/
theorem confirmNext_eq_ok (hr : confirmNext sponge setup m T = .ok true T') :
    T'.latestMilestoneIndex = T.latestMilestoneIndex ∧ T'.running = T.running ∧
      (m.index = T.latestSolidMilestoneIndex + 1 ∧ T'.latestSolidMilestoneIndex = m.index ∨
        m.index ≠ T.latestSolidMilestoneIndex + 1 ∧ T' = T) := by
  rw [confirmNext, gets_bind] at hr
  dsimp only [id] at hr
  split at hr
  · rename_i hnext
    obtain ⟨hasSnapshot, T₁, hup, hrest⟩ := bind_eq_ok.mp hr
    obtain ⟨L, -, rfl⟩ := zoom_eq_ok.mp hup
    cases hasSnapshot with
    | false => cases hrest
    | true =>
      cases hrest
      exact ⟨rfl, rfl, .inl ⟨hnext, rfl⟩⟩
  · rename_i hnext
    cases hr
    exact ⟨rfl, rfl, .inr ⟨hnext, rfl⟩⟩

/-- **What an iteration does**: it moves on by one, or it is stuck and moves nothing. -/
theorem GoesOn.moves (h : GoesOn sponge setup rounds m T o T')
    (hoff : T.latestSolidMilestoneIndex < m.index) :
    T'.latestMilestoneIndex = T.latestMilestoneIndex ∧
      (m.index = T.latestSolidMilestoneIndex + 1 ∧
          T'.latestSolidMilestoneIndex = T.latestSolidMilestoneIndex + 1 ∨
        Stuck setup rounds m T ∧
          T'.latestSolidMilestoneIndex = T.latestSolidMilestoneIndex) := by
  obtain ⟨hle, hrun, T₁, T₂, hsolid, hconf, hload⟩ := h
  have hs₁ := sameBounds_checkSolidity hsolid
  obtain ⟨hs₃, -⟩ := sameBounds_loadNext hload
  obtain ⟨hlatest, -, hmove⟩ := confirmNext_eq_ok hconf
  refine ⟨by rw [hs₃.latest, hlatest, hs₁.latest], ?_⟩
  rcases hmove with ⟨hnext, hidx⟩ | ⟨hnext, rfl⟩
  · rw [hs₁.solid] at hnext
    exact .inl ⟨hnext, by rw [hs₃.solid, hidx, hnext]⟩
  · rw [hs₁.solid] at hnext
    -- it lies above the latest solid one and is not the next, so there is a gap
    exact .inr ⟨⟨by omega, hle, hrun, T₂, hsolid, (loadNext_eq_ok.mp hload).1⟩,
      by rw [hs₃.solid, hs₁.solid]⟩

/-- A stuck loop goes round. -/
theorem Stuck.goesOn (h : Stuck setup rounds m T) :
    ∃ o T', GoesOn sponge setup rounds m T o T' := by
  obtain ⟨hgap, hle, hrun, T₁, hsolid, hsucc⟩ := h
  refine ⟨_, _, hle, hrun, T₁, T₁, hsolid, ?_, loadNext_eq_ok.mpr ⟨hsucc, rfl, rfl⟩⟩
  rw [confirmNext, gets_bind]
  dsimp only [id]
  rw [if_neg (by rw [(sameBounds_checkSolidity hsolid).solid]; omega)]
  rfl

theorem Head.offered (h : Head sponge setup rounds T₀ o T) :
    ∀ m, o = some m → T.latestSolidMilestoneIndex < m.index := by
  cases h with
  | start hload =>
    obtain ⟨hs, hoff⟩ := sameBounds_loadNext hload
    rwa [hs.solid]
  | next hhead hgo =>
    obtain ⟨-, -, T₁, T₂, -, -, hload⟩ := hgo
    obtain ⟨hs, hoff⟩ := sameBounds_loadNext hload
    rwa [hs.solid]

/-- **A loop that is never stuck ends**: what is left to the latest milestone shrinks. -/
theorem endsWithin_of_not_stuck (h : Head sponge setup rounds T₀ o T)
    (hno : ∀ m T, Head sponge setup rounds T₀ (some m) T → ¬Stuck setup rounds m T)
    (hn : T.latestMilestoneIndex - T.latestSolidMilestoneIndex < n) :
    EndsWithin sponge setup rounds n o T := by
  induction n generalizing o T with
  | zero => omega
  | succ n ih =>
    intro m o' T' ho hgo
    subst ho
    obtain ⟨hlatest, hmove⟩ := hgo.moves (h.offered m rfl)
    obtain ⟨hnext, hup⟩ := hmove.resolve_right fun hs => hno m T h hs.1
    -- the latest milestone stays, so the distance to it has shrunk
    have hle := hgo.1
    exact ih (h.next hgo) (by omega)

theorem nodup_thirdIndex :
    ([(⟨⟨3, 1⟩, none⟩ : MilestoneRow (Fin 256))].map fun r => r.index).Nodup := by decide

theorem nodup_thirdHash :
    ([(⟨⟨3, 1⟩, none⟩ : MilestoneRow (Fin 256))].map fun r => r.milestone.hash).Nodup := by decide

theorem nodup_solidTx :
    ([{ plainTx 1 0 0 10 0 0 0 with solid := true }].map (·.hash)).Nodup := by decide

/-- A tracker at index 1 whose only milestone, solid, has index 3. -/
def gapTracker : Tracker (Fin 256) :=
  { awake (startingTracker { Ledger.quietLedger with
      tangle :=
        { transactions := ⟨[{ plainTx 1 0 0 10 0 0 0 with solid := true }], nodup_solidTx⟩
          milestones := ⟨⟨[⟨⟨3, 1⟩, none⟩], nodup_thirdIndex⟩, nodup_thirdHash⟩
          faults := fun _ => [] } }) with
    latestMilestoneIndex := 3
    latestSolidMilestoneIndex := 1 }

theorem loadNext_gapTracker : loadNext gapTracker = .ok (some ⟨3, 1⟩) gapTracker := by rfl

theorem goesOn_gapTracker (rounds : ℕ) :
    GoesOn plainSponge plainSetup rounds ⟨3, 1⟩ gapTracker (some ⟨3, 1⟩) gapTracker :=
  ⟨by decide, rfl, gapTracker, gapTracker, rfl, rfl, loadNext_gapTracker⟩

end Tracker

end Entangled
