import Entangled.Ledger.Restart
import Entangled.Solidifier.Service
import Mathlib.Data.List.MinMax
/-!
# The milestone tracker

`milestone_tracker.c` as far as it moves the latest solid milestone. The tracker
keeps an index of its own beside the one in the metadata of the latest snapshot.
At start-up both are set by the replay of the stored deltas, the tracker's through
the pointer `build_snapshot` is given; afterwards `update_latest_solid_milestone`
writes the tracker's and the ledger validator the other.

The loop asks the store for the next milestone above its own index. Where the one
it gets is not the direct successor, nothing changes and it asks again.
-/

namespace Entangled

open Prog

variable {Hash : Type} [DecidableEq Hash] [HashBytes Hash]

namespace Milestones

/-- The row of the least index above a given one: the statement has a limit of one
row, and the index is the key the table is kept in the order of. -/
def next (ms : Milestones Hash) (index : ℕ) : Option (MilestoneRow Hash) :=
  (ms.rows.filter fun r => decide (index < r.index)).argmin fun r => r.index

omit [DecidableEq Hash] in
theorem find?_of_next {ms : Milestones Hash} {index : ℕ} {r : MilestoneRow Hash}
    (h : ms.next index = some r) : index < r.index ∧ ms.find? r.index = some r := by
  have hmem := List.mem_filter.mp (List.argmin_mem h)
  exact ⟨of_decide_eq_true hmem.2, Table.find?_key hmem.1⟩

end Milestones

/-- `iota_tangle_milestone_load_next`. -/
def Tangle.milestoneLoadNext (index : ℕ) : TangleM Hash (Option (Milestone Hash)) := do
  attempt .milestoneLoad
  gets fun t => (t.milestones.next index).map (·.milestone)

/-- The tracker with what it works on: the store and the two snapshots, and the
shared state of the solidifier. -/
structure Tracker (Hash : Type) [HashBytes Hash] where
  ledger : Ledger Hash
  newlySetSolid : List Hash
  tips : TipsCache Hash
  solidifierRunning : Bool
  running : Bool
  latestMilestoneIndex : ℕ
  latestSolidMilestoneIndex : ℕ
  latestSolidMilestone : Hash

/-- Functions of the tracker. -/
abbrev TrackerM (Hash : Type) [HashBytes Hash] := EStateM Retcode (Tracker Hash)

/-- What the functions of the tracker are given besides: the configuration, whether
there is a requester, and what the stack holds. -/
structure Tracker.Setup (Hash : Type) where
  conf : Conf Hash
  requester : Bool
  uninit : Uninit Hash

namespace Tracker

/-- Run a function of the ledger validator. -/
def onLedger {α : Type} (x : LedgerM Hash α) : TrackerM Hash α :=
  zoom Tracker.ledger (fun L T => { T with ledger := L }) x

/-- The state of the solidifier. -/
def solidifier (T : Tracker Hash) : Solidifier Hash :=
  ⟨T.ledger.tangle, T.newlySetSolid, T.tips, T.solidifierRunning⟩

/-- Run a function of the solidifier, without interruption. -/
def onSolidifier {α : Type} (x : EStateM Retcode (Solidifier Hash) α) : TrackerM Hash α :=
  zoom solidifier
    (fun s T => { T with
      ledger := { T.ledger with tangle := s.tangle }
      newlySetSolid := s.newlySetSolid, tips := s.tips, solidifierRunning := s.running }) x

/-- Move the latest solid milestone. -/
def setLatestSolid (m : Milestone Hash) (T : Tracker Hash) : Tracker Hash :=
  { T with latestSolidMilestoneIndex := m.index, latestSolidMilestone := m.hash }

/-! ## Start-up -/

/-- `iota_milestone_tracker_init`. -/
def init (lastMilestone : ℕ) : TrackerM Hash Unit :=
  update fun T => { T with
    running := false
    latestMilestoneIndex := lastMilestone
    latestSolidMilestoneIndex := max lastMilestone T.ledger.initial.index }

/-- Apply a delta that `build_snapshot` has loaded; `consistent_index` and
`consistent_hash` point into the tracker. -/
def applyStoredDelta (m : Milestone Hash) (delta : StateDelta Hash) : TrackerM Hash Unit :=
  if delta.rows = [] then pure ()
  else do
    onLedger (Ledger.applyStoredDelta m.index delta)
    update (setLatestSolid m)

/-- The loop of `build_snapshot`, with the two results. -/
def buildSnapshotLoop : ℕ → Milestone Hash → TrackerM Hash Unit
  | 0, _ => fail .outOfRounds
  | n + 1, milestone => do
    let delta ← onLedger (Ledger.onTangle (Tangle.stateDeltaLoad milestone.index))
    applyStoredDelta milestone delta
    match ← onLedger (Ledger.onTangle (Tangle.milestoneLoadByIndex (milestone.index + 1))) with
    | none => pure ()
    | some next => buildSnapshotLoop n next

/-- `build_snapshot`, with the two results. -/
def buildSnapshot : TrackerM Hash Unit := do
  let T ← gets id
  match ← onLedger (Ledger.onTangle
      (Tangle.milestoneLoadByIndex (T.ledger.initial.index + 1))) with
  | none => pure ()
  | some milestone => buildSnapshotLoop T.ledger.tangle.milestones.rows.length milestone

/-- Start-up: `iota_milestone_tracker_init`, then
`iota_consensus_ledger_validator_init`. -/
def startUp (lastMilestone : ℕ) : TrackerM Hash Unit := do
  init lastMilestone
  buildSnapshot

/-! ## The latest solid milestone -/

/-- `MILESTONE_SOLIDIFICATION_TRANSACTIONS_LIMIT`. -/
def milestoneSolidificationTransactionsLimit : Int32 := 50000

variable (sponge : Sponge Hash) (setup : Setup Hash)

/-- The call of the solidifier, with `is_solid` set to false before it. -/
def checkSolidity (rounds : ℕ) (hash : Hash) : TrackerM Hash Bool := do
  let T ← gets id
  onSolidifier (Solidifier.checkSolidity
    ⟨setup.conf, T.ledger.initial, setup.requester, setup.uninit⟩ rounds hash
    milestoneSolidificationTransactionsLimit false).run

/-- Hand a milestone to the ledger validator; the result is whether the loop goes
on. -/
def confirm (m : Milestone Hash) : TrackerM Hash Bool := do
  let hasSnapshot ← onLedger (Ledger.updateSnapshot sponge setup.conf.genesisHash m)
  if hasSnapshot then do
    update (setLatestSolid m)
    pure true
  else pure false

/-- The direct successor of the latest solid milestone is handed on; any other one
leaves things as they are. -/
def confirmNext (m : Milestone Hash) : TrackerM Hash Bool := do
  let T ← gets id
  if m.index = T.latestSolidMilestoneIndex + 1 then confirm sponge setup m else pure true

/-- The loop of `update_latest_solid_milestone`; the walks of the solidifier have
`rounds` rounds. -/
def updateLoop (rounds : ℕ) : ℕ → Option (Milestone Hash) → TrackerM Hash Unit
  | 0, _ => fail .outOfRounds
  | _ + 1, none => pure ()
  | n + 1, some m => do
    let T ← gets id
    if m.index ≤ T.latestMilestoneIndex ∧ T.running = true then do
      let isSolid ← checkSolidity setup rounds m.hash
      if isSolid = false then pure ()
      else do
        let goesOn ← confirmNext sponge setup m
        if goesOn then do
          let T ← gets id
          let next ← onLedger (Ledger.onTangle
            (Tangle.milestoneLoadNext T.latestSolidMilestoneIndex))
          updateLoop rounds n next
        else pure ()
    else pure ()

/-- `update_latest_solid_milestone`. -/
def updateLatestSolidMilestone (rounds n : ℕ) : TrackerM Hash Unit := do
  let T ← gets id
  let next ← onLedger (Ledger.onTangle (Tangle.milestoneLoadNext T.latestSolidMilestoneIndex))
  updateLoop sponge setup rounds n next

end Tracker

end Entangled
