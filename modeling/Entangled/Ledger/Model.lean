import Entangled.Tangle.Traversal
import Entangled.Tangle.Bundle
/-!
# The ledger validator

`ledger_validator.c`: the delta of a milestone's cone, its test against the
latest snapshot, and the writes that confirm the milestone; the running delta
that tip selection extends tip by tip; and the replay of stored deltas when a
node starts.
-/

namespace Entangled

open Prog

variable {Hash : Type} [DecidableEq Hash] [HashBytes Hash]

/-- A snapshot: the balances, the metadata of the milestone they belong to and
its solid entry points with their indexes. -/
structure Snapshot (Hash : Type) where
  state : StateDelta Hash
  index : ℕ
  hash : Hash
  timestamp : UInt64
  solidEntryPoints : Table (Prod.fst : Hash × ℕ → Hash)

/-- The store and the two snapshots of the provider. -/
structure Ledger (Hash : Type) [HashBytes Hash] where
  tangle : Tangle Hash
  initial : Snapshot Hash
  latest : Snapshot Hash

/-- Functions of the ledger validator. -/
abbrev LedgerM (Hash : Type) [HashBytes Hash] := EStateM Retcode (Ledger Hash)

namespace Ledger

/-- Run a function on the store. -/
def onTangle {α : Type} (x : TangleM Hash α) : LedgerM Hash α :=
  zoom Ledger.tangle (fun t L => { L with tangle := t }) x

/-! ## The delta of a cone -/

/-- The data of `get_latest_delta_do_func`. -/
structure LatestDelta (Hash : Type) where
  validDelta : Bool
  state : StateDelta Hash

/-- Not confirmed by the latest snapshot. -/
def unconfirmed (latestSnapshotIndex : ℕ) (tx : Transaction Hash) : Bool :=
  decide (tx.snapshotIndex = 0 ∨ latestSnapshotIndex < tx.snapshotIndex)

/-- Add the values of a bundle to the delta, one transaction at a time. -/
def addBundle : List (Transaction Hash) → StateDelta Hash → TangleM Hash (StateDelta Hash)
  | [], d => pure d
  | tx :: rest, d => do
    let d' ← Tangle.withHeap .deltaAlloc d (StateDelta.addOrSum tx.address tx.value)
    addBundle rest d'

/-- `get_latest_delta_do_func`. It reads the buffer of the pack without asking
whether the load found a row. -/
def getLatestDeltaFunc (sponge : Sponge Hash) (latestSnapshotIndex : ℕ) (h : Hash)
    (analyzed : List Hash) : WalkM Hash (LatestDelta Hash) (Verdict Hash) := do
  match ← gets fun w => w.pack.model with
  | none => fail .undefinedRead
  | some tx =>
    if unconfirmed latestSnapshotIndex tx = false then pure ⟨false, false, analyzed⟩
    else if tx.currentIndex ≠ 0 then pure ⟨true, false, analyzed⟩
    else do
      let r ← Walk.onTangle (Tangle.bundleValidatorValidate sponge h)
      if r.2 ≠ .valid ∨ r.1 = [] then do
        Walk.setData fun d => { d with validDelta := false }
        pure ⟨true, true, analyzed⟩
      else do
        let d ← gets fun w => w.data.state
        let d' ← Walk.onTangle (addBundle r.1 d)
        Walk.setData fun p => { p with state := d' }
        pure ⟨true, false, analyzed⟩

/-- The hashes a walk of the validator does not enter: those analyzed before,
the solid entry points and the genesis. -/
def blocked (genesis : Hash) (initial : Snapshot Hash) (analyzed : List Hash) : List Hash :=
  hashSetAdd (hashSetAppend analyzed initial.solidEntryPoints.keys) genesis

/-- `get_latest_delta`. -/
def getLatestDelta (sponge : Sponge Hash) (genesis : Hash) (initial : Snapshot Hash)
    (latestSnapshotIndex : ℕ) (analyzed : List Hash) (tip : Hash) :
    TangleM Hash (List Hash × LatestDelta Hash) :=
  Walk.run ⟨true, Table.empty⟩ (Walk.dfsToPast (getLatestDeltaFunc sponge latestSnapshotIndex) tip
    genesis (hashSetAppend analyzed initial.solidEntryPoints.keys))

/-! ## Confirming a milestone -/

/-- `update_snapshot_milestone_do_func`. -/
def updateSnapshotMilestoneFunc (h : Hash) (analyzed : List Hash) :
    WalkM Hash (List Hash) (Verdict Hash) := do
  let p ← gets fun w => w.pack
  if p.loaded = false then fail .ledgerValidatorCouldNotLoadMilestone
  else match p.model with
    | none => fail .undefinedRead
    | some tx =>
      if tx.snapshotIndex = 0 then do
        Walk.setData fun hashes => hashSetAdd hashes h
        pure ⟨true, false, analyzed⟩
      else pure ⟨false, false, analyzed⟩

/-- `update_snapshot_milestone`. -/
def updateSnapshotMilestone (genesis : Hash) (initial : Snapshot Hash) (hash : Hash)
    (index : ℕ) : TangleM Hash Unit := do
  let r ← Walk.run [] (Walk.dfsToPast updateSnapshotMilestoneFunc hash genesis
    (hashSetAppend [] initial.solidEntryPoints.keys))
  Tangle.updateSnapshotIndex r.2 index

/-- `iota_snapshot_create_patch`. -/
def snapshotCreatePatch (snapshot : Snapshot Hash) (delta : StateDelta Hash) :
    TangleM Hash (StateDelta Hash) :=
  Tangle.withHeap .patchAlloc Table.empty (StateDelta.createPatch snapshot.state delta)

/-- `iota_snapshot_apply_patch` on the latest snapshot: the index is written
before the balances. -/
def snapshotApplyPatch (patch : StateDelta Hash) (index : ℕ) : LedgerM Hash Unit :=
  if StateDelta.sum patch ≠ 0 then fail .snapshotInconsistentPatch
  else do
    update fun L => { L with latest := { L.latest with index := index } }
    zoom (fun L => ⟨L.latest.state, L.tangle.faults .applyAlloc⟩)
      (fun m L =>
        { L with
          latest := { L.latest with state := m.state }
          tangle := { L.tangle with
            faults := Function.update L.tangle.faults .applyAlloc m.alloc } })
      (StateDelta.applyPatch patch)

/-- The first half of `iota_consensus_ledger_validator_update_snapshot`, up to
the consistency test. It answers at once, or finds a consistent delta. -/
def consistentDelta (sponge : Sponge Hash) (genesis : Hash) (milestone : Milestone Hash) :
    LedgerM Hash (Bool ⊕ StateDelta Hash) := do
  match ← onTangle (Tangle.transactionLoadPartial milestone.hash) with
  | none => fail .ledgerValidatorInvalidTransaction
  | some tx =>
    if tx.solid = false then fail .ledgerValidatorTransactionNotSolid
    else if tx.snapshotIndex ≠ 0 then pure (.inl true)
    else do
      let L ← gets id
      let r ← onTangle (getLatestDelta sponge genesis L.initial L.latest.index [] milestone.hash)
      if r.2.validDelta = false then pure (.inl false)
      else do
        let patch ← onTangle (snapshotCreatePatch L.latest r.2.state)
        if (StateDelta.isConsistent patch).1 then pure (.inr r.2.state) else pure (.inl false)

/-- `iota_tangle_state_delta_store`, of a delta that is not empty. -/
def storeDelta (index : ℕ) (delta : StateDelta Hash) : TangleM Hash Unit :=
  if delta.rows = [] then pure () else Tangle.stateDeltaStore index delta

/-- The second half: snapshot indexes, stored delta and balances are written
one after the other. -/
def confirmMilestone (genesis : Hash) (milestone : Milestone Hash) (delta : StateDelta Hash) :
    LedgerM Hash Unit := do
  let L ← gets id
  onTangle (updateSnapshotMilestone genesis L.initial milestone.hash milestone.index)
  onTangle (storeDelta milestone.index delta)
  snapshotApplyPatch delta milestone.index

/-- `iota_consensus_ledger_validator_update_snapshot`, returning
`has_snapshot`. -/
def updateSnapshot (sponge : Sponge Hash) (genesis : Hash) (milestone : Milestone Hash) :
    LedgerM Hash Bool := do
  match ← consistentDelta sponge genesis milestone with
  | .inl hasSnapshot => pure hasSnapshot
  | .inr delta => do
    confirmMilestone genesis milestone delta
    pure true

/-! ## Tip selection -/

/-- What `iota_consensus_ledger_validator_update_delta` reports, with the
analyzed hashes and the running delta it leaves. -/
structure DeltaUpdate (Hash : Type) where
  isConsistent : Bool
  analyzed : List Hash
  delta : StateDelta Hash

/-- `iota_consensus_ledger_validator_update_delta`. The visited hashes start as a
copy of the analyzed ones. -/
def updateDelta (sponge : Sponge Hash) (genesis : Hash) (initial latest : Snapshot Hash)
    (analyzed : List Hash) (delta : StateDelta Hash) (tip : Hash) :
    TangleM Hash (DeltaUpdate Hash) := do
  match ← Tangle.transactionLoadPartial tip with
  | none => fail .undefinedRead
  | some tx =>
    if tx.solid = false then fail .ledgerValidatorTransactionNotSolid
    else if tip ∈ analyzed then pure ⟨true, analyzed, delta⟩
    else do
      let r ← getLatestDelta sponge genesis initial latest.index analyzed tip
      if r.2.validDelta = false then pure ⟨false, analyzed, delta⟩
      else do
        let tipState ← Tangle.withHeap .tipAlloc r.2.state (StateDelta.applyPatch delta)
        let patch ← snapshotCreatePatch latest tipState
        if (StateDelta.isConsistent patch).1 then do
          let delta' ← Tangle.withHeap .mergeAlloc delta (StateDelta.mergePatch tipState)
          pure ⟨true, hashSetAppend analyzed r.1, delta'⟩
        else pure ⟨false, analyzed, delta⟩

/-- The loop of `iota_consensus_ledger_validator_check_consistency`. -/
def checkConsistencyLoop (sponge : Sponge Hash) (genesis : Hash) (initial latest : Snapshot Hash) :
    List Hash → List Hash → StateDelta Hash → TangleM Hash Bool
  | [], _, _ => pure true
  | tip :: tips, analyzed, delta => do
    let r ← updateDelta sponge genesis initial latest analyzed delta tip
    if r.isConsistent = false then pure false
    else checkConsistencyLoop sponge genesis initial latest tips r.analyzed r.delta

/-- `iota_consensus_ledger_validator_check_consistency`. -/
def checkConsistency (sponge : Sponge Hash) (genesis : Hash) (initial latest : Snapshot Hash)
    (tips : List Hash) : TangleM Hash Bool :=
  checkConsistencyLoop sponge genesis initial latest tips [] Table.empty

/-! ## Start-up -/

/-- Apply a delta that `build_snapshot` has loaded. An empty one leaves the
latest snapshot alone, its index included. -/
def applyStoredDelta (index : ℕ) (delta : StateDelta Hash) : LedgerM Hash Unit :=
  if delta.rows = [] then pure ()
  else do
    let L ← gets id
    let patch ← onTangle (snapshotCreatePatch L.latest delta)
    if (StateDelta.isConsistent patch).1 = false then fail .ledgerValidatorInconsistentDelta
    else snapshotApplyPatch delta index

/-- The loop of `build_snapshot` at a milestone that was loaded. -/
def buildSnapshotLoop : ℕ → Milestone Hash → LedgerM Hash Unit
  | 0, _ => fail .outOfRounds
  | n + 1, milestone => do
    let delta ← onTangle (Tangle.stateDeltaLoad milestone.index)
    applyStoredDelta milestone.index delta
    match ← onTangle (Tangle.milestoneLoadByIndex (milestone.index + 1)) with
    | none => pure ()
    | some next => buildSnapshotLoop n next

/-- `build_snapshot`. -/
def buildSnapshot : LedgerM Hash Unit := do
  let L ← gets id
  match ← onTangle (Tangle.milestoneLoadByIndex (L.initial.index + 1)) with
  | none => pure ()
  | some milestone => buildSnapshotLoop L.tangle.milestones.rows.length milestone

end Ledger

end Entangled
