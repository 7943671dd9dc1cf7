import Entangled.Ledger.Model
/-!
# The local snapshots service

`snapshots_service.c` and the replay of `milestone_service.c`: choose a target
milestone, replay the stored deltas onto a copy of the initial snapshot, put the
metadata of the target on the result, announce it to the pruning service and
write it to disk.

State and index of a snapshot come from different functions: the replay stops at
the first milestone that is missing, and the metadata is that of the target.
-/

namespace Entangled

open Prog

variable {Hash : Type} [DecidableEq Hash] [HashBytes Hash]

/-- `SNAPSHOT_SERVICE_MAX_NUM_MILESTONES_TO_CALC`. -/
def maxNumMilestonesToCalc : ℕ := 500

/-- `SNAPSHOT_SERVICE_SOLID_ENTRY_POINT_MAX_DEPTH`. -/
def solidEntryPointMaxDepth : ℕ := 500

/-- Solid entry points with the index each was recorded under. -/
abbrev EntryPoints (Hash : Type) := Table (Prod.fst : Hash × ℕ → Hash)

namespace Snapshot

/-- `iota_snapshot_reset`. It leaves the hash as it is, which is overwritten
before it is read. -/
def reset (hash : Hash) : Snapshot Hash := ⟨Table.empty, 0, hash, 0, Table.empty⟩

/-- `iota_snapshot_copy`. When memory runs out the destination loses its state and
its entry points, keeps the rest, and the call still succeeds. -/
def copy (src dst : Snapshot Hash) : TangleM Hash (Snapshot Hash) := do
  match ← outcome (Tangle.withHeap .copyAlloc Table.empty (StateDelta.copy src.state)) with
  | .ok state => pure { src with state := state }
  | .error _ => pure { dst with state := Table.empty, solidEntryPoints := Table.empty }

end Snapshot

/-! ## The replay -/

/-- What the loop of `replay_milestones` carries: the merged deltas, the index in
the buffer of the current milestone, and whether a delta was applied. The code
keeps a pointer to the buffer as the last applied milestone, so the index it
uses in the end is that of the last milestone it loaded. -/
structure Replay (Hash : Type) where
  merged : StateDelta Hash
  current : ℕ
  applied : Bool

/-- The loop of `iota_milestone_service_replay_milestones`, with the number of
rounds left. -/
def replayLoop : ℕ → ℕ → Replay Hash → TangleM Hash (Replay Hash)
  | 0, _, r => pure r
  | n + 1, index, r => do
    match ← Tangle.milestoneLoadByIndex (index + 1) with
    | none => pure r
    | some milestone => do
      let delta ← Tangle.stateDeltaLoad milestone.index
      if delta.rows = [] then replayLoop n (index + 1) { r with current := milestone.index }
      else do
        let merged ← Tangle.withHeap .replayAlloc r.merged (StateDelta.applyPatch delta)
        replayLoop n (index + 1) ⟨merged, milestone.index, true⟩

/-- `iota_milestone_service_replay_milestones`. -/
def replayMilestones (snapshot : Snapshot Hash) (index : ℕ) : TangleM Hash (Snapshot Hash) := do
  let r ← replayLoop (index - snapshot.index) snapshot.index ⟨Table.empty, 0, false⟩
  if r.applied then do
    let state ← Tangle.withHeap .replayAlloc snapshot.state (StateDelta.applyPatch r.merged)
    pure { snapshot with state := state, index := r.current }
  else pure snapshot

namespace Ledger

/-- The index `determine_new_entry_point` settles on before it loads the milestone
below it. -/
def candidateIndex (minDepth : ℕ) (L : Ledger Hash) : ℕ :=
  min (L.latest.index - minDepth) (L.initial.index + maxNumMilestonesToCalc)

/-- `iota_snapshots_service_determine_new_entry_point`. -/
def determineNewEntryPoint (conf : Conf Hash) : LedgerM Hash (Milestone Hash) := do
  let L ← gets id
  if L.latest.index ≤ conf.minDepth then fail .snapshotServiceNotEnoughDepth
  else if L.latest.index - conf.minDepth ≤ L.initial.index then
    fail .snapshotServiceMilestoneTooOld
  else do
    match ← onTangle (Tangle.milestoneLoadByIndex (candidateIndex conf.minDepth L - 1)) with
    | none => fail .snapshotServiceMilestoneNotLoaded
    | some milestone => pure milestone

/-- `iota_snapshots_service_generate_snapshot`. -/
def generateSnapshot (conf : Conf Hash) (target : Milestone Hash) :
    LedgerM Hash (Snapshot Hash) := do
  let L ← gets id
  if target.index ≤ L.initial.index then fail .snapshotServiceMilestoneTooOld
  else do
    let snapshot ← onTangle (Snapshot.copy L.initial (Snapshot.reset conf.genesisHash))
    onTangle (replayMilestones snapshot target.index)

end Ledger

/-! ## Solid entry points -/

namespace Tangle

/-- `check_transaction_is_not_orphan_do_func`; its data is `is_orphan`. -/
def notOrphanFunc (targetTimestamp : UInt64) (entryPoints : EntryPoints Hash) (h : Hash)
    (analyzed : List Hash) : WalkM Hash Bool (Verdict Hash) := do
  let p ← gets fun w => w.pack
  if p.loaded = false then pure ⟨false, false, analyzed⟩
  else match p.model with
    | none => fail .undefinedRead
    | some tx =>
      if tx.snapshotIndex ≠ 0 then pure ⟨false, false, analyzed⟩
      else if h ∈ entryPoints.keys ∨ targetTimestamp * 1000 < tx.attachmentTimestamp ∨
          targetTimestamp < tx.timestamp then do
        Walk.setData fun _ => false
        pure ⟨true, true, analyzed⟩
      else pure ⟨true, false, analyzed⟩

/-- The loop of `add_entry_point_if_not_orphan` over the approvers. `is_orphan` is
not set back between them, and an error ends the loop with what it has added. -/
def addEntryPointLoop (targetTimestamp : UInt64) (h : Hash) (index : ℕ) :
    List Hash → Bool → EntryPoints Hash → TangleM Hash (EntryPoints Hash)
  | [], _, entryPoints => pure entryPoints
  | approver :: rest, isOrphan, entryPoints => do
    match ← outcome (Walk.run isOrphan
        (Walk.dfsToFuture (notOrphanFunc targetTimestamp entryPoints) approver [])) with
    | .error _ => pure entryPoints
    | .ok r =>
      if r.2 then addEntryPointLoop targetTimestamp h index rest r.2 entryPoints
      else addEntryPointLoop targetTimestamp h index rest r.2 (entryPoints.insert (h, index))

/-- `iota_snapshots_service_add_entry_point_if_not_orphan`, which reports no
error. -/
def addEntryPointIfNotOrphan (targetTimestamp : UInt64) (h : Hash) (index : ℕ)
    (entryPoints : EntryPoints Hash) : TangleM Hash (EntryPoints Hash) := do
  match ← outcome (loadHashesOfApprovers h) with
  | .error _ => pure entryPoints
  | .ok hashes => addEntryPointLoop targetTimestamp h index hashes.reverse true entryPoints

/-- List a transaction that a milestone after the target confirmed. -/
def listConfirmedLater (targetIndex : ℕ) (h : Hash) (tx : Transaction Hash) :
    WalkM Hash (EntryPoints Hash) Unit :=
  if targetIndex < tx.snapshotIndex then
    Walk.setData fun entryPoints => entryPoints.insert (h, tx.snapshotIndex)
  else pure ()

/-- `find_solid_entry_points_and_update_do_func`. -/
def findEntryPointsFunc (targetIndex : ℕ) (targetTimestamp : UInt64) (minSnapshotIndex : ℕ)
    (h : Hash) (analyzed : List Hash) : WalkM Hash (EntryPoints Hash) (Verdict Hash) := do
  let p ← gets fun w => w.pack
  if p.loaded = false then pure ⟨false, false, analyzed⟩
  else match p.model with
    | none => fail .undefinedRead
    | some tx => do
      listConfirmedLater targetIndex h tx
      if minSnapshotIndex ≤ tx.snapshotIndex then do
        let entryPoints ← gets fun w => w.data
        let entryPoints' ← Walk.onTangle
          (addEntryPointIfNotOrphan targetTimestamp h minSnapshotIndex entryPoints)
        Walk.setData fun _ => entryPoints'
        pure ⟨true, false, analyzed⟩
      else pure ⟨false, false, analyzed⟩

/-- `iota_snapshots_service_find_solid_entry_points_and_update`. -/
def findEntryPointsAndUpdate (conf : Conf Hash) (targetIndex : ℕ) (targetTimestamp : UInt64)
    (milestone : Milestone Hash) (entryPoints : EntryPoints Hash) :
    TangleM Hash (EntryPoints Hash) := do
  let r ← Walk.run entryPoints (Walk.dfsToPast
    (findEntryPointsFunc targetIndex targetTimestamp milestone.index) milestone.hash
    conf.genesisHash [])
  pure r.2

/-- Load the transaction of the target milestone. A failed load reads as one that
found nothing. -/
def loadTargetTransaction (h : Hash) : TangleM Hash (Transaction Hash) := do
  match ← outcome (transactionLoad h) with
  | .ok (some tx) => pure tx
  | _ => fail .snapshotMissingMilestoneTransaction

/-- The loop of `update_old_solid_entry_points`. -/
def updateOldLoop (conf : Conf Hash) (targetIndex : ℕ) (targetTimestamp : UInt64) :
    List (Hash × ℕ) → EntryPoints Hash → TangleM Hash (EntryPoints Hash)
  | [], entryPoints => pure entryPoints
  | (h, index) :: rest, entryPoints => do
    if h ≠ conf.genesisHash ∧ Word.sub targetIndex index < solidEntryPointMaxDepth then do
      let entryPoints' ← addEntryPointIfNotOrphan targetTimestamp h index entryPoints
      updateOldLoop conf targetIndex targetTimestamp rest entryPoints'
    else updateOldLoop conf targetIndex targetTimestamp rest entryPoints

/-- `iota_snapshots_service_update_old_solid_entry_points`. -/
def updateOldEntryPoints (conf : Conf Hash) (initial : Snapshot Hash) (target : Milestone Hash)
    (entryPoints : EntryPoints Hash) : TangleM Hash (EntryPoints Hash) := do
  let tx ← loadTargetTransaction target.hash
  updateOldLoop conf target.index tx.timestamp initial.solidEntryPoints.rows entryPoints

/-- The loop of `collect_new_solid_entry_points`. When the milestone of the initial
snapshot is not stored the buffer keeps the milestone before, and the loop does
the same round for ever; the model runs out of rounds. -/
def collectNewLoop (conf : Conf Hash) (initialIndex targetIndex : ℕ) (targetTimestamp : UInt64) :
    ℕ → Milestone Hash → EntryPoints Hash → TangleM Hash (EntryPoints Hash)
  | 0, _, _ => fail .outOfRounds
  | n + 1, prev, entryPoints =>
    if initialIndex < prev.index ∧ 1 < prev.index then do
      let found ← findEntryPointsAndUpdate conf targetIndex targetTimestamp prev entryPoints
      let listed := found.insert (prev.hash, prev.index)
      match ← milestoneLoadByIndex (prev.index - 1) with
      | none =>
        if initialIndex < prev.index - 1 then fail .snapshotMissingMilestoneTransaction
        else collectNewLoop conf initialIndex targetIndex targetTimestamp n prev listed
      | some milestone =>
        collectNewLoop conf initialIndex targetIndex targetTimestamp n milestone listed
    else pure entryPoints

/-- `iota_snapshots_service_collect_new_solid_entry_points`. -/
def collectNewEntryPoints (conf : Conf Hash) (initial : Snapshot Hash) (target : Milestone Hash)
    (entryPoints : EntryPoints Hash) : TangleM Hash (EntryPoints Hash) := do
  let tx ← loadTargetTransaction target.hash
  collectNewLoop conf initial.index target.index tx.timestamp (target.index + 1) target entryPoints

/-- `iota_snapshots_service_update_solid_entry_points`: the entry points the new
snapshot gets. -/
def updateSolidEntryPoints (conf : Conf Hash) (initial : Snapshot Hash) (target : Milestone Hash) :
    TangleM Hash (EntryPoints Hash) := do
  let old ← updateOldEntryPoints conf initial target
    (Table.empty.insert (conf.genesisHash, target.index))
  collectNewEntryPoints conf initial target old

end Tangle

namespace Ledger

/-- `iota_snapshots_service_generate_snapshot_metadata`. Without a row for the
target the timestamp is read from a buffer nothing was loaded into. -/
def generateSnapshotMetadata (conf : Conf Hash) (uninit : Uninit Hash) (target : Milestone Hash)
    (snapshot : Snapshot Hash) : LedgerM Hash (Snapshot Hash) := do
  let L ← gets id
  let o ← onTangle (Tangle.transactionLoad target.hash)
  let stamped := { snapshot with
    index := target.index
    hash := target.hash
    timestamp := (o.map (·.timestamp)).getD uninit.timestamp }
  if Word.sub L.latest.index target.index ≤ solidEntryPointMaxDepth then do
    let entryPoints ← onTangle (Tangle.updateSolidEntryPoints conf L.initial target)
    pure { stamped with solidEntryPoints := entryPoints }
  else pure stamped

end Ledger

/-! ## Taking a snapshot -/

/-- The fields of the pruning service that the modelled functions use. -/
structure Pruner (Hash : Type) where
  lastPrunedSnapshotIndex : ℕ
  lastSnapshotIndexToPrune : ℕ
  solidEntryPoints : List Hash
  tipsCache : TipsCache Hash

/-- A node with local snapshots: the ledger, the pruning service, the snapshots
written to disk, the latest first, and the spent addresses provider. -/
structure Node (Hash : Type) [HashBytes Hash] where
  ledger : Ledger Hash
  pruner : Pruner Hash
  persisted : List (Snapshot Hash)
  spentAddresses : List Hash

/-- Functions of the services of a node. -/
abbrev NodeM (Hash : Type) [HashBytes Hash] := EStateM Retcode (Node Hash)

namespace Node

/-- Run a function on the ledger. -/
def onLedger {α : Type} (x : LedgerM Hash α) : NodeM Hash α :=
  zoom Node.ledger (fun L N => { N with ledger := L }) x

/-- Run a function on the store. -/
def onTangle {α : Type} (x : TangleM Hash α) : NodeM Hash α := onLedger (Ledger.onTangle x)

/-- `iota_local_snapshots_pruning_service_update_current_snapshot`. -/
def updateCurrentSnapshot (snapshot : Snapshot Hash) : NodeM Hash Unit :=
  update fun N => { N with
    pruner := { N.pruner with
      lastSnapshotIndexToPrune := snapshot.index
      solidEntryPoints := hashSetAppend [] snapshot.solidEntryPoints.keys } }

/-- The part of `take_snapshot` before anything leaves it: the snapshot to write,
if there is one. -/
def nextSnapshot (conf : Conf Hash) (uninit : Uninit Hash) :
    NodeM Hash (Option (Snapshot Hash)) := do
  let target ← onLedger (Ledger.determineNewEntryPoint conf)
  let next ← onLedger (Ledger.generateSnapshot conf target)
  let initialIndex ← gets fun N => N.ledger.initial.index
  if initialIndex < next.index then do
    let stamped ← onLedger (Ledger.generateSnapshotMetadata conf uninit target next)
    pure (some stamped)
  else pure none

/-- The announcement to the pruning service, when pruning is on. -/
def announce (conf : Conf Hash) (snapshot : Snapshot Hash) : NodeM Hash Unit :=
  if conf.pruningIsEnabled then updateCurrentSnapshot snapshot else pure ()

/-- `iota_snapshots_service_persist_snapshot`. -/
def persistSnapshot (snapshot : Snapshot Hash) : NodeM Hash Unit := do
  onTangle (Tangle.attemptAs .snapshotWriteFailed .snapshotWrite)
  update fun N => { N with persisted := snapshot :: N.persisted }
  let initial ← gets fun N => N.ledger.initial
  let initial' ← onTangle (Snapshot.copy snapshot initial)
  update fun N => { N with ledger := { N.ledger with initial := initial' } }

/-- `iota_snapshots_service_take_snapshot`. -/
def takeSnapshot (conf : Conf Hash) (uninit : Uninit Hash) : NodeM Hash Unit := do
  match ← nextSnapshot conf uninit with
  | none => pure ()
  | some snapshot => do
    announce conf snapshot
    persistSnapshot snapshot

end Node

end Entangled
