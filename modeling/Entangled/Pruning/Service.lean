import Entangled.LocalSnapshot.Service
import Entangled.Tangle.Spent
/-!
# The pruning service

`pruning_service.c`: below the snapshot announced last, milestone after
milestone is collected and deleted. To collect a milestone is to walk from it
to the past through what it or a later milestone confirmed, to ask each
transaction on the way for unconfirmed ones in its future, and to record the
addresses spent from; the deletion then takes the past first, the milestone's
transaction next and its row last.

Neither part reports an error. The collection drops its set and returns as if
there had been nothing to collect, and the caller goes on from there.
-/

namespace Entangled

open Prog

variable {Hash : Type} [DecidableEq Hash] [HashBytes Hash]

namespace Tangle

/-- `collect_unconfirmed_future_transactions_for_pruning_do_func`. -/
def collectUnconfirmedFunc (_ : Hash) (analyzed : List Hash) : WalkM Hash Unit (Verdict Hash) := do
  let p ← gets fun w => w.pack
  if p.loaded = false then pure ⟨false, false, analyzed⟩
  else match p.model with
    | none => fail .undefinedRead
    | some tx => pure ⟨decide (tx.snapshotIndex = 0), false, analyzed⟩

/-- `collect_transactions_for_pruning_do_func`. The walk to the future shares the
set of analyzed hashes with the walk it is called from. -/
def collectForPruningFunc (index : ℕ) (h : Hash) (analyzed : List Hash) :
    WalkM Hash Unit (Verdict Hash) := do
  let p ← gets fun w => w.pack
  if p.loaded = false then pure ⟨false, false, analyzed⟩
  else match p.model with
    | none => fail .undefinedRead
    | some tx =>
      if index ≤ tx.snapshotIndex then do
        let r ← Walk.onTangle (Walk.run () (Walk.dfsToFuture collectUnconfirmedFunc h analyzed))
        pure ⟨true, false, r.1⟩
      else pure ⟨false, false, analyzed⟩

end Tangle

namespace Node

/-- `iota_spent_addresses_provider_store`. -/
def storeSpentAddress (address : Hash) : NodeM Hash Unit := do
  onTangle (Tangle.attempt .spentAddressStore)
  update fun N => { N with spentAddresses := hashSetAdd N.spentAddresses address }

/-- Drop a hash from the tips cache. -/
def removeTip (h : Hash) : NodeM Hash Unit :=
  update fun N => { N with pruner := { N.pruner with tipsCache := N.pruner.tipsCache.remove h } }

/-- The second loop of `collect_transactions_to_prune`. -/
def recordSpent (sponge : Sponge Hash) : List Hash → NodeM Hash Unit
  | [] => pure ()
  | h :: rest => do
    let o ← onTangle (Tangle.transactionLoadPartial h)
    removeTip h
    match o with
    | none => recordSpent sponge rest
    | some tx => do
      let spent ← onTangle (Tangle.wasTxSpentFrom sponge tx h)
      if spent then do
        storeSpentAddress tx.address
        recordSpent sponge rest
      else recordSpent sponge rest

/-- `collect_transactions_to_prune` up to its cleanup: the set to prune, and
whether a solid entry point is in it, in which case the set is dropped. -/
def collectOrFail (conf : Conf Hash) (sponge : Sponge Hash) (entryPoint : Hash) :
    NodeM Hash (List Hash × Bool) := do
  let index ← gets fun N => N.pruner.lastPrunedSnapshotIndex + 1
  let r ← onTangle (Walk.run () (Walk.dfsToPast (Tangle.collectForPruningFunc index) entryPoint
    conf.genesisHash []))
  let toPrune := hashSetRemove r.1 conf.genesisHash
  let entryPoints ← gets fun N => N.pruner.solidEntryPoints
  if toPrune.any fun h => decide (h ∈ entryPoints) then pure ([], true)
  else do
    recordSpent sponge toPrune
    pure (toPrune, false)

/-- `collect_transactions_to_prune`, which reports no error. -/
def collectTransactionsToPrune (conf : Conf Hash) (sponge : Sponge Hash) (entryPoint : Hash) :
    NodeM Hash (List Hash × Bool) := do
  match ← outcome (collectOrFail conf sponge entryPoint) with
  | .ok r => pure r
  | .error _ => pure ([], false)

/-- The deletions of `prune_transactions`. -/
def deleteCollected (hash : Hash) (toPrune : List Hash) : NodeM Hash Unit := do
  onTangle (Tangle.transactionsDelete (hashSetRemove toPrune hash))
  onTangle (Tangle.transactionsDelete [hash])
  onTangle (Tangle.milestoneDelete hash)
  update fun N => { N with
    pruner := { N.pruner with lastPrunedSnapshotIndex := N.pruner.lastPrunedSnapshotIndex + 1 } }

/-- The first half of `prune_transactions`: the hash of the next milestone and what
its collection returned. Without a row for the milestone the hash is read from a
buffer nothing was loaded into. -/
def collectNext (conf : Conf Hash) (uninit : Uninit Hash) (sponge : Sponge Hash) :
    NodeM Hash (Hash × List Hash × Bool) := do
  let index ← gets fun N => N.pruner.lastPrunedSnapshotIndex + 1
  let o ← onTangle (Tangle.milestoneLoadByIndex index)
  let hash := (o.map (·.hash)).getD uninit.hash
  let r ← collectTransactionsToPrune conf sponge hash
  pure (hash, r)

/-- `prune_transactions` up to its cleanup. -/
def pruneOrFail (conf : Conf Hash) (uninit : Uninit Hash) (sponge : Sponge Hash) :
    NodeM Hash Bool := do
  let (hash, toPrune, hasSolidEntryPoints) ← collectNext conf uninit sponge
  if hasSolidEntryPoints then pure true
  else do
    deleteCollected hash toPrune
    pure false

/-- `prune_transactions`, which reports no error; it returns whether to wait for
the next snapshot. -/
def pruneTransactions (conf : Conf Hash) (uninit : Uninit Hash) (sponge : Sponge Hash) :
    NodeM Hash Bool := do
  match ← outcome (pruneOrFail conf uninit sponge) with
  | .ok wait => pure wait
  | .error _ => pure false

/-- `iota_local_snapshots_pruning_service_init`. -/
def initPruning : NodeM Hash Unit :=
  update fun N => { N with
    pruner := { N.pruner with
      lastPrunedSnapshotIndex := N.ledger.initial.index
      lastSnapshotIndexToPrune := N.ledger.initial.index
      solidEntryPoints := [] } }

/-- How `pruning_service_routine` starts: pruning resumes below the first milestone
that is still stored. -/
def startPruning : NodeM Hash Unit :=
  update fun N =>
    match (N.ledger.tangle.milestones.rows.map fun r => r.index).min? with
    | none => N
    | some first => { N with
        pruner := { N.pruner with
          lastPrunedSnapshotIndex := min (first - 1) N.pruner.lastPrunedSnapshotIndex } }

end Node

end Entangled
