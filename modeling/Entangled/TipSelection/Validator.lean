import Entangled.Ledger.Model
/-!
# The exit probability validator

`exit_probability_validator.c`: what a random walk asks of a tail before it steps there. The tail
has to be stored, the first of its bundle and solid, not below the depth limit, and consistent with
what the validator has accepted so far.

`below_max_depth` walks the unconfirmed past of the tail with a stack and gives up at the first
transaction that was confirmed too long ago.
-/

namespace Entangled

open Prog

variable {Hash : Type} [DecidableEq Hash] [HashBytes Hash]

/-- The constants of the configuration that tip selection reads. -/
structure TipConf (Hash : Type) where
  genesisHash : Hash
  maxDepth : ℕ
  belowMaxDepth : ℕ
  alpha : ℚ

/-- `exit_prob_transaction_validator_t`, with the store it is used on. -/
structure ExitProbValidator (Hash : Type) [HashBytes Hash] where
  tangle : Tangle Hash
  delta : StateDelta Hash
  analyzedHashes : List Hash
  maxDepthOkMemoization : List Hash

/-- Functions of the validator. -/
abbrev ExitProbM (Hash : Type) [HashBytes Hash] := EStateM Retcode (ExitProbValidator Hash)

/-- How `below_max_depth` ends. All but the last report that the tail is below. -/
inductive DepthVerdict
  | exceeded
  | below
  | notBelow
  deriving DecidableEq, Repr

/-- What `below_max_depth` leaves: the verdict, the analyzed hashes and the stack. -/
structure Inspection (Hash : Type) where
  verdict : DepthVerdict
  analyzed : List Hash
  stack : List Hash

namespace ExitProbValidator

/-- Run a function on the store. -/
def onTangle {α : Type} (x : TangleM Hash α) : ExitProbM Hash α :=
  zoom ExitProbValidator.tangle (fun t epv => { epv with tangle := t }) x

variable (conf : TipConf Hash) (memo : List Hash) (lowest : ℕ)

/-- The loop of `below_max_depth`: the stack, the analyzed hashes, and what the buffer of the
transaction holds, which a load without a row leaves alone. -/
def belowMaxDepthLoop : ℕ → List Hash → List Hash → Option (Transaction Hash) →
    TangleM Hash (Inspection Hash)
  | 0, _, _, _ => fail .outOfRounds
  | _ + 1, [], analyzed, _ => pure ⟨.notBelow, analyzed, []⟩
  | n + 1, h :: rest, analyzed, buffer =>
    if analyzed.length = conf.belowMaxDepth then pure ⟨.exceeded, analyzed, h :: rest⟩
    else if h ∈ analyzed then belowMaxDepthLoop n rest analyzed buffer
    else if h = conf.genesisHash then belowMaxDepthLoop n rest (hashSetAdd analyzed h) buffer
    else do
      let o ← Tangle.transactionLoadPartial h
      match o <|> buffer with
      | none => fail .undefinedRead
      | some tx =>
        let currSnapshotIndex := tx.snapshotIndex % 2 ^ 32
        if currSnapshotIndex ≠ 0 ∧ currSnapshotIndex < lowest then
          pure ⟨.below, hashSetAdd analyzed h, h :: rest⟩
        else
          let stack :=
            if tx.snapshotIndex = 0 ∧ h ∉ memo then tx.branch :: tx.trunk :: h :: rest
            else h :: rest
          -- the pop takes what is on top
          belowMaxDepthLoop n stack.tail (hashSetAdd analyzed h) (some tx)

/-- The rounds the loop can take: every hash it meets is stored or the last one it meets, and it
comes up twice. -/
def depthRounds (t : Tangle Hash) : ℕ := 2 * (t.transactions.rows.length + 2) + 1

/-- The walk of `below_max_depth` from a tail. -/
def belowMaxDepthRun (tail : Hash) : TangleM Hash (Inspection Hash) := fun t =>
  belowMaxDepthLoop conf memo lowest (depthRounds t) [tail] [] none t

/-- `iota_consensus_exit_prob_transaction_validator_below_max_depth`. -/
def belowMaxDepth (tail : Hash) : ExitProbM Hash Bool := do
  let epv ← gets id
  let r ← onTangle (belowMaxDepthRun conf epv.maxDepthOkMemoization lowest tail)
  if r.verdict = .notBelow then do
    update fun epv =>
      { epv with maxDepthOkMemoization := hashSetAdd epv.maxDepthOkMemoization tail }
    pure false
  else pure true

/-- `lowest_allowed_index`, a `uint32_t`. -/
def lowestAllowedIndex (latestSolidMilestoneIndex : ℕ) : ℕ :=
  (if latestSolidMilestoneIndex < conf.maxDepth then latestSolidMilestoneIndex
    else latestSolidMilestoneIndex - conf.maxDepth) % 2 ^ 32

/-- `iota_consensus_exit_prob_transaction_validator_is_valid`, over the snapshots of the ledger. -/
def isValid (sponge : Sponge Hash) (initial latest : Snapshot Hash)
    (latestSolidMilestoneIndex : ℕ) (tail : Hash) : ExitProbM Hash Bool := do
  match ← onTangle (Tangle.transactionLoadPartial tail) with
  | none => pure false
  | some tx =>
    if tx.currentIndex ≠ 0 then pure false
    else if tx.solid = false then pure false
    else do
      let below ← belowMaxDepth conf (lowestAllowedIndex conf latestSolidMilestoneIndex) tail
      if below then pure false
      else do
        let epv ← gets id
        let r ← onTangle (Ledger.updateDelta sponge conf.genesisHash initial latest
          epv.analyzedHashes epv.delta tail)
        update fun epv => { epv with analyzedHashes := r.analyzed, delta := r.delta }
        pure r.isConsistent

end ExitProbValidator

end Entangled
