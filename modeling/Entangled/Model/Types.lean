import Entangled.Common.Table
import Entangled.Common.Prog
/-!
# The data of the node

Transactions, milestones and the codes the functions of the node return. Hashes
stay abstract: the code only compares them and copies them, and the tables hold
them as keys. Indexes that the code keeps in `uint64_t` are naturals; where a
subtraction of two of them can wrap it is written out.

Any call that can fail is a *site*. What happens there is input to the model:
each site carries the list of outcomes of its next executions, `true` for one
that fails, and an exhausted list means success from then on.
-/

namespace Entangled

/-- The error codes the modelled functions return. The last two are not codes
of the node: `undefinedRead` is a use of a buffer nothing was loaded into, and
`outOfRounds` ends a loop the model bounds. -/
inductive Retcode
  | nullParam
  | oom
  | storageFailed
  | tangleTailNotFound
  | tangleNotATail
  | ledgerValidatorInvalidTransaction
  | ledgerValidatorCouldNotLoadMilestone
  | ledgerValidatorInconsistentDelta
  | ledgerValidatorTransactionNotSolid
  | snapshotInconsistentPatch
  | snapshotServiceNotEnoughDepth
  | snapshotServiceMilestoneNotLoaded
  | snapshotServiceMilestoneTooOld
  | snapshotMissingMilestoneTransaction
  | snapshotWriteFailed
  | requesterFailed
  | undefinedRead
  | outOfRounds
  deriving DecidableEq, Repr

/-- The outcome of validating a bundle, as kept in the `validity` column. -/
inductive BundleStatus
  | notInitialized
  | valid
  | empty
  | incomplete
  | invalidTx
  | invalidInputAddress
  | invalidValue
  | invalidHash
  | invalidSignature
  deriving DecidableEq, Repr

/-- A row of the transaction table: the essence, attachment, consensus and data
fields the modelled functions read, then the metadata they write. -/
structure Transaction (Hash : Type) where
  address : Hash
  value : Int64
  obsoleteTag : List Int8
  timestamp : UInt64
  currentIndex : ℕ
  lastIndex : ℕ
  bundle : Hash
  trunk : Hash
  branch : Hash
  attachmentTimestamp : UInt64
  hash : Hash
  signature : List Int8
  snapshotIndex : ℕ
  solid : Bool
  validity : BundleStatus
  deriving DecidableEq, Repr

/-- A milestone, as the tracker hands it on. -/
structure Milestone (Hash : Type) where
  index : ℕ
  hash : Hash
  deriving DecidableEq, Repr

/-- The calls that can fail. The allocations of state delta entries are told
apart by the function that makes them. -/
inductive Site
  | transactionStore
  | transactionLoad
  | transactionLoadPartial
  | approversLoad
  | approversCount
  | updateSnapshotIndex
  | updateSolidity
  | updateValidity
  | transactionsDelete
  | milestoneLoad
  | milestoneDelete
  | stateDeltaStore
  | stateDeltaLoad
  | deltaAlloc
  | patchAlloc
  | applyAlloc
  | tipAlloc
  | mergeAlloc
  | copyAlloc
  | replayAlloc
  | requestTransaction
  | spentAddressStore
  | snapshotWrite
  deriving DecidableEq, Repr

/-- The calls that make the result of a longer computation last. No function
makes one of them on the way to another. -/
def Site.commits : Site → Bool
  | .updateSnapshotIndex | .transactionsDelete | .milestoneDelete | .stateDeltaStore
  | .applyAlloc | .copyAlloc | .snapshotWrite => true
  | _ => false

/-- The outcomes still to come at each site. -/
abbrev Faults := Site → List Bool

/-- The constants of the configuration that the modelled functions read. -/
structure Conf (Hash : Type) where
  genesisHash : Hash
  minDepth : ℕ
  pruningIsEnabled : Bool

/-- What the buffers on the stack hold when a load found no row for them and the
code reads them all the same. -/
structure Uninit (Hash : Type) where
  hash : Hash
  timestamp : UInt64
  solid : Bool

/-- The number of tokens, `IOTA_SUPPLY`. -/
def iotaSupply : ℤ := 2779530283277761

end Entangled
