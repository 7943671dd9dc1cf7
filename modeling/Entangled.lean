import Entangled.Common.Prog
import Entangled.Common.Table
import Entangled.Common.Search
import Entangled.Common.Word
import Entangled.Common.Process
import Entangled.Model.Types
import Entangled.Model.Containers
import Entangled.Snapshot.StateDelta
import Entangled.Snapshot.Codec
import Entangled.Tangle.Store
import Entangled.Tangle.Traversal
import Entangled.Tangle.Bundle
import Entangled.Tangle.Spent
import Entangled.Tangle.Loading
import Entangled.Tangle.Validity
import Entangled.Ledger.Model
import Entangled.Ledger.Cone
import Entangled.Ledger.Delta
import Entangled.Ledger.Update
import Entangled.Ledger.Restart
import Entangled.Ledger.Conservation
import Entangled.LocalSnapshot.Service
import Entangled.LocalSnapshot.Persisted
import Entangled.LocalSnapshot.EntryPoints
import Entangled.Pruning.Service
import Entangled.Pruning.Collection
import Entangled.Pruning.Step
import Entangled.Pruning.Accounting
import Entangled.Pruning.Horizon
import Entangled.Solidifier.Service
import Entangled.Solidifier.Soundness
import Entangled.Network.Router
import Entangled.Milestone.Tracker
import Entangled.Milestone.InStep
import Entangled.Common.Ternary
import Entangled.Common.Packing
import Entangled.Common.Blocks
import Entangled.Trinary.FlexTrit
import Entangled.Trinary.Packed
import Entangled.Trinary.Slice
import Entangled.Trinary.Long
import Entangled.Trinary.Checked
import Entangled.Transaction.Codec
import Entangled.Transaction.Validator
import Entangled.Signing.Iss
import Entangled.Signing.Normalize
import Entangled.Signing.Sign
import Entangled.Signing.Bundle
import Entangled.Signing.Walk
import Entangled.Signing.Valid
import Entangled.Signing.Exact
import Entangled.Kerl.Bigint
import Entangled.Kerl.Converter
import Entangled.Kerl.Stale
import Entangled.Kerl.Bytes
import Entangled.Kerl.Sponge
import Entangled.SignedFiles.Digest
import Entangled.SignedFiles.LookAlike
import Entangled.Network.Gossip
import Entangled.Network.Pipeline
import Entangled.Network.RecentSeen
import Entangled.Common.PerfectTree
import Entangled.Merkle.Tree
import Entangled.Merkle.Soundness
import Entangled.Trinary.Bytes
import Entangled.Trinary.Regroup
import Entangled.Trinary.ByteCodec
import Entangled.Common.Replay
import Entangled.Common.Trit
import Entangled.Mam.Spongos
import Entangled.Mam.Trits
import Entangled.Mam.Pb3
import Entangled.Mam.Wots
import Entangled.Mam.Mss
import Entangled.Mam.Message
import Entangled.Mam.Replays
import Entangled.Mam.Sizes
import Entangled.Mam.Api
import Entangled.Mam.Rejected
import Entangled.Mam.Delivery
import Entangled.Mam.Invariant
import Entangled.Mam.Following
import Entangled.Mam.Header
import Entangled.Mam.RoundTrip
import Entangled.Mam.FailedWrite
import Entangled.Mam.Sponge
import Entangled.Mam.Trust
import Entangled.Prototype.Iss
import Entangled.Prototype.Window
import Entangled.Milestone.Validate
import Entangled.Common.Treehash
import Entangled.Mam.Traversal
import Entangled.Mam.Signatures
import Entangled.Common.Bounded
import Entangled.Prototype.Numbers
import Entangled.Prototype.Mask
import Entangled.Prototype.Parse
import Entangled.Common.Negacyclic
import Entangled.Mam.Poly
import Entangled.Mam.Ntru
import Entangled.Common.Assign
import Entangled.Parallel.Curl
import Entangled.Parallel.Hasher
import Entangled.SignedFiles.Signature
import Entangled.Common.Lowest
import Entangled.Ledger.Extraction
import Entangled.Mam.Chains
import Entangled.Mam.Coefficients
import Entangled.Mam.Duplex
import Entangled.Mam.SizeCodec
import Entangled.Mam.Transform
import Entangled.Mining.Answer
import Entangled.Tangle.Reachability
import Entangled.Tangle.SpentAddress
import Entangled.Transaction.Weight
import Entangled.Milestone.Progress
import Entangled.Common.Loop
import Entangled.TipSelection.Validator
import Entangled.TipSelection.Depth
import Entangled.TipSelection.Transition
import Entangled.TipSelection.Walker
import Entangled.Common.Paths
import Entangled.TipSelection.ExitMap
import Entangled.TipSelection.ExitMass
import Entangled.TipSelection.InvalidTips
import Entangled.TipSelection.Bitset
import Entangled.TipSelection.Rating
import Entangled.TipSelection.Weights
import Entangled.TipSelection.Selection
import Entangled.TipSelection.LastTail
import Entangled.TipSelection.Selector
import Entangled.Client.Scan
import Entangled.Client.Transfers
import Entangled.Client.NewAddress
import Entangled.Prototype.Clean
import Entangled.Trinary.Add
import Entangled.Signing.Balanced
import Entangled.Signing.Finalize
import Entangled.Trinary.Splice
import Entangled.Common.Orders
import Entangled.Ledger.Overflow
import Entangled.Trinary.Conversions
import Entangled.Common.Decimal
import Entangled.Common.Runs
import Entangled.Network.Handshake
import Entangled.Network.Request
import Entangled.Node.Fifo
import Entangled.Node.Requester
import Entangled.Node.Tips
import Entangled.Snapshot.StateText
import Entangled.Snapshot.Vetting
import Entangled.Snapshot.Metadata
import Entangled.Common.Scatter
import Entangled.Troika.Hash
import Entangled.Attachment.Pow
import Entangled.Common.Tally
import Entangled.Mam.Keys
import Entangled.Mam.KeysUsed
import Entangled.Common.Shortened
import Entangled.Snapshot.Cut
import Entangled.Snapshot.Files
import Entangled.Client.Prepared
