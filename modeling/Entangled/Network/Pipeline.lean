import Entangled.Trinary.ByteCodec
import Entangled.Transaction.Validator
/-!
# The gossip pipeline

The four stages a packet goes through, each a thread with a queue: the processor looks its bytes up
among the recently seen ones, the hasher computes the hashes of those it has not seen, the validator
validates and stores them, and the responder answers what the packet asked for. Three of them read
or write the cache of recently seen bytes, which maps a digest of the bytes to a hash.

A state holds the queues and what a thread has in hand between two accesses to something shared. An
action is what one thread does in between; any of them may come next. `accepted` is no part of the
node: it records which transactions the validator has accepted.
-/

namespace Entangled

namespace Pipeline

open Trinary Codec

/-- The constants of a node, its hash functions and its clock-free part of the configuration. -/
structure Config where
  E : Encoding
  mwm : ℕ
  /-- The capacity of the cache of recently seen bytes. -/
  capacity : ℕ
  /-- `XXH64`, with seed zero. -/
  xxh64 : List Int8 → UInt64
  curl : Curl

/-- `GOSSIP_TX_BYTES_LENGTH`. -/
def gossipTxBytesLength : ℕ := 1604

/-- `GOSSIP_MAX_BYTES_LENGTH`. -/
def gossipMaxBytesLength : ℕ := 1653

/-- A queue entry on its way through the hasher: the content of a packet, the digest of its bytes
and the neighbor that sent it, if one did. -/
structure Payload (Neighbor : Type) where
  content : List Int8
  digest : UInt64
  neighbor : Option Neighbor

/-- What the validator has in hand. -/
inductive Validating (Neighbor : Type) where
  /-- Validated, not yet in the cache. -/
  | validated (payload : Payload Neighbor) (hash : List FlexTrit)
  /-- In the cache, its request not yet passed on. -/
  | cached (payload : Payload Neighbor) (hash : List FlexTrit)

/-- What the responder has in hand: a request, the transaction loaded for it, and whether to
respond. -/
structure Responding (Neighbor : Type) where
  neighbor : Neighbor
  hash : List FlexTrit
  loaded : Option IotaTransaction
  respond : Bool

/-- The state of the pipeline. -/
structure Node (Neighbor : Type) where
  /-- `recent_seen_bytes`, the oldest entry first. -/
  recentSeenBytes : List (UInt64 × List FlexTrit)
  processor : List (List Int8)
  hasher : List (Payload Neighbor)
  hashing : List (Payload Neighbor)
  validator : List (Payload Neighbor × List FlexTrit)
  validating : Option (Validating Neighbor)
  responder : List (Neighbor × List FlexTrit)
  responding : Option (Responding Neighbor)
  tips : List (List FlexTrit)
  transactions : List IotaTransaction
  accepted : List (List ℤ)

/-! ## Bytes and transactions -/

section Bytes

variable (C : Config)

/-- `recent_seen_bytes_cache_hash`. -/
def digestOf (content : List Int8) : UInt64 := C.xxh64 (content.take gossipTxBytesLength)

/-- The trits the hasher makes of a packet. -/
def tritsOf (content : List Int8) : List ℤ :=
  bytesToTrits (content.take gossipTxBytesLength) numTritsSerializedTransaction

/-- The hash the hasher makes of a packet. -/
def hashOf (content : List Int8) : List FlexTrit :=
  (flexTritsFromTrits C.E (List.replicate (C.E.numFlexTritsForTrits 243) C.E.nullValue) 243
    (C.curl.digest (tritsOf content)) 243 243).1

/-- The transaction the validator makes of a packet, with the hash it is given. `r` is the scratch
memory of the deserialization. -/
def transactionOf (r : Reader) (content : List Int8) (hash : List FlexTrit) :
    Option IotaTransaction :=
  let null := List.replicate (C.E.numFlexTritsForTrits numTritsSerializedTransaction) C.E.nullValue
  match flexTritsFromBytes C.E null numTritsSerializedTransaction content
      numTritsSerializedTransaction numTritsSerializedTransaction with
  | none => none
  | some (trits, n) =>
    if n ≠ numTritsSerializedTransaction then none
    else
      let (tx, n) := transactionDeserializeTrits C.E C.curl r (transactionReset C.E) trits false
      if n ≠ numTritsSerializedTransaction then none else some { tx with hash }

/-- The bytes the responder makes of a transaction. -/
def bytesOf (w : Writer) (tx : IotaTransaction) : Option (List Int8) :=
  let trits := (transactionSerializeToFlexTrits C.E w tx).1
  (flexTritsToBytes C.E (List.replicate gossipTxBytesLength 0) numTritsSerializedTransaction trits
    numTritsSerializedTransaction numTritsSerializedTransaction).map Prod.fst

end Bytes

/-! ## The cache -/

/-- `recent_seen_bytes_cache_get`. -/
def cacheGet (cache : List (UInt64 × List FlexTrit)) (digest : UInt64) : Option (List FlexTrit) :=
  (cache.find? fun entry => entry.1 == digest).map Prod.snd

/-- `recent_seen_bytes_cache_put`: a digest that is there keeps its hash, and the oldest entry makes
room. -/
def cachePut (capacity : ℕ) (cache : List (UInt64 × List FlexTrit)) (digest : UInt64)
    (hash : List FlexTrit) : List (UInt64 × List FlexTrit) :=
  if (cacheGet cache digest).isSome then cache
  else if capacity ≤ cache.length then cache.tail ++ [(digest, hash)]
  else cache ++ [(digest, hash)]

/-! ## The stages -/

section Stages

variable {Neighbor : Type} (C : Config)

/-- `responder_process_request`. -/
def processRequest (neighbor : Option Neighbor) (content : List Int8) (hash : List FlexTrit)
    (s : Node Neighbor) : Node Neighbor :=
  let null := List.replicate (C.E.numFlexTritsForTrits 243) C.E.nullValue
  match neighbor, flexTritsFromBytes C.E null 243 (content.drop gossipTxBytesLength) (243 - C.mwm)
      (243 - C.mwm) with
  | some neighbor, some (requestHash, n) =>
    if n ≠ 243 - C.mwm then s
    else
      -- a packet that asks for itself asks for a random tip
      let requestHash := if requestHash = hash then null else requestHash
      { s with responder := s.responder ++ [(neighbor, requestHash)] }
  | _, _ => s

/-- A round of `processor_stage_routine`; `neighbor` is what the endpoint of the packet belongs
to. -/
def process (neighbor : Option Neighbor) (s : Node Neighbor) : Node Neighbor :=
  match s.processor with
  | [] => s
  | content :: processor =>
    let s := { s with processor }
    match cacheGet s.recentSeenBytes (digestOf C content) with
    | some hash => if neighbor.isSome then processRequest C neighbor content hash s else s
    | none => { s with hasher := s.hasher ++ [⟨content, digestOf C content, neighbor⟩] }

/-- `hasher_stage_routine` takes up to 64 packets. -/
def fill (packetsNum : ℕ) (s : Node Neighbor) : Node Neighbor :=
  if s.hashing = [] then
    { s with
      hashing := s.hasher.take (min packetsNum 64)
      hasher := s.hasher.drop (min packetsNum 64) }
  else s

/-- `hasher_stage_routine` passes a packet on with its hash. -/
def emit (s : Node Neighbor) : Node Neighbor :=
  match s.hashing with
  | [] => s
  | payload :: hashing =>
    { s with hashing, validator := s.validator ++ [(payload, hashOf C payload.content)] }

/-- Is the transaction of a payload accepted? -/
def accepts (tv : TransactionValidator) (now : UInt64) (stray : FlexTrit) (r : Reader)
    (content : List Int8) (hash : List FlexTrit) : Bool :=
  match transactionOf C r content hash with
  | none => false
  | some tx => transactionValidate C.E tv now stray tx

/-- `validate_transaction_bytes`. The store answers whether the hash is there, or fails, and then
stores or fails: `stores` is whether a hash that is not there gets stored. -/
def validate (tv : TransactionValidator) (now : UInt64) (stray : FlexTrit) (r : Reader)
    (stores : Bool) (s : Node Neighbor) : Node Neighbor :=
  match s.validator, s.validating with
  | (payload, hash) :: validator, none =>
    let s := { s with validator, validating := some (.validated payload hash) }
    match transactionOf C r payload.content hash with
    | none => s
    | some tx =>
      if transactionValidate C.E tv now stray tx then
        let s := { s with accepted := tritsOf payload.content :: s.accepted }
        if stores ∧ ∀ tx' ∈ s.transactions, tx'.hash ≠ hash then
          { s with transactions := s.transactions ++ [tx] }
        else s
      else s
  | _, _ => s

/-- `validator_stage_routine` writes to the cache. -/
def cacheValidated (s : Node Neighbor) : Node Neighbor :=
  match s.validating with
  | some (.validated payload hash) =>
    { s with
      recentSeenBytes := cachePut C.capacity s.recentSeenBytes payload.digest hash
      validating := some (.cached payload hash) }
  | _ => s

/-- `validator_stage_routine` passes the request on. -/
def requestValidated (s : Node Neighbor) : Node Neighbor :=
  match s.validating with
  | some (.cached payload hash) =>
    processRequest C payload.neighbor payload.content hash { s with validating := none }
  | _ => s

/-- `flex_trits_are_null`, over the bytes of a hash. -/
def isNull (hash : List FlexTrit) : Bool :=
  (hash.take (C.E.numFlexTritsForTrits 243)).all fun b => b == C.E.nullValue

/-- `iota_tangle_transaction_load` by hash. -/
def load (transactions : List IotaTransaction) (hash : List FlexTrit) : Option IotaTransaction :=
  transactions.find? fun tx => tx.hash == hash

/-- `get_transaction_for_request`: `tip` is the random tip, if one was drawn, and `loads` is whether
the store answers. The test of the pointer `respond` always holds, so a tip is loaded for a node
that is synced, too. -/
def getTransactionForRequest (synced : Bool) (tip : Option (List FlexTrit)) (loads : Bool)
    (s : Node Neighbor) : Node Neighbor :=
  match s.responder, s.responding with
  | (neighbor, hash) :: responder, none =>
    let responding :=
      if isNull C hash then
        { neighbor, hash
          loaded := if loads then tip.bind (load s.transactions) else none
          respond := !synced }
      else
        { neighbor, hash
          loaded := if loads then load s.transactions hash else none
          respond := true }
    { s with responder, responding := some responding }
  | _, _ => s

/-- `respond_to_request`, as far as it changes the node: the cache gets the digest of the
transaction's bytes with the hash of the request. -/
def respondToRequest (w : Writer) (s : Node Neighbor) : Node Neighbor :=
  match s.responding with
  | none => s
  | some responding =>
    let s := { s with responding := none }
    match responding.respond, responding.loaded.bind (bytesOf C w) with
    | true, some bytes =>
      { s with
        recentSeenBytes :=
          cachePut C.capacity s.recentSeenBytes (digestOf C bytes) responding.hash }
    | _, _ => s

end Stages

/-! ## Runs -/

/-- What happens next: a packet arrives, a thread goes on, or something outside the pipeline changes
the tips or removes transactions. -/
inductive Action (Neighbor : Type) where
  | receive (content : List Int8)
  | process (neighbor : Option Neighbor)
  | fill (packetsNum : ℕ)
  | emit
  | validate (tv : TransactionValidator) (now : UInt64) (stray : FlexTrit) (r : Reader)
      (stores : Bool)
  | cacheValidated
  | requestValidated
  | getTransactionForRequest (synced : Bool) (tip : Option (List FlexTrit)) (loads : Bool)
  | respondToRequest (w : Writer)
  | setTips (tips : List (List FlexTrit))
  | prune (hashes : List (List FlexTrit))

section Runs

variable {Neighbor : Type} (C : Config)

/-- What an action does. -/
def act : Action Neighbor → Node Neighbor → Node Neighbor
  | .receive content, s => { s with processor := s.processor ++ [content] }
  | .process neighbor, s => process C neighbor s
  | .fill packetsNum, s => fill packetsNum s
  | .emit, s => emit C s
  | .validate tv now stray r stores, s => validate C tv now stray r stores s
  | .cacheValidated, s => cacheValidated C s
  | .requestValidated, s => requestValidated C s
  | .getTransactionForRequest synced tip loads, s =>
    getTransactionForRequest C synced tip loads s
  | .respondToRequest w, s => respondToRequest C w s
  | .setTips tips, s => { s with tips }
  | .prune hashes, s =>
    { s with transactions := s.transactions.filter fun tx => !hashes.contains tx.hash }

/-- The memory an action works on has the size the source gives it, and a tip is drawn from the
tips. -/
def Possible (s : Node Neighbor) : Action Neighbor → Prop
  | .receive content => content.length = gossipMaxBytesLength
  | .validate _ _ _ r _ => r.Sized C.E
  | .getTransactionForRequest _ tip _ =>
    ∀ hash, tip = some hash → hash ∈ s.tips ∨ s.tips = [] ∧ isNull C hash = true
  | .respondToRequest w => w.Sized C.E
  | _ => True

/-- Actions one after the other, each of them possible and meeting a condition. -/
inductive Run (Meets : Node Neighbor → Action Neighbor → Prop) (s₀ : Node Neighbor) :
    Node Neighbor → Prop
  | start : Run Meets s₀ s₀
  | step {s : Node Neighbor} (hrun : Run Meets s₀ s) (a : Action Neighbor)
      (hpossible : Possible C s a) (hmeets : Meets s a) : Run Meets s₀ (act C a s)

end Runs

end Pipeline

end Entangled
