import Entangled.Client.Scan
/-!
# Preparing transfers

`prepare_transfers.c`: the transactions of the transfers, those of the inputs that pay for them, and
one for what is left over. That one goes to the address the caller names, or else to the last one
that `iota_client_get_new_address` returns.

The messages of the transfers are here for their length only: `bundle_set_messages` puts them into
signature fields, which nothing below reads.
-/

namespace Entangled

open Prog Trinary

variable {σ : Type}

/-- `transfer_t`. -/
structure Transfer where
  value : Int64
  msgLen : ℕ
  address : List FlexTrit
  tag : List FlexTrit

/-- `bundle_transactions_t`. -/
abbrev BundleTransactions := List (Transaction (List FlexTrit))

namespace Client

/-- What `memset` with `FLEX_TRIT_NULL_VALUE` leaves. -/
def nullFlexTrits (E : Encoding) (n : ℕ) : List FlexTrit :=
  List.replicate (E.numFlexTritsForTrits n) E.nullValue

/-- A transaction after `transaction_reset` and the setters. -/
def newTransaction (E : Encoding) (address : List FlexTrit) (value : Int64) (tag : List FlexTrit)
    (timestamp : UInt64) : Transaction (List FlexTrit) where
  address := address
  value := value
  obsoleteTag := tag
  timestamp := timestamp
  currentIndex := 0
  lastIndex := 0
  bundle := nullFlexTrits E 243
  trunk := nullFlexTrits E 243
  branch := nullFlexTrits E 243
  attachmentTimestamp := 0
  hash := nullFlexTrits E 243
  signature := nullFlexTrits E 6561
  snapshotIndex := 0
  solid := false
  validity := .notInitialized

/-- Transactions of one address, the value in the first. -/
def transactionEntries (E : Encoding) (numTxs : ℕ) (address : List FlexTrit) (value : Int64)
    (tag : List FlexTrit) (timestamp : UInt64) : BundleTransactions :=
  (List.range numTxs).map fun i =>
    newTransaction E address (if i = 0 then value else 0) tag timestamp

/-- `add_transaction_entry`. -/
def addTransactionEntry (E : Encoding) (numTxs : ℕ) (address : List FlexTrit) (value : Int64)
    (tag : List FlexTrit) (timestamp : UInt64) : EStateM ClientRetcode BundleTransactions Unit :=
  update fun bundle => bundle ++ transactionEntries E numTxs address value tag timestamp

/-- How far the loops of a call may go: the scans, the search for a secure hash, and the walk over
the transactions that are signed. -/
structure CallRounds where
  scan : ℕ
  finalize : ℕ
  sign : ℕ

section

variable (K : Kerl σ) (E : Encoding) (N : ClientNode) (beyond seed : List FlexTrit)
  (rounds : CallRounds)

/-- `bundle_sign` on the bundle. -/
def signBundle (inputs : List ClientInput) : EStateM ClientRetcode BundleTransactions Unit :=
  fun bundle =>
    match bundleSign K E beyond seed (inputs.map (·.toInput)) rounds.finalize rounds.sign bundle with
    | some (.ok, bundle') => .ok () bundle'
    | some (.commonBundleSign, bundle') => .error .bundleSign bundle'
    | some (.undefinedWrite, bundle') => .error .undefinedWrite bundle'
    | some (.running, bundle') => .error .outOfRounds bundle'
    | none => .error (if bundle = [] then .undefinedRead else .outOfRounds) bundle

/-- `bundle_reset_indexes` and `bundle_finalize` on the bundle. -/
def finalizeBundle : EStateM ClientRetcode BundleTransactions Unit := fun bundle =>
  match bundleFinalize K E rounds.finalize (bundleResetIndexes bundle) with
  | some bundle' => .ok () bundle'
  | none => .error (if bundle = [] then .undefinedRead else .outOfRounds) bundle

/-- Where the remainder goes: to the address that was named, or to `new_addresses->prev->hash`. -/
def remainderAddress (security : UInt8) (remainder : Option (List FlexTrit)) :
    EStateM ClientRetcode BundleTransactions (List FlexTrit) := fun bundle =>
  match remainder with
  | some address => .ok address bundle
  | none =>
    match getNewAddress K E N seed rounds.scan ⟨0, 0, security⟩ [] with
    | .error e _ => .error e bundle
    | .ok () newAddresses =>
      match newAddresses.getLast? with
      | some address => .ok address bundle
      | none => .error .undefinedRead bundle

/-- The loop of `add_remainder`. The result says where a remainder has gone. -/
def addRemainderLoop (security : UInt8) (inputs : List ClientInput) (tag : List FlexTrit)
    (remainder : Option (List FlexTrit)) (timestamp : UInt64) :
    List ClientInput → Int64 → EStateM ClientRetcode BundleTransactions (Option (List FlexTrit))
  | [], _ => fail .insufficientBalance
  | input :: rest, totalTransferValue =>
    if input.balance = 0 then
      addRemainderLoop security inputs tag remainder timestamp rest totalTransferValue
    else do
      addTransactionEntry E security.toNat input.address (0 - input.balance) tag timestamp
      if totalTransferValue ≤ input.balance then
        if 0 < input.balance - totalTransferValue then do
          let address ← remainderAddress K E N seed rounds security remainder
          addTransactionEntry E 1 address (input.balance - totalTransferValue) tag timestamp
          signBundle K E beyond seed rounds inputs
          pure (some address)
        else do
          signBundle K E beyond seed rounds inputs
          pure none
      else
        addRemainderLoop security inputs tag remainder timestamp rest
          (totalTransferValue - input.balance)

/-- `add_remainder`. An array that was never made is read through a null pointer. -/
def addRemainder (security : UInt8) (inputs : List ClientInput) (tag : List FlexTrit)
    (total : Int64) (remainder : Option (List FlexTrit)) (timestamp : UInt64) :
    EStateM ClientRetcode BundleTransactions (Option (List FlexTrit)) :=
  if inputs = [] then fail .undefinedRead
  else addRemainderLoop K E N beyond seed rounds security inputs tag remainder timestamp inputs total

/-- `check_balances`, and what is made of it. -/
def checkBalances (inputs : List ClientInput) : EStateM ClientRetcode BundleTransactions Unit :=
  match N.getBalances (inputs.map (·.address)) with
  | .error _ => fail .checkBalance
  | .ok balances =>
    if inputs.map (·.balance) = balances.map (·.toInt64) then pure () else fail .checkBalance

/-- The inputs of the caller, or those of the seed. -/
def sourceInputs (security : UInt8) (inputs : List ClientInput) (validateInputs : Bool)
    (totalValue : Int64) : EStateM ClientRetcode BundleTransactions (List ClientInput) :=
  if inputs ≠ [] then
    if validateInputs then do
      checkBalances N inputs
      pure inputs
    else pure inputs
  else fun bundle =>
    match getInputs K E N seed rounds.scan ⟨0, 0, security⟩ totalValue ⟨0, []⟩ with
    | .error e _ => .error e bundle
    | .ok () localInputs => .ok localInputs.inputArray bundle

/-- `iota_client_prepare_transfers`. The result says where a remainder has gone. -/
def prepareTransfers (security : UInt8) (transfers : List Transfer)
    (remainder : Option (List FlexTrit)) (inputs : List ClientInput) (validateInputs : Bool)
    (timestamp now : UInt64) :
    EStateM ClientRetcode BundleTransactions (Option (List FlexTrit)) := do
  update fun bundle => bundle ++ transfers.flatMap fun t =>
    transactionEntries E (1 + t.msgLen / 2187) t.address t.value t.tag
      (if timestamp = 0 then now else timestamp)
  let totalValue := transfers.foldl (fun total t => total + t.value) 0
  if totalValue ≠ 0 then do
    let sources ← sourceInputs K E N seed rounds security inputs validateInputs totalValue
    addRemainder K E N beyond seed rounds security sources
      ((transfers.getLast?.map (·.tag)).getD []) totalValue remainder now
  else do
    finalizeBundle K E rounds
    pure none

end

end Client

end Entangled
