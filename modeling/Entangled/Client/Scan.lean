import Entangled.Common.Loop
import Entangled.Signing.Bundle
/-!
# Scanning the addresses of a seed

`get_new_address.c`, `get_inputs.c` and `get_account_data.c`: each of them generates the addresses
of a seed one after the other and asks the node about them, until `is_used_address` says of one that
it has not been used.

A node forgets transactions when it takes a snapshot. That an address has been spent from it keeps.
-/

namespace Entangled

open Prog Trinary

variable {σ : Type}

/-- The codes of the client. -/
inductive ClientRetcode
  | error
  | oom
  | nullPtr
  | invalidSecurity
  | insufficientBalance
  | checkBalance
  | bundleSign
  | coreApi
  | undefinedRead
  | undefinedWrite
  | outOfRounds
  deriving DecidableEq, Repr

/-- The calls to a node. -/
inductive NodeCall
  | wereAddressesSpentFrom (address : List FlexTrit)
  | findTransactions (address : List FlexTrit)
  | getBalances (addresses : List (List FlexTrit))

/-- What a node knows of addresses, and which calls to it fail. -/
structure ClientNode where
  spent : List FlexTrit → Bool
  transactions : List FlexTrit → List (List FlexTrit)
  balance : List FlexTrit → UInt64
  fault : NodeCall → Option ClientRetcode

namespace ClientNode

variable (N : ClientNode)

/-- The answer to a call. -/
def answer {α : Type} (call : NodeCall) (a : α) : Except ClientRetcode α :=
  match N.fault call with
  | some e => .error e
  | none => .ok a

/-- `iota_client_were_addresses_spent_from`, for one address. -/
def wereAddressesSpentFrom (address : List FlexTrit) : Except ClientRetcode Bool :=
  N.answer (.wereAddressesSpentFrom address) (N.spent address)

/-- `iota_client_find_transactions`, for one address. -/
def findTransactions (address : List FlexTrit) : Except ClientRetcode (List (List FlexTrit)) :=
  N.answer (.findTransactions address) (N.transactions address)

/-- `iota_client_get_balances`. -/
def getBalances (addresses : List (List FlexTrit)) : Except ClientRetcode (List UInt64) :=
  N.answer (.getBalances addresses) (addresses.map N.balance)

end ClientNode

/-- What `is_used_address` returns, and what it leaves in `is_used` and `transactions`. -/
structure AddressUse where
  ret : Except ClientRetcode Unit
  isUsed : Bool
  transactions : List (List FlexTrit)

/-- `ret == RC_OK && !is_used`. -/
def AddressUse.unused (use : AddressUse) : Bool :=
  match use.ret with
  | .ok () => !use.isUsed
  | .error _ => false

/-- `address_opt_t`. -/
structure AddressOpt where
  start : UInt64
  total : UInt64
  security : UInt8

/-- `input_t`. -/
structure ClientInput extends Input where
  balance : Int64
  deriving DecidableEq

/-- `inputs_t`. -/
structure ClientInputs where
  totalBalance : Int64
  inputArray : List ClientInput

/-- `account_data_t`. -/
structure AccountData where
  balance : UInt64
  latestAddress : List FlexTrit
  addresses : List (List FlexTrit)
  transactions : List (List FlexTrit)
  balances : List UInt64

namespace Client

section

variable (N : ClientNode)

/-- `was_address_spent_from`, and what it leaves in `is_spent`. -/
def wasAddressSpentFrom (addr : List FlexTrit) (isSpent : Bool) : Except ClientRetcode Unit × Bool :=
  match N.wereAddressesSpentFrom addr with
  | .error e => (.error e, isSpent)
  | .ok state => (.ok (), state)

/-- `find_transactions_by_address`. -/
def findTransactionsByAddress (addr : List FlexTrit) (isUsed getTxList : Bool)
    (txs : List (List FlexTrit)) : AddressUse :=
  match N.findTransactions addr with
  | .error e => ⟨.error e, isUsed, txs⟩
  | .ok hashes =>
    if hashes = [] then ⟨.ok (), false, txs⟩
    else ⟨.ok (), true, if getTxList then txs ++ hashes else txs⟩

/-- `is_used_address`. The two queries write one flag, and only the code of the second is kept. -/
def isUsedAddress (addr : List FlexTrit) (isUsed withTxs : Bool)
    (transactions : List (List FlexTrit)) : AddressUse :=
  findTransactionsByAddress N addr (wasAddressSpentFrom N addr isUsed).2 withTxs transactions

end

section

variable (K : Kerl σ) (E : Encoding) (N : ClientNode) (seed : List FlexTrit)

/-! ## `iota_client_get_new_address` -/

/-- One turn of the loop with a total. -/
def listTurn (opt : AddressOpt) (addrIndex : UInt64) :
    EStateM ClientRetcode (List (List FlexTrit)) (Loop.Turn UInt64 Unit) :=
  if addrIndex < opt.total then
    match iotaSignAddressGenFlexTrits K E seed addrIndex opt.security.toNat with
    | none => fail .oom
    | some tmp => do
      update fun outAddresses => outAddresses ++ [tmp]
      pure (.again (addrIndex + 1))
  else pure (.done ())

/-- One turn of the loop without. The locals are the index and the flag. -/
def latestTurn (opt : AddressOpt) (l : UInt64 × Bool) :
    EStateM ClientRetcode (List (List FlexTrit)) (Loop.Turn (UInt64 × Bool) Unit) :=
  match iotaSignAddressGenFlexTrits K E seed l.1 opt.security.toNat with
  | none => fail .oom
  | some tmp => do
    update fun outAddresses => outAddresses ++ [tmp]
    let use := isUsedAddress N tmp l.2 false []
    if use.unused then pure (.done ()) else pure (.again (l.1 + 1, use.isUsed))

/-- `iota_client_get_new_address`. -/
def getNewAddress (rounds : ℕ) (opt : AddressOpt) :
    EStateM ClientRetcode (List (List FlexTrit)) Unit :=
  if opt.security = 0 ∨ 3 < opt.security then fail .invalidSecurity
  else if opt.total ≠ 0 then
    if opt.start < opt.total then
      Loop.run (listTurn K E seed opt) .outOfRounds rounds opt.start
    else fail .error
  else Loop.run (latestTurn K E N seed opt) .outOfRounds rounds (0, false)

/-! ## `iota_client_get_inputs` -/

/-- How the loop of `iota_client_get_inputs` is left: at an address that is not used, with the
balance there, or at the last index. -/
inductive InputsEnd
  | unused
  | balanced
  | ended
  deriving DecidableEq

/-- The locals of `iota_client_get_inputs`. -/
structure InputsLocals where
  addrIndex : UInt64
  retCode : Except ClientRetcode Unit
  isUsed : Bool

/-- One turn of the loop of `iota_client_get_inputs`. -/
def inputsTurn (opt : AddressOpt) (threshold : Int64) (addrIndexEnd : UInt64) (l : InputsLocals) :
    EStateM ClientRetcode ClientInputs
      (Loop.Turn InputsLocals (InputsEnd × Except ClientRetcode Unit)) :=
  if l.addrIndex < addrIndexEnd then
    match iotaSignAddressGenFlexTrits K E seed l.addrIndex opt.security.toNat with
    | none => fail .oom
    | some addr =>
      let use := isUsedAddress N addr l.isUsed false []
      if opt.total = 0 ∧ use.unused then pure (.done (.unused, .ok ()))
      else
        let isUsed := if opt.total = 0 then use.isUsed else l.isUsed
        match N.getBalances [addr] with
        | .error e => pure (.again ⟨l.addrIndex + 1, .error e, isUsed⟩)
        | .ok balances => do
          let outInputs ← gets id
          if outInputs.totalBalance < threshold then do
            let balance := (balances.getD 0 0).toInt64
            update fun s => ⟨s.totalBalance + balance,
              s.inputArray ++ [⟨⟨l.addrIndex, opt.security, addr⟩, balance⟩]⟩
            pure (.again ⟨l.addrIndex + 1, .ok (), isUsed⟩)
          else pure (.done (.balanced, .ok ()))
  else pure (.done (.ended, l.retCode))

/-- `iota_client_get_inputs`. -/
def getInputs (rounds : ℕ) (opt : AddressOpt) (threshold : Int64) :
    EStateM ClientRetcode ClientInputs Unit := do
  update fun s => { s with totalBalance := 0 }
  let r ← Loop.run (inputsTurn K E N seed opt threshold
      (if opt.total = 0 then 0 - 1 else opt.total)) .outOfRounds rounds
    ⟨if opt.total = 0 then 0 else opt.start, .error .error, false⟩
  let outInputs ← gets id
  if outInputs.totalBalance < threshold then fail .insufficientBalance
  else
    match r.2 with
    | .error e => fail e
    | .ok () => pure ()

/-! ## `iota_client_get_account_data` -/

/-- One turn of the loop of `iota_client_get_account_data`. -/
def accountTurn (security : UInt8) (addrIndex : UInt64) :
    EStateM ClientRetcode AccountData (Loop.Turn UInt64 Unit) :=
  match iotaSignAddressGenFlexTrits K E seed addrIndex security.toNat with
  | none => fail .nullPtr
  | some tmpAddr => do
    let account ← gets id
    let use := isUsedAddress N tmpAddr false true account.transactions
    update fun a => { a with transactions := use.transactions }
    match use.ret with
    | .error e => fail e
    | .ok () =>
      if use.isUsed then do
        update fun a => { a with addresses := a.addresses ++ [tmpAddr] }
        pure (.again (addrIndex + 1))
      else do
        update fun a => { a with latestAddress := tmpAddr }
        pure (.done ())

/-- `iota_client_get_account_data`. -/
def getAccountData (rounds : ℕ) (security : UInt8) : EStateM ClientRetcode AccountData Unit :=
  if security = 0 ∨ 3 < security then fail .invalidSecurity
  else do
    Loop.run (accountTurn K E N seed security) .outOfRounds rounds 0
    let account ← gets id
    if account.addresses = [] then pure ()
    else do
      update fun a => { a with balance := 0 }
      match N.getBalances account.addresses with
      | .error e => fail e
      | .ok balances =>
        update fun a => { a with
          balance := balances.foldl (fun sum balance => sum + balance) a.balance
          balances := a.balances ++ balances }

end

end Client

end Entangled
