import Entangled.Common.Process
import Entangled.LocalSnapshot.Service
/-!
# The transaction solidifier

`transaction_solidifier.c`: a transaction is solid once its whole past is
stored. Two ways lead to the flag. `check_solidity` walks the past of one
transaction and flags all it met at once, unless something was missing or the
walk was cut short; `check_and_update_solid_state` looks at trunk and branch of
one transaction, and the propagation thread calls it for the approvers of what
was flagged before.

The threads of the node share the store, so these functions are processes: each
call of the store is a step, and anything can happen between two of them.
-/

namespace Entangled

open Prog

variable {Hash : Type} [DecidableEq Hash] [HashBytes Hash] {δ : Type}

/-- What the threads of the solidifier share: the store, the set
`newly_set_solid_transactions`, the tips cache and the flag `running`. -/
structure Solidifier (Hash : Type) [HashBytes Hash] where
  tangle : Tangle Hash
  newlySetSolid : List Hash
  tips : TipsCache Hash
  running : Bool

/-- What stays as it is: the configuration, the initial snapshot, and whether there
is a transaction requester. -/
structure Solidifier.Setup (Hash : Type) where
  conf : Conf Hash
  initial : Snapshot Hash
  requester : Bool
  uninit : Uninit Hash

/-- Functions of the solidifier. -/
abbrev SolidifierP (Hash : Type) [HashBytes Hash] := Process Retcode (Solidifier Hash)

namespace Tangle

/-- `request_transaction`. The queue of the requester is left out: only whether the
call succeeds is seen here. -/
def requestTransaction (requester : Bool) : TangleM Hash Unit :=
  if requester then attemptAs .requesterFailed .requestTransaction else fail .nullParam

end Tangle

namespace Walk

/-- A walk as a function on the store, with the pack and the data of the caller
apart. -/
def apart {α : Type} (x : WalkM Hash δ α) (l : Pack Hash × δ) :
    TangleM Hash (α × Pack Hash × δ) := fun t =>
  match x ⟨t, l.1, l.2⟩ with
  | .ok a w => .ok (a, w.pack, w.data) w.tangle
  | .error e w => .error e w.tangle

end Walk

namespace Solidifier

/-- Run a function on the store, without interruption. -/
def inTangle {α : Type} (x : TangleM Hash α) : EStateM Retcode (Solidifier Hash) α :=
  zoom Solidifier.tangle (fun t s => { s with tangle := t }) x

/-- Run a function on the store in one step. -/
def onTangle {α : Type} (x : TangleM Hash α) : SolidifierP Hash α := .atomic (inTangle x)

/-- Change the tips cache. -/
def onTips (f : TipsCache Hash → TipsCache Hash) : SolidifierP Hash Unit :=
  .atomic (update fun s => { s with tips := f s.tips })

/-- `tangle_traversal_dfs_to_past`, a round at a time. Transactions arrive while the
walk is under way, so its rounds have no bound in the store it starts from. -/
def dfsToPast (func : Hash → List Hash → WalkM Hash δ (Verdict Hash)) (rounds : ℕ)
    (entryPoint genesis : Hash) (analyzed : List Hash) (data : δ) :
    SolidifierP Hash (List Hash × Pack Hash × δ) :=
  .searching (fun h seen l => inTangle (Walk.apart (Walk.visitPast func h seen) l)) .outOfRounds
    rounds [entryPoint] (hashSetAdd analyzed genesis) (⟨none, false⟩, data)

/-- `check_solidity_do_func_params_t`. -/
structure CheckParams (Hash : Type) where
  isSolid : Bool
  candidates : List Hash
  maxAnalyzed : Int32

/-- `check_solidity_do_func`. -/
def checkSolidityFunc (requester : Bool) (entryPoints : List Hash) (h : Hash)
    (analyzed : List Hash) : WalkM Hash (CheckParams Hash) (Verdict Hash) := do
  let p ← gets fun w => w.data
  if p.maxAnalyzed = 0 then do
    Walk.setData fun p => { p with isSolid := false }
    pure ⟨false, true, analyzed⟩
  else do
    Walk.setData fun p => { p with maxAnalyzed := p.maxAnalyzed - 1 }
    let pack ← gets fun w => w.pack
    if pack.loaded then
      match pack.model with
      | none => fail .undefinedRead
      | some tx =>
        if tx.solid then pure ⟨false, false, analyzed⟩
        else do
          Walk.setData fun p => { p with candidates := hashSetAdd p.candidates h }
          pure ⟨true, false, analyzed⟩
    else if h ∈ entryPoints then pure ⟨false, false, analyzed⟩
    else do
      Walk.setData fun p => { p with isSolid := false }
      Walk.onTangle (Tangle.requestTransaction requester)
      pure ⟨false, false, analyzed⟩

variable (setup : Setup Hash)

/-- The hashes `iota_snapshot_solid_entry_points_set` copies. -/
def entryPointsSet : List Hash := hashSetAppend [] setup.initial.solidEntryPoints.keys

/-- `iota_consensus_transaction_solidifier_check_solidity`; the last argument is what
`is_solid` points to, which stays when the walk found the transaction not solid.
Without a row for the hash the flag is read from a buffer nothing was loaded
into. An update that fails does not keep the candidates from the propagation. -/
def checkSolidity (rounds : ℕ) (hash : Hash) (maxAnalyzed : Int32) (isSolid : Bool) :
    SolidifierP Hash Bool := do
  let o ← onTangle (Tangle.transactionLoadPartial hash)
  if (o.map (·.solid)).getD setup.uninit.solid then pure true
  else do
    let entryPoints := entryPointsSet setup
    let r ← dfsToPast (checkSolidityFunc setup.requester entryPoints) rounds hash
      setup.conf.genesisHash entryPoints
      ⟨true, [], maxAnalyzed + Int32.ofNat entryPoints.length⟩
    let params := r.2.2
    if params.isSolid then do
      let ret ← (onTangle (Tangle.transactionsUpdateSolidity params.candidates true)).attempted
      .atomic (update fun s => { s with
        newlySetSolid := hashSetAppend s.newlySetSolid params.candidates })
      match ret with
      | .ok _ => pure true
      | .error e => .failed e
    else pure isSolid

/-- `check_approvee_solid_state`. -/
def checkApproveeSolidState (approvee : Hash) : SolidifierP Hash Bool :=
  if approvee ∈ setup.initial.solidEntryPoints.keys then pure true
  else do
    match ← onTangle (Tangle.transactionLoadPartial approvee) with
    | none => pure false
    | some tx => if approvee = setup.conf.genesisHash then pure true else pure tx.solid

/-- `check_transaction_and_update_solid_state`; it returns `is_new_solid`. -/
def checkTransactionAndUpdateSolidState (hash : Hash) : SolidifierP Hash Bool :=
  if hash ∈ setup.initial.solidEntryPoints.keys then pure false
  else do
    match ← onTangle (Tangle.transactionLoadPartial hash) with
    | none => pure false
    | some tx =>
      if tx.solid then pure false
      else do
        let isTrunkSolid ← checkApproveeSolidState setup tx.trunk
        let isBranchSolid ← checkApproveeSolidState setup tx.branch
        if isTrunkSolid && isBranchSolid then do
          onTangle (Tangle.transactionUpdateSolidity hash true)
          pure true
        else pure false

/-- `add_new_solid_transaction`. -/
def addNewSolidTransaction (hash : Hash) : SolidifierP Hash Unit := do
  .atomic (update fun s => { s with newlySetSolid := hashSetAdd s.newlySetSolid hash })
  onTips fun c => c.setSolid hash

/-- `iota_consensus_transaction_solidifier_check_and_update_solid_state`. -/
def checkAndUpdateSolidState (hash : Hash) : SolidifierP Hash Unit :=
  if setup.requester = false then pure ()
  else do
    let isNewSolid ← checkTransactionAndUpdateSolidState setup hash
    if isNewSolid then addNewSolidTransaction hash else pure ()

/-- The inner loop of `propagate_solid_transactions`. -/
def propagateToApprovers (toPropagate : List Hash) : List Hash → SolidifierP Hash Unit
  | [] => pure ()
  | approver :: rest =>
    if approver ∈ toPropagate then propagateToApprovers toPropagate rest
    else do
      checkAndUpdateSolidState setup approver
      propagateToApprovers toPropagate rest

/-- The outer loop of `propagate_solid_transactions`. -/
def propagateLoop (toPropagate : List Hash) : List Hash → SolidifierP Hash Unit
  | [] => pure ()
  | hash :: rest => do
    let running ← Process.atomic (gets fun s => s.running)
    if running then do
      let approvers ← onTangle (Tangle.loadHashesOfApprovers hash)
      propagateToApprovers setup toPropagate approvers
      propagateLoop toPropagate rest
    else pure ()

/-- `propagate_solid_transactions`. -/
def propagateSolidTransactions : SolidifierP Hash Unit := do
  let toPropagate ← Process.atomic fun s => .ok s.newlySetSolid { s with newlySetSolid := [] }
  propagateLoop setup toPropagate toPropagate

/-- `iota_consensus_transaction_solidifier_update_status`, for a transaction that was
just stored. -/
def updateStatus (tx : Transaction Hash) : SolidifierP Hash Unit :=
  if setup.requester = false then .failed .nullParam
  else do
    let approversCount ← onTangle (Tangle.transactionApproversCount tx.hash)
    onTips fun c => if approversCount = 0 then c.add tx.hash else c
    onTips fun c => c.remove tx.trunk
    onTips fun c => c.remove tx.branch
    checkAndUpdateSolidState setup tx.hash

end Solidifier

omit [DecidableEq Hash] in
theorem Tangle.keeps_requestTransaction (requester : Bool) :
    Keeps SameTables (requestTransaction requester : TangleM Hash Unit) := by
  cases requester with
  | true => exact keeps_attemptAs Retcode.requesterFailed rfl
  | false => exact Keeps.fail .refl Retcode.nullParam

omit [DecidableEq Hash] in
theorem Walk.apart_eq_ok {α : Type} {x : WalkM Hash δ α} {l l' : Pack Hash × δ} {a : α}
    {t t' : Tangle Hash} :
    apart x l t = .ok (a, l') t' ↔ x ⟨t, l.1, l.2⟩ = .ok a ⟨t', l'.1, l'.2⟩ := by
  unfold apart
  cases x ⟨t, l.1, l.2⟩ with
  | ok b w =>
    constructor
    · intro h; cases h; rfl
    · intro h; cases h; rfl
  | error e w => simp

omit [DecidableEq Hash] in
theorem Walk.keeps_apart {α : Type} {R : Tangle Hash → Tangle Hash → Prop} {x : WalkM Hash δ α}
    (hx : Keeps (OnTangle R) x) (l : Pack Hash × δ) : Keeps R (apart x l) := by
  intro t
  have h := hx ⟨t, l.1, l.2⟩
  unfold final apart
  cases hr : x ⟨t, l.1, l.2⟩ with
  | ok a w => rwa [final_of_ok hr] at h
  | error e w => rwa [final_of_error hr] at h

namespace Solidifier

theorem keeps_checkSolidityFunc (requester : Bool) (entryPoints : List Hash) (h : Hash)
    (analyzed : List Hash) :
    Keeps (Walk.OnTangle Tangle.SameTables)
      (checkSolidityFunc requester entryPoints h analyzed) := by
  have htrans : ∀ {u v x : Walk Hash (CheckParams Hash)},
      Walk.OnTangle Tangle.SameTables u v → Walk.OnTangle Tangle.SameTables v x →
        Walk.OnTangle Tangle.SameTables u x := Walk.OnTangle.trans Tangle.storeFrame_sameTables
  have hset : ∀ f : CheckParams Hash → CheckParams Hash,
      Keeps (Walk.OnTangle Tangle.SameTables) (Walk.setData f : WalkM Hash _ Unit) :=
    fun f w => .refl w.tangle
  have hpure : ∀ v : Verdict Hash, Keeps (Walk.OnTangle Tangle.SameTables)
      (pure v : WalkM Hash (CheckParams Hash) (Verdict Hash)) := fun v w => .refl w.tangle
  refine Keeps.bind htrans (fun w => .refl w.tangle) fun p => ?_
  split
  · exact Keeps.bind htrans (hset _) fun _ => hpure _
  refine Keeps.bind htrans (hset _) fun _ => ?_
  refine Keeps.bind htrans (fun w => .refl w.tangle) fun pack => ?_
  split
  · split
    · exact fun w => .refl w.tangle
    · split
      · exact hpure _
      · exact Keeps.bind htrans (hset _) fun _ => hpure _
  · split
    · exact hpure _
    · refine Keeps.bind htrans (hset _) fun _ => ?_
      exact Keeps.bind htrans (Walk.keeps_onTangle (Tangle.keeps_requestTransaction requester))
        fun _ => hpure _

/-! ## Without interruption -/

variable {α : Type} {x : TangleM Hash α} {s : Solidifier Hash} {t : Tangle Hash}

omit [DecidableEq Hash] in
theorem inTangle_of_ok {a : α} (h : x s.tangle = .ok a t) :
    inTangle x s = .ok a { s with tangle := t } := zoom_eq_ok.mpr ⟨t, h, rfl⟩

omit [DecidableEq Hash] in
theorem inTangle_of_error {e : Retcode} (h : x s.tangle = .error e t) :
    inTangle x s = .error e { s with tangle := t } := zoom_eq_error.mpr ⟨t, h, rfl⟩

/-- The loop of the walk, uninterrupted. -/
theorem run_searching (func : Hash → List Hash → WalkM Hash δ (Verdict Hash)) (n : ℕ)
    (stack seen : List Hash) (l : Pack Hash × δ) (s : Solidifier Hash) :
    (Process.searching (fun h seen l => inTangle (Walk.apart (Walk.visitPast func h seen) l))
      .outOfRounds n stack seen l).run s =
      inTangle (Walk.apart (Search.search (Walk.visitPast func) .outOfRounds n stack seen) l)
        s := by
  induction n generalizing stack seen l s with
  | zero => cases stack <;> rfl
  | succ n ih =>
    cases stack with
    | nil => rfl
    | cons h stack =>
      rw [Process.searching, Search.search]
      by_cases hh : h ∈ seen
      · rw [if_pos hh, if_pos hh]
        exact ih stack seen l s
      · rw [if_neg hh, if_neg hh, Process.run_bind, Process.run_atomic]
        cases hv : Walk.visitPast func h seen ⟨s.tangle, l.1, l.2⟩ with
        | error e w =>
          have hround : Walk.apart (Walk.visitPast func h seen) l s.tangle =
              .error e w.tangle := by
            rw [Walk.apart, hv]
          rw [bind_apply_error (inTangle_of_error hround)]
          refine (inTangle_of_error ?_).symm
          rw [Walk.apart, bind_apply_error hv]
        | ok v w =>
          have hround : Walk.apart (Walk.visitPast func h seen) l s.tangle =
              .ok (v, w.pack, w.data) w.tangle := by
            rw [Walk.apart, hv]
          rw [bind_apply_ok (inTangle_of_ok hround)]
          unfold inTangle zoom Walk.apart
          rw [bind_apply_ok hv]
          cases hstop : v.stop with
          | true => rfl
          | false => exact ih _ _ _ _

/-- **The walk as a process is the walk**, when nothing interrupts it. -/
theorem run_dfsToPast (func : Hash → List Hash → WalkM Hash δ (Verdict Hash))
    (entryPoint genesis : Hash) (analyzed : List Hash) (data : δ) (s : Solidifier Hash) :
    (dfsToPast func (Walk.pastRounds s.tangle) entryPoint genesis analyzed data).run s =
      inTangle (Walk.apart (Walk.dfsToPast func entryPoint genesis analyzed)
        (⟨none, false⟩, data)) s :=
  run_searching func _ _ _ _ s

end Solidifier

end Entangled
