import Entangled.Snapshot.Codec
/-!
# The tangle store

The two tables of the database and the calls on them. A call either fails with
a storage error and changes nothing, since every write runs in a transaction of
the database, or does what its statement says. Which calls fail is read off the
faults.

Validating a bundle writes the `validity` column and nothing else, in the
middle of other work; `core` forgets that column, and most of what is said
about a run is said up to it.
-/

namespace Entangled

open Prog

/-- A transaction as it is inserted: the metadata columns take their defaults. -/
def Transaction.asStored {Hash : Type} (tx : Transaction Hash) : Transaction Hash :=
  { tx with snapshotIndex := 0, solid := false, validity := .notInitialized }

/-- A row of the milestone table: the milestone, and the blob of its state
delta once one was stored. -/
structure MilestoneRow (Hash : Type) [HashBytes Hash] where
  milestone : Milestone Hash
  delta : Option (Blob Hash)

/-- The index of the milestone in a row. -/
def MilestoneRow.index {Hash : Type} [HashBytes Hash] (r : MilestoneRow Hash) : ℕ :=
  r.milestone.index

/-- The milestone table, whose index is the primary key and whose hash is
unique. -/
structure Milestones (Hash : Type) [HashBytes Hash] extends
    Table (fun r : MilestoneRow Hash => r.index) where
  nodupHash : (rows.map fun r => r.milestone.hash).Nodup

theorem nodup_noHash :
    (([] : List (MilestoneRow (Fin 256))).map fun r => r.milestone.hash).Nodup := by decide

theorem nodup_firstIndex :
    ([(⟨⟨1, 1⟩, none⟩ : MilestoneRow (Fin 256))].map fun r => r.index).Nodup := by decide

theorem nodup_firstHash :
    ([(⟨⟨1, 1⟩, none⟩ : MilestoneRow (Fin 256))].map fun r => r.milestone.hash).Nodup := by decide

/-- The database. -/
structure Tangle (Hash : Type) [HashBytes Hash] where
  transactions : Table (fun tx : Transaction Hash => tx.hash)
  milestones : Milestones Hash
  faults : Faults

/-- Functions on the database. -/
abbrev TangleM (Hash : Type) [HashBytes Hash] := EStateM Retcode (Tangle Hash)

variable {Hash : Type} [DecidableEq Hash] [HashBytes Hash]

namespace Milestones

/-- `UPDATE … SET delta`. -/
def setDelta (ms : Milestones Hash) (index : ℕ) (b : Blob Hash) : Milestones Hash where
  toTable := ms.update (fun r => if r.index = index then { r with delta := some b } else r)
    (fun r => by split <;> rfl)
  nodupHash := by
    have h : ∀ r : MilestoneRow Hash,
        (if r.index = index then { r with delta := some b } else r).milestone.hash =
          r.milestone.hash := fun r => by split <;> rfl
    have hc := ms.nodupHash
    simpa only [Table.update, List.map_map, Function.comp_def, h] using hc

/-- `DELETE … WHERE hash`. -/
def deleteHash (ms : Milestones Hash) (hash : Hash) : Milestones Hash where
  toTable := ms.delete fun r => decide (r.milestone.hash = hash)
  nodupHash := ms.nodupHash.sublist (List.filter_sublist.map _)

omit [DecidableEq Hash] in
theorem index_of_find? {ms : Milestones Hash} {index : ℕ} {r : MilestoneRow Hash}
    (h : ms.find? index = some r) : r.milestone.index = index := by
  have hk : r.index = index := Table.key_of_find? h
  exact hk

end Milestones

namespace Tangle

/-- Run up to a call that may fail: the next outcome at its site decides. -/
def attempt (site : Site) : TangleM Hash Unit := fun t =>
  match t.faults site with
  | [] => .ok () t
  | false :: rest => .ok () { t with faults := Function.update t.faults site rest }
  | true :: rest => .error .storageFailed { t with faults := Function.update t.faults site rest }

/-- A call outside the store, with an error code of its own. -/
def attemptAs (e : Retcode) (site : Site) : TangleM Hash Unit := fun t =>
  match attempt site t with
  | .ok _ t' => .ok () t'
  | .error _ t' => .error e t'

/-- Add the row of a new transaction. -/
def withTransaction (t : Tangle Hash) (tx : Transaction Hash) : Tangle Hash :=
  { t with transactions := t.transactions.insert tx.asStored }

/-- `iota_tangle_transaction_store`. A hash that is taken violates the primary key. -/
def transactionStore (tx : Transaction Hash) : TangleM Hash Unit := do
  attempt .transactionStore
  let taken ← gets fun t => decide (tx.hash ∈ t.transactions.keys)
  if taken then fail .storageFailed else update fun t => t.withTransaction tx

/-- `iota_tangle_transaction_load` by hash. -/
def transactionLoad (h : Hash) : TangleM Hash (Option (Transaction Hash)) := do
  attempt .transactionLoad
  gets fun t => t.transactions.find? h

/-- `iota_tangle_transaction_load_partial`. -/
def transactionLoadPartial (h : Hash) : TangleM Hash (Option (Transaction Hash)) := do
  attempt .transactionLoadPartial
  gets fun t => t.transactions.find? h

/-- The rows whose trunk or branch is `h`. -/
def approvers (t : Tangle Hash) (h : Hash) : List Hash :=
  (t.transactions.rows.filter fun tx => decide (tx.branch = h ∨ tx.trunk = h)).map (·.hash)

/-- `iota_tangle_transaction_load_hashes_of_approvers`. -/
def loadHashesOfApprovers (h : Hash) : TangleM Hash (List Hash) := do
  attempt .approversLoad
  gets fun t => t.approvers h

/-- `iota_tangle_transaction_approvers_count`. -/
def transactionApproversCount (h : Hash) : TangleM Hash ℕ := do
  attempt .approversCount
  gets fun t => (t.approvers h).length

/-- Rewrite transaction rows in place. -/
def mapTransactions (t : Tangle Hash) (f : Transaction Hash → Transaction Hash)
    (hf : ∀ tx, (f tx).hash = tx.hash) : Tangle Hash :=
  { t with transactions := t.transactions.update f hf }

/-- Set the snapshot index of the rows with these hashes. -/
def withSnapshotIndex (t : Tangle Hash) (hashes : List Hash) (index : ℕ) : Tangle Hash :=
  t.mapTransactions (fun tx => if tx.hash ∈ hashes then { tx with snapshotIndex := index } else tx)
    fun tx => by split <;> rfl

/-- `iota_tangle_transactions_update_snapshot_index`. -/
def updateSnapshotIndex (hashes : List Hash) (index : ℕ) : TangleM Hash Unit := do
  attempt .updateSnapshotIndex
  update fun t => t.withSnapshotIndex hashes index

/-- Set the solid flag of the rows with these hashes. -/
def withSolidity (t : Tangle Hash) (hashes : List Hash) (isSolid : Bool) : Tangle Hash :=
  t.mapTransactions (fun tx => if tx.hash ∈ hashes then { tx with solid := isSolid } else tx)
    fun tx => by split <;> rfl

/-- `iota_tangle_transactions_update_solidity`. -/
def transactionsUpdateSolidity (hashes : List Hash) (isSolid : Bool) : TangleM Hash Unit := do
  attempt .updateSolidity
  update fun t => t.withSolidity hashes isSolid

/-- `iota_tangle_transaction_update_solidity`. -/
def transactionUpdateSolidity (hash : Hash) (isSolid : Bool) : TangleM Hash Unit :=
  transactionsUpdateSolidity [hash] isSolid

/-- Set the validity of the rows with these hashes. -/
def withValidity (t : Tangle Hash) (hashes : List Hash) (status : BundleStatus) : Tangle Hash :=
  t.mapTransactions (fun tx => if tx.hash ∈ hashes then { tx with validity := status } else tx)
    fun tx => by split <;> rfl

/-- `iota_tangle_bundle_update_validity`. -/
def bundleUpdateValidity (bundle : List (Transaction Hash)) (status : BundleStatus) :
    TangleM Hash Unit := do
  attempt .updateValidity
  update fun t => t.withValidity (bundle.map (·.hash)) status

/-- Delete the rows with these hashes. -/
def withoutTransactions (t : Tangle Hash) (hashes : List Hash) : Tangle Hash :=
  { t with transactions := t.transactions.delete fun tx => decide (tx.hash ∈ hashes) }

/-- `iota_tangle_transactions_delete`. -/
def transactionsDelete (hashes : List Hash) : TangleM Hash Unit := do
  attempt .transactionsDelete
  update fun t => t.withoutTransactions hashes

/-- `iota_tangle_milestone_load_by_index`. -/
def milestoneLoadByIndex (index : ℕ) : TangleM Hash (Option (Milestone Hash)) := do
  attempt .milestoneLoad
  gets fun t => (t.milestones.find? index).map (·.milestone)

/-- `iota_tangle_milestone_delete`. -/
def milestoneDelete (hash : Hash) : TangleM Hash Unit := do
  attempt .milestoneDelete
  update fun t => { t with milestones := t.milestones.deleteHash hash }

/-- `iota_tangle_state_delta_store`. Without a row for the index the statement
updates nothing and still succeeds. -/
def stateDeltaStore (index : ℕ) (delta : StateDelta Hash) : TangleM Hash Unit := do
  attempt .stateDeltaStore
  update fun t => { t with milestones := t.milestones.setDelta index (StateDelta.serialize delta) }

/-- The delta stored for an index: a missing row and an empty column both read
as the empty delta. -/
def storedDelta (t : Tangle Hash) (index : ℕ) : StateDelta Hash :=
  match (t.milestones.find? index).bind (·.delta) with
  | some b => StateDelta.deserialize b
  | none => Table.empty

/-- `iota_tangle_state_delta_load`. -/
def stateDeltaLoad (index : ℕ) : TangleM Hash (StateDelta Hash) := do
  attempt .stateDeltaLoad
  gets fun t => t.storedDelta index

/-- Run a state delta function on a local delta; its allocations are those of
`site`. -/
def withHeap (site : Site) (d : StateDelta Hash)
    (x : EStateM Retcode (StateDelta.Heap Hash) Unit) : TangleM Hash (StateDelta Hash) := fun t =>
  match x ⟨d, t.faults site⟩ with
  | .ok _ m => .ok m.state { t with faults := Function.update t.faults site m.alloc }
  | .error e m => .error e { t with faults := Function.update t.faults site m.alloc }

theorem find?_withTransaction {t : Tangle Hash} {tx : Transaction Hash}
    (hk : tx.hash ∉ t.transactions.keys) (x : Hash) :
    (t.withTransaction tx).transactions.find? x =
      if tx.hash = x then some tx.asStored else t.transactions.find? x := by
  have hrow : tx.asStored.hash ∉ t.transactions.keys := hk
  exact Table.find?_insert hrow

theorem find?_mapTransactions {t : Tangle Hash} {f : Transaction Hash → Transaction Hash}
    {hf : ∀ tx, (f tx).hash = tx.hash} (x : Hash) :
    (t.mapTransactions f hf).transactions.find? x = (t.transactions.find? x).map f := by
  rw [mapTransactions, Table.find?_update]

/-! ## What a call leaves alone -/

/-- The tables are as they were, and so are the outcomes of the calls that would
change them for good. -/
structure SameTables (t t' : Tangle Hash) : Prop where
  transactions : t'.transactions = t.transactions
  milestones : t'.milestones = t.milestones
  commits : ∀ site, site.commits = true → t'.faults site = t.faults site

omit [DecidableEq Hash] in
@[simp] theorem SameTables.refl (t : Tangle Hash) : SameTables t t :=
  ⟨rfl, rfl, fun _ _ => rfl⟩

omit [DecidableEq Hash] in
theorem SameTables.trans {t u v : Tangle Hash} (h : SameTables t u) (h' : SameTables u v) :
    SameTables t v :=
  ⟨h'.1.trans h.1, h'.2.trans h.2, fun s hs => (h'.3 s hs).trans (h.3 s hs)⟩

/-- A relation of stores that calls which only read do not leave. -/
structure StoreFrame (R : Tangle Hash → Tangle Hash → Prop) : Prop where
  refl : ∀ t, R t t
  trans : ∀ {s t u}, R s t → R t u → R s u
  ofSameTables : ∀ {t t'}, SameTables t t' → R t t'

omit [DecidableEq Hash] in
theorem storeFrame_sameTables : StoreFrame (@SameTables Hash _) :=
  ⟨.refl, .trans, id⟩

omit [DecidableEq Hash] in
theorem faults_update_of_commits {f : Faults} {site s : Site} {l : List Bool}
    (h : site.commits = false) (hs : s.commits = true) : Function.update f site l s = f s := by
  refine Function.update_of_ne (fun he => ?_) _ _
  rw [he, h] at hs
  cases hs

omit [DecidableEq Hash] in
theorem keeps_attempt {site : Site} (h : site.commits = false) :
    Keeps SameTables (attempt site : TangleM Hash Unit) := by
  intro t
  unfold final attempt
  rcases t.faults site with _ | ⟨_ | _, rest⟩
  · exact .refl t
  · exact ⟨rfl, rfl, fun s hs => faults_update_of_commits h hs⟩
  · exact ⟨rfl, rfl, fun s hs => faults_update_of_commits h hs⟩

omit [DecidableEq Hash] in
theorem keeps_attemptAs {site : Site} (e : Retcode) (h : site.commits = false) :
    Keeps SameTables (attemptAs e site : TangleM Hash Unit) := by
  intro t
  have hk := keeps_attempt h t
  unfold final at hk ⊢
  unfold attemptAs
  cases ha : attempt site t with
  | ok a t' => rwa [ha] at hk
  | error e t' => rwa [ha] at hk

omit [DecidableEq Hash] in
/-- With no failure pending at its site a call goes through. -/
theorem attempt_of_head {site : Site} {t : Tangle Hash} (h : (t.faults site).head? ≠ some true) :
    attempt site t =
      .ok () { t with faults := Function.update t.faults site (t.faults site).tail } := by
  unfold attempt
  rcases hf : t.faults site with _ | ⟨_ | _, rest⟩
  · simp only [List.tail_nil]
    rw [← hf, Function.update_eq_self]
  · rfl
  · rw [hf] at h
    exact absurd rfl h

omit [DecidableEq Hash] in
/-- With no failures to come a call goes through and leaves none. -/
theorem attempt_of_nil {site : Site} {t : Tangle Hash} (h : t.faults = fun _ => []) :
    attempt site t = .ok () t := by
  unfold attempt
  rw [h]

/-- Nothing fails from here on. -/
def Quiet (t : Tangle Hash) : Prop := t.faults = fun _ => []

omit [DecidableEq Hash] in
theorem succeeds_attempt (site : Site) : Succeeds Quiet (attempt site : TangleM Hash Unit) :=
  fun t ht => ⟨(), t, attempt_of_nil ht, ht⟩

omit [DecidableEq Hash] in
theorem succeeds_read {α : Type} (site : Site) (f : Tangle Hash → α) :
    Succeeds Quiet (attempt site >>= fun _ => gets f : TangleM Hash α) :=
  Succeeds.bind (succeeds_attempt site) fun _ => Succeeds.gets f

omit [DecidableEq Hash] in
theorem attempt_ok {site : Site} {t t' : Tangle Hash} (h : attempt site t = .ok () t') :
    (t.faults site).head? ≠ some true ∧
      t' = { t with faults := Function.update t.faults site (t.faults site).tail } := by
  have hhead : (t.faults site).head? ≠ some true := by
    intro hh
    unfold attempt at h
    rcases hf : t.faults site with _ | ⟨_ | _, rest⟩
    · rw [hf] at hh; cases hh
    · rw [hf] at hh; cases hh
    · simp only [hf] at h
      cases h
  refine ⟨hhead, ?_⟩
  rw [attempt_of_head hhead] at h
  cases h
  rfl

omit [DecidableEq Hash] in
theorem attempt_error {site : Site} {t t' : Tangle Hash} {e : Retcode}
    (h : attempt site t = .error e t') :
    (t.faults site).head? = some true ∧
      t' = { t with faults := Function.update t.faults site (t.faults site).tail } := by
  unfold attempt at h
  rcases hf : t.faults site with _ | ⟨_ | _, rest⟩
  · simp only [hf] at h; cases h
  · simp only [hf] at h; cases h
  · simp only [hf] at h
    cases h
    exact ⟨rfl, rfl⟩

/-- A store whose next outcome at a site was used up. -/
def popped (t : Tangle Hash) (site : Site) : Tangle Hash :=
  { t with faults := Function.update t.faults site (t.faults site).tail }

/-- The next outcome at a site is not a failure. -/
def succeeds (t : Tangle Hash) (site : Site) : Bool := (t.faults site).head? != some true

omit [DecidableEq Hash] in
theorem attempt_eq (site : Site) (t : Tangle Hash) :
    attempt site t =
      if t.succeeds site then .ok () (t.popped site)
      else .error .storageFailed (t.popped site) := by
  unfold succeeds popped
  by_cases hh : (t.faults site).head? = some true
  · rw [hh, attempt]
    rcases hf : t.faults site with _ | ⟨_ | _, rest⟩
    · rw [hf] at hh; cases hh
    · rw [hf] at hh; cases hh
    · rfl
  · rw [attempt_of_head hh, if_pos (bne_iff_ne.mpr hh)]

omit [DecidableEq Hash] in
/-- A call that reads: on success it returns the reading of the tables. -/
theorem read_ok {α : Type} {site : Site} {f : Tangle Hash → α} {t t' : Tangle Hash} {a : α}
    (hsite : site.commits = false) (hf : ∀ {t t'}, SameTables t t' → f t' = f t)
    (h : (attempt site >>= fun _ => gets f) t = .ok a t') : a = f t ∧ SameTables t t' := by
  obtain ⟨_, t₁, h₁, h₂⟩ := bind_eq_ok.mp h
  cases h₂
  have hs := (keeps_attempt hsite).of_ok h₁
  exact ⟨hf hs, hs⟩

omit [DecidableEq Hash] in
theorem keeps_read {α : Type} {site : Site} (hsite : site.commits = false) (f : Tangle Hash → α) :
    Keeps SameTables (attempt site >>= fun _ => gets f : TangleM Hash α) :=
  Keeps.bind SameTables.trans (keeps_attempt hsite) fun _ => Keeps.gets .refl f

omit [DecidableEq Hash] in
theorem read_error {α : Type} {site : Site} {f : Tangle Hash → α} {t t' : Tangle Hash} {e : Retcode}
    (h : (attempt site >>= fun _ => gets f) t = .error e t') : e = .storageFailed := by
  rcases bind_eq_error.mp h with h₁ | ⟨_, t₁, -, h₂⟩
  · unfold attempt at h₁
    split at h₁ <;> cases h₁
    rfl
  · cases h₂

theorem transactionLoad_ok {h : Hash} {t t' : Tangle Hash} {o : Option (Transaction Hash)}
    (hr : transactionLoad h t = .ok o t') : o = t.transactions.find? h ∧ SameTables t t' :=
  read_ok rfl (fun hs => by rw [hs.1]) hr

theorem transactionLoadPartial_ok {h : Hash} {t t' : Tangle Hash} {o : Option (Transaction Hash)}
    (hr : transactionLoadPartial h t = .ok o t') :
    o = t.transactions.find? h ∧ SameTables t t' :=
  read_ok rfl (fun hs => by rw [hs.1]) hr

theorem loadHashesOfApprovers_ok {h : Hash} {t t' : Tangle Hash} {l : List Hash}
    (hr : loadHashesOfApprovers h t = .ok l t') : l = t.approvers h ∧ SameTables t t' :=
  read_ok rfl (fun hs => by unfold approvers; rw [hs.1]) hr

omit [DecidableEq Hash] in
theorem milestoneLoadByIndex_ok {i : ℕ} {t t' : Tangle Hash} {o : Option (Milestone Hash)}
    (hr : milestoneLoadByIndex i t = .ok o t') :
    o = (t.milestones.find? i).map (·.milestone) ∧ SameTables t t' :=
  read_ok rfl (fun hs => by rw [hs.2]) hr

omit [DecidableEq Hash] in
theorem stateDeltaLoad_ok {i : ℕ} {t t' : Tangle Hash} {d : StateDelta Hash}
    (hr : stateDeltaLoad i t = .ok d t') : d = t.storedDelta i ∧ SameTables t t' :=
  read_ok rfl (fun hs => by unfold storedDelta; rw [hs.2]) hr

omit [DecidableEq Hash] in
theorem withHeap_ok {site : Site} (hsite : site.commits = false) {d d' : StateDelta Hash}
    {x : EStateM Retcode (StateDelta.Heap Hash) Unit} {t t' : Tangle Hash}
    (h : withHeap site d x t = .ok d' t') :
    ∃ m, x ⟨d, t.faults site⟩ = .ok () m ∧ m.state = d' ∧ SameTables t t' := by
  unfold withHeap at h
  split at h
  · rename_i m hx
    cases h
    exact ⟨m, hx, rfl, rfl, rfl, fun s hs => faults_update_of_commits hsite hs⟩
  · cases h

omit [DecidableEq Hash] in
theorem withHeap_of_nil {site : Site} {d : StateDelta Hash}
    {x : EStateM Retcode (StateDelta.Heap Hash) Unit} {t : Tangle Hash}
    (h : t.faults = fun _ => []) (hx : ∃ m, x ⟨d, []⟩ = .ok () m ∧ m.alloc = []) :
    ∃ d', withHeap site d x t = .ok d' t := by
  obtain ⟨m, hm, hal⟩ := hx
  have hsite : t.faults site = [] := by rw [h]
  refine ⟨m.state, ?_⟩
  unfold withHeap
  rw [hsite, hm]
  dsimp only
  rw [hal, ← hsite, Function.update_eq_self]

omit [DecidableEq Hash] in
theorem keeps_withHeap {site : Site} (hsite : site.commits = false) (d : StateDelta Hash)
    (x : EStateM Retcode (StateDelta.Heap Hash) Unit) :
    Keeps SameTables (withHeap site d x) := by
  rw [keeps_iff]
  constructor
  · intro t d' t' h
    obtain ⟨_, _, _, hs⟩ := withHeap_ok hsite h
    exact hs
  · intro t e t' h
    unfold withHeap at h
    split at h
    · cases h
    · cases h
      exact ⟨rfl, rfl, fun s hs => faults_update_of_commits hsite hs⟩

/-! ## Up to validity -/

end Tangle

/-- A transaction without its cached validity. -/
def Transaction.core (tx : Transaction Hash) : Transaction Hash :=
  { tx with validity := .notInitialized }

namespace Tangle

/-- The transaction table without the validity column. -/
def core (t : Tangle Hash) : Table (fun tx : Transaction Hash => tx.hash) :=
  t.transactions.update Transaction.core fun _ => rfl

/-- Only validities differ, and the outcomes of calls that commit nothing. -/
structure SameCore (t t' : Tangle Hash) : Prop where
  core : t'.core = t.core
  milestones : t'.milestones = t.milestones
  commits : ∀ site, site.commits = true → t'.faults site = t.faults site

omit [DecidableEq Hash] in
@[simp] theorem SameCore.refl (t : Tangle Hash) : SameCore t t :=
  ⟨rfl, rfl, fun _ _ => rfl⟩

omit [DecidableEq Hash] in
theorem SameCore.trans {t u v : Tangle Hash} (h : SameCore t u) (h' : SameCore u v) :
    SameCore t v :=
  ⟨h'.1.trans h.1, h'.2.trans h.2, fun s hs => (h'.3 s hs).trans (h.3 s hs)⟩

omit [DecidableEq Hash] in
theorem SameTables.sameCore {t t' : Tangle Hash} (h : SameTables t t') : SameCore t t' :=
  ⟨by rw [Tangle.core, Tangle.core, h.1], h.2, h.3⟩

omit [DecidableEq Hash] in
theorem storeFrame_sameCore : StoreFrame (@SameCore Hash _) :=
  ⟨.refl, .trans, SameTables.sameCore⟩

theorem find?_core (t : Tangle Hash) (h : Hash) :
    t.core.find? h = (t.transactions.find? h).map Transaction.core := Table.find?_update

/-- Stores with one core have rows for the same hashes, the same up to validity. -/
theorem find?_cases_of_sameCore {t t' : Tangle Hash} (hs : SameCore t t') (h : Hash) :
    (t.transactions.find? h = none ∧ t'.transactions.find? h = none) ∨
      ∃ tx tx', t.transactions.find? h = some tx ∧ t'.transactions.find? h = some tx' ∧
        tx'.core = tx.core := by
  have hmap : (t'.transactions.find? h).map Transaction.core =
      (t.transactions.find? h).map Transaction.core := by
    rw [← find?_core, ← find?_core, hs.1]
  cases hf : t.transactions.find? h with
  | none =>
    rw [hf, Option.map_none, Option.map_eq_none_iff] at hmap
    exact .inl ⟨rfl, hmap⟩
  | some tx =>
    rw [hf, Option.map_some] at hmap
    obtain ⟨tx', hf', hc⟩ := Option.map_eq_some_iff.mp hmap
    exact .inr ⟨tx, tx', rfl, hf', hc⟩

theorem find?_some_of_sameCore {t t' : Tangle Hash} (hs : SameCore t t') {h : Hash}
    {tx : Transaction Hash} (hf : t.transactions.find? h = some tx) :
    ∃ tx', t'.transactions.find? h = some tx' ∧ tx'.core = tx.core := by
  rcases find?_cases_of_sameCore hs h with ⟨hn, -⟩ | ⟨tx₁, tx', hf₁, hf', hc⟩
  · rw [hf] at hn
    cases hn
  · rw [hf] at hf₁
    exact ⟨tx', hf', (Option.some.inj hf₁) ▸ hc⟩

theorem find?_none_iff_of_sameCore {t t' : Tangle Hash} (hs : SameCore t t') {h : Hash} :
    t'.transactions.find? h = none ↔ t.transactions.find? h = none := by
  rcases find?_cases_of_sameCore hs h with ⟨hn, hn'⟩ | ⟨tx, tx', hf, hf', -⟩
  · simp [hn, hn']
  · simp [hf, hf']

theorem withValidity_sameCore (t : Tangle Hash) (hashes : List Hash) (status : BundleStatus) :
    SameCore t (t.withValidity hashes status) := by
  refine ⟨?_, rfl, fun _ _ => rfl⟩
  ext1
  simp only [core, withValidity, mapTransactions, Table.update, List.map_map]
  refine List.map_congr_left fun tx _ => ?_
  dsimp only [Function.comp]
  split <;> rfl

theorem keeps_bundleUpdateValidity (bundle : List (Transaction Hash)) (status : BundleStatus) :
    Keeps SameCore (bundleUpdateValidity bundle status) :=
  Keeps.bind SameCore.trans (fun t => ((keeps_attempt rfl) t).sameCore)
    fun _ => Keeps.update fun t => withValidity_sameCore t _ status

omit [DecidableEq Hash] in
theorem keepsCore_of_keeps {α : Type} {x : TangleM Hash α} (h : Keeps SameTables x) :
    Keeps SameCore x := fun t => (h t).sameCore

/-! ## Approvers -/

variable {t t' : Tangle Hash} {h x : Hash}

theorem length_approvers_le (t : Tangle Hash) (h : Hash) :
    (t.approvers h).length ≤ t.transactions.rows.length := by
  rw [approvers, List.length_map]
  exact List.length_filter_le _ _

theorem mem_keys_of_mem_approvers (hx : x ∈ t.approvers h) : x ∈ t.transactions.keys := by
  obtain ⟨tx, htx, rfl⟩ := List.mem_map.mp hx
  exact List.mem_map.mpr ⟨tx, (List.mem_filter.mp htx).1, rfl⟩

/-- Who approves a transaction does not depend on validities. -/
theorem approvers_of_sameCore (hs : SameCore t t') : t'.approvers h = t.approvers h := by
  have hcore : ∀ t : Tangle Hash, t.approvers h =
      (t.core.rows.filter fun tx => decide (tx.branch = h ∨ tx.trunk = h)).map (·.hash) := by
    intro t
    simp only [approvers, core, Table.update, List.filter_map, List.map_map]
    rfl
  rw [hcore, hcore, hs.1]

end Tangle

end Entangled
