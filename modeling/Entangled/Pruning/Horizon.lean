import Entangled.LocalSnapshot.Persisted
import Entangled.Pruning.Step
/-!
# The pruning horizon

The local snapshots manager and the pruning service run in two threads. A call of
`take_snapshot` moves the horizon of the pruning service when it announces the
next snapshot, and only then writes that snapshot to disk; the pruning thread
takes its steps in between, and after a write that failed.

The steps below interleave freely, with each other and with whatever the rest of
the node does to the store. Below the snapshot on disk stays what is pruned once
the announced snapshot was written.
-/

namespace Entangled

open Prog

variable {Hash : Type} [DecidableEq Hash] [HashBytes Hash]

/-- The two services: the node, the snapshot that `take_snapshot` has announced and
is about to write, and whether the snapshot announced last is on disk. -/
structure Services (Hash : Type) [HashBytes Hash] where
  node : Node Hash
  writing : Option (Snapshot Hash)
  written : Bool

namespace Node

/-- The index of the snapshot on disk. -/
def persistedIndex (N : Node Hash) : ℕ := ((N.persisted.head?).map (·.index)).getD 0

/-- What the rest of the node may change: the store, the latest snapshot, the tips
and the spent addresses. -/
structure SameServices (N N' : Node Hash) : Prop where
  initial : N'.ledger.initial = N.ledger.initial
  persisted : N'.persisted = N.persisted
  lastPruned : N'.pruner.lastPrunedSnapshotIndex = N.pruner.lastPrunedSnapshotIndex
  lastToPrune : N'.pruner.lastSnapshotIndexToPrune = N.pruner.lastSnapshotIndexToPrune
  entryPoints : N'.pruner.solidEntryPoints = N.pruner.solidEntryPoints

end Node

namespace Services

/-- Who takes a step. -/
inductive Action
  | environment
  | abandon
  | announce
  | write
  | prune
  deriving DecidableEq

/-- One step of the services. A call of `take_snapshot` is an `announce` and a
`write`, or an `abandon` when it ends before it has a snapshot. -/
inductive Step (conf : Conf Hash) (uninit : Uninit Hash) (sponge : Sponge Hash) :
    Action → Services Hash → Services Hash → Prop
  | environment {S : Services Hash} {N : Node Hash} : Node.SameServices S.node N →
      Step conf uninit sponge .environment S { S with node := N }
  | abandon {S : Services Hash} : S.writing = none →
      (∀ s N, Node.nextSnapshot conf uninit S.node ≠ .ok (some s) N) →
      Step conf uninit sponge .abandon S
        { S with node := final (Node.nextSnapshot conf uninit) S.node }
  | announce {S : Services Hash} {s : Snapshot Hash} {N : Node Hash} : S.writing = none →
      Node.nextSnapshot conf uninit S.node = .ok (some s) N →
      Step conf uninit sponge .announce S ⟨final (Node.announce conf s) N, some s, false⟩
  | written {S : Services Hash} {s : Snapshot Hash} {N : Node Hash} : S.writing = some s →
      Node.persistSnapshot s S.node = .ok () N → Step conf uninit sponge .write S ⟨N, none, true⟩
  | writeFailed {S : Services Hash} {s : Snapshot Hash} {e : Retcode} {N : Node Hash} :
      S.writing = some s → Node.persistSnapshot s S.node = .error e N →
      Step conf uninit sponge .write S ⟨N, none, false⟩
  | prune {S : Services Hash} : conf.pruningIsEnabled = true →
      S.node.pruner.lastPrunedSnapshotIndex < S.node.pruner.lastSnapshotIndexToPrune →
      Step conf uninit sponge .prune S
        { S with node := final (Node.pruneTransactions conf uninit sponge) S.node }

/-- The services right after start-up, on a node whose initial snapshot is the one
on disk. -/
def start (N : Node Hash) : Services Hash :=
  ⟨final (Node.initPruning >>= fun _ => Node.startPruning) N, none, true⟩

/-- The states of the services, over runs all of whose steps are `good`. -/
inductive Reachable (conf : Conf Hash) (uninit : Uninit Hash) (sponge : Sponge Hash)
    (good : Action → Services Hash → Prop) : Services Hash → Prop
  | start {N : Node Hash} : N.persistedIndex = N.ledger.initial.index →
      Reachable conf uninit sponge good (start N)
  | step {a : Action} {S S' : Services Hash} : Reachable conf uninit sponge good S → good a S →
      Step conf uninit sponge a S S' → Reachable conf uninit sponge good S'

/-- **A pruning step that waits for the disk**: the snapshot announced last was
written, and the row of the milestone to prune is there. -/
def Orderly (a : Action) (S : Services Hash) : Prop :=
  a = .prune → S.written = true ∧
    S.node.ledger.tangle.milestones.find? (S.node.pruner.lastPrunedSnapshotIndex + 1) ≠ none

/-- **A pruning step stays below the disk**: the milestone it works on, and every
milestone row it deletes, is no later than the snapshot on disk. -/
structure BelowPersisted (S S' : Services Hash) : Prop where
  working : S.node.pruner.lastPrunedSnapshotIndex + 1 ≤ S.node.persistedIndex
  deleted : ∀ i, S.node.ledger.tangle.milestones.find? i ≠ none →
    S'.node.ledger.tangle.milestones.find? i = none → i ≤ S.node.persistedIndex

/-! ## What each step keeps -/

/-- **The horizon and the disk**: once the snapshot announced last is written they
agree, and while it is being written the horizon is its index. -/
structure HorizonInv (S : Services Hash) : Prop where
  written : S.written = true →
    S.node.pruner.lastSnapshotIndexToPrune = S.node.persistedIndex
  writing : ∀ s, S.writing = some s → S.node.pruner.lastSnapshotIndexToPrune = s.index

end Services

namespace Node

variable {N N' : Node Hash} {conf : Conf Hash} {uninit : Uninit Hash} {sponge : Sponge Hash}
  {s : Snapshot Hash}

/-- A snapshot that was written is the one on disk. -/
theorem persistSnapshot_ok (hr : persistSnapshot s N = .ok () N') :
    N'.persistedIndex = s.index ∧ N'.pruner = N.pruner := by
  obtain ⟨_, N₁, h₁, h₂⟩ := bind_eq_ok.mp hr
  have hw := (keeps_onLedger _).of_ok h₁
  rw [update_bind, gets_bind] at h₂
  obtain ⟨initial, N₂, h₃, h₄⟩ := bind_eq_ok.mp h₂
  have hc := (keeps_onLedger _).of_ok h₃
  cases h₄
  refine ⟨?_, hc.pruner.trans hw.pruner⟩
  rw [persistedIndex]
  dsimp only
  rw [hc.persisted]
  rfl

/-- A pruning step moves neither the horizon nor the disk. -/
theorem horizon_pruneTransactions (conf : Conf Hash) (uninit : Uninit Hash) (sponge : Sponge Hash)
    (N : Node Hash) :
    (afterPruning conf uninit sponge N).persisted = N.persisted ∧
      (afterPruning conf uninit sponge N).pruner.lastSnapshotIndexToPrune =
        N.pruner.lastSnapshotIndexToPrune := by
  rcases pruneTransactions_cases conf uninit sponge N with hno | ⟨toPrune, hyes⟩
  · exact ⟨hno.frame.persisted, hno.frame.lastToPrune⟩
  · exact ⟨hyes.deleted.persisted.trans hyes.frame.persisted,
      hyes.deleted.lastToPrune.trans hyes.frame.lastToPrune⟩

omit [DecidableEq Hash] in
/-- Deleting the milestone of one hash deletes the row it belongs to. -/
theorem index_of_deleteHash [DecidableEq Hash] {ms : Milestones Hash} {i j : ℕ}
    {row : MilestoneRow Hash} (hj : ms.find? j = some row) (hi : ms.find? i ≠ none)
    (hgone : (ms.deleteHash row.milestone.hash).find? i = none) : i = j := by
  obtain ⟨r, hr⟩ := Option.ne_none_iff_exists'.mp hi
  have hhash : r.milestone.hash = row.milestone.hash := by
    by_contra hne
    have hfind : (ms.deleteHash row.milestone.hash).find? i = some r := by
      rw [Milestones.deleteHash, Table.find?_delete, hr]
      simp [hne]
    rw [hfind] at hgone
    cases hgone
  -- the hash is a key of the table too
  have hsame : r = row := List.inj_on_of_nodup_map ms.nodupHash (Table.mem_of_find? hr)
    (Table.mem_of_find? hj) hhash
  rw [← Milestones.index_of_find? hr, hsame, Milestones.index_of_find? hj]

/-- **The only milestone row a pruning step deletes is that of the next milestone**,
provided there is one. -/
theorem deleted_row {i : ℕ}
    (hrow : N.ledger.tangle.milestones.find? (N.pruner.lastPrunedSnapshotIndex + 1) ≠ none)
    (hi : N.ledger.tangle.milestones.find? i ≠ none)
    (hgone : (afterPruning conf uninit sponge N).ledger.tangle.milestones.find? i = none) :
    i = N.pruner.lastPrunedSnapshotIndex + 1 := by
  obtain ⟨row, hfrow⟩ := Option.ne_none_iff_exists'.mp hrow
  rcases pruneTransactions_cases conf uninit sponge N with hno | ⟨toPrune, hyes⟩
  · rw [hno.frame.tangle.same.milestones] at hgone
    exact absurd hgone hi
  · rw [hyes.deleted.milestones, hyes.frame.tangle.same.milestones] at hgone
    split at hgone
    · have hhash : nextHash uninit N = row.milestone.hash := by
        rw [nextHash, hfrow]
        rfl
      rw [hhash] at hgone
      exact index_of_deleteHash hfrow hi hgone
    · exact absurd hgone hi

end Node

namespace Services

variable {conf : Conf Hash} {uninit : Uninit Hash} {sponge : Sponge Hash} {S S' : Services Hash}
  {a : Action}

omit [DecidableEq Hash] in
/-- The services start with the horizon at the snapshot on disk. -/
theorem horizonInv_start {N : Node Hash} (h : N.persistedIndex = N.ledger.initial.index) :
    HorizonInv (start N) := by
  have hstart : (start N).node.pruner.lastSnapshotIndexToPrune = N.ledger.initial.index ∧
      (start N).node.persisted = N.persisted := by
    rw [start, Node.initPruning, final_update_bind, Node.startPruning, final_update]
    dsimp only
    split
    · exact ⟨rfl, rfl⟩
    · exact ⟨rfl, rfl⟩
  refine ⟨fun _ => ?_, fun s hs => by cases hs⟩
  rw [hstart.1, ← h, Node.persistedIndex, Node.persistedIndex, hstart.2]

/-- **Every step keeps the horizon where the disk is or is about to be.** -/
theorem HorizonInv.step (hen : conf.pruningIsEnabled = true) (h : HorizonInv S)
    (hs : Step conf uninit sponge a S S') : HorizonInv S' := by
  cases hs with
  | @environment _ N hsame =>
    refine ⟨fun hw => ?_, fun s hs => ?_⟩
    · rw [hsame.lastToPrune, h.written hw, Node.persistedIndex, Node.persistedIndex,
        hsame.persisted]
    · rw [hsame.lastToPrune, h.writing s hs]
  | abandon hnone _ =>
    have hkeep := Node.keeps_nextSnapshot conf uninit S.node
    refine ⟨fun hw => ?_, fun s hs => ?_⟩
    · rw [hkeep.pruner, h.written hw, Node.persistedIndex, Node.persistedIndex, hkeep.persisted]
    · rw [hkeep.pruner, h.writing s hs]
  | @announce _ s N _ hnext =>
    refine ⟨(fun hw => by cases hw), fun s' hs' => ?_⟩
    cases hs'
    rw [Node.announce, if_pos hen]
    rfl
  | @written _ s N hwriting hr =>
    obtain ⟨hidx, hpruner⟩ := Node.persistSnapshot_ok hr
    refine ⟨fun _ => ?_, fun s' hs' => by cases hs'⟩
    rw [hpruner, h.writing s hwriting, hidx]
  | writeFailed _ _ => exact ⟨(fun hw => by cases hw), fun s hs => by cases hs⟩
  | prune _ _ =>
    obtain ⟨hdisk, hhorizon⟩ := Node.horizon_pruneTransactions conf uninit sponge S.node
    refine ⟨fun hw => ?_, fun s hs => ?_⟩
    · exact hhorizon.trans ((h.written hw).trans (by
        rw [Node.persistedIndex, Node.persistedIndex]
        exact congrArg (fun l => ((List.head? l).map _).getD 0) hdisk.symm))
    · exact hhorizon.trans (h.writing s hs)

/-- **A call of `take_snapshot` is a run of these steps**, when nothing comes in
between. -/
theorem takeSnapshot_steps (conf : Conf Hash) (uninit : Uninit Hash) (sponge : Sponge Hash)
    (hidle : S.writing = none) :
    ∃ S', S'.writing = none ∧ S'.node = final (Node.takeSnapshot conf uninit) S.node ∧
      (Step conf uninit sponge .abandon S S' ∨ ∃ S₁, Step conf uninit sponge .announce S S₁ ∧
        Step conf uninit sponge .write S₁ S') := by
  have habandon : (∀ s N, Node.nextSnapshot conf uninit S.node ≠ .ok (some s) N) →
      final (Node.nextSnapshot conf uninit) S.node = final (Node.takeSnapshot conf uninit) S.node →
      ∃ S', S'.writing = none ∧ S'.node = final (Node.takeSnapshot conf uninit) S.node ∧
        (Step conf uninit sponge .abandon S S' ∨ ∃ S₁, Step conf uninit sponge .announce S S₁ ∧
          Step conf uninit sponge .write S₁ S') := fun hno heq =>
    ⟨{ S with node := final (Node.nextSnapshot conf uninit) S.node }, hidle, heq,
      .inl (.abandon hidle hno)⟩
  cases hr : Node.nextSnapshot conf uninit S.node with
  | error e N =>
    refine habandon (fun s N h => by rw [hr] at h; cases h) ?_
    rw [final_of_error hr, Node.takeSnapshot, final_bind_of_error hr]
  | ok o N =>
    cases o with
    | none =>
      refine habandon (fun s N h => by rw [hr] at h; cases h) ?_
      rw [final_of_ok hr, Node.takeSnapshot, final_bind_of_ok hr]
      rfl
    | some s =>
      have hann : Node.announce conf s N = .ok () (final (Node.announce conf s) N) := by
        unfold Node.announce
        split <;> rfl
      have hfinal : final (Node.takeSnapshot conf uninit) S.node =
          final (Node.persistSnapshot s) (final (Node.announce conf s) N) := by
        rw [Node.takeSnapshot, final_bind_of_ok hr]
        dsimp only
        rw [final_bind_of_ok hann]
      cases hp : Node.persistSnapshot s (final (Node.announce conf s) N) with
      | ok u N' =>
        exact ⟨⟨N', none, true⟩, rfl, by rw [hfinal, final_of_ok hp],
          .inr ⟨_, .announce hidle hr, .written rfl hp⟩⟩
      | error e N' =>
        exact ⟨⟨N', none, false⟩, rfl, by rw [hfinal, final_of_error hp],
          .inr ⟨_, .announce hidle hr, .writeFailed rfl hp⟩⟩

/-- The invariant along a run, orderly or not. -/
theorem Reachable.horizonInv {good : Action → Services Hash → Prop}
    (hen : conf.pruningIsEnabled = true) (h : Reachable conf uninit sponge good S) :
    HorizonInv S := by
  induction h with
  | start hdisk => exact horizonInv_start hdisk
  | step _ _ hs ih => exact ih.step hen hs

/-- **Pruning that waits for the disk never overtakes it.** In every run whose
pruning steps come after the write of the snapshot announced last, each of them
works at or below the snapshot on disk. -/
theorem pruning_below_persisted (h : Reachable conf uninit sponge Orderly S)
    (hgood : Orderly .prune S) (hs : Step conf uninit sponge .prune S S') :
    BelowPersisted S S' := by
  obtain ⟨hwritten, hrow⟩ := hgood rfl
  cases hs with
  | prune hen hlt =>
    have hhorizon := (h.horizonInv hen).written hwritten
    refine ⟨by omega, fun i hi hgone => ?_⟩
    have := Node.deleted_row hrow hi hgone
    omega

/-! ## A write that fails -/

/-- Milestones `1`, `2` and `3` above a snapshot on disk at index `0`; the latest
milestone is far enough ahead for `3` to be the next local snapshot. -/
def horizonNode (faults : Faults) : Node (Fin 256) where
  ledger :=
    { tangle :=
        { transactions := ⟨[{ plainTx 1 0 0 50 0 0 0 with snapshotIndex := 1 },
            { plainTx 2 1 1 50 0 0 0 with snapshotIndex := 2 },
            { plainTx 3 2 2 50 0 0 0 with snapshotIndex := 3 }], by decide⟩
          milestones := ⟨⟨[⟨⟨1, 1⟩, some (StateDelta.serialize ⟨[(11, -5), (10, 5)], nodup_moved⟩)⟩,
            ⟨⟨2, 2⟩, none⟩, ⟨⟨3, 3⟩, none⟩], by decide⟩, by decide⟩
          faults := faults }
      initial := ⟨⟨[(11, 100)], nodup_hundred⟩, 0, 0, 0, Table.empty⟩
      latest := ⟨⟨[(11, 95), (10, 5)], by decide⟩, 104, 0, 0, Table.empty⟩ }
  pruner := ⟨0, 0, [], ⟨[], [], 5000⟩⟩
  persisted := [⟨⟨[(11, 100)], nodup_hundred⟩, 0, 0, 0, Table.empty⟩]
  spentAddresses := []

/-- Local snapshots a hundred milestones behind, with pruning. -/
def horizonConf : Conf (Fin 256) := ⟨0, 100, true⟩

/-- The disk is full when the snapshot is written. -/
def writeFails : Faults
  | .snapshotWrite => [true]
  | _ => []

/-- **Pruning overtakes the disk after a write that failed.** The snapshot at index
`3` was announced and could not be written; the next pruning step deletes
milestone `1` while the snapshot on disk is still that of index `0`. -/
theorem pruning_overtakes_failed_write :
    ∃ S S' : Services (Fin 256),
      Reachable horizonConf ⟨0, 0, false⟩ plainSponge (fun _ _ => True) S ∧
      Step horizonConf ⟨0, 0, false⟩ plainSponge .prune S S' ∧ S.node.persistedIndex = 0 ∧
      S.node.ledger.tangle.milestones.find? 1 ≠ none ∧
      S'.node.ledger.tangle.milestones.find? 1 = none ∧ ¬ BelowPersisted S S' := by
  have h₀ : Reachable horizonConf ⟨0, 0, false⟩ plainSponge (fun _ _ => True)
      (start (horizonNode writeFails)) := .start (by decide +kernel)
  obtain ⟨S, -, hnode, hsteps⟩ := takeSnapshot_steps (S := start (horizonNode writeFails))
    horizonConf ⟨0, 0, false⟩ plainSponge rfl
  have hS : Reachable horizonConf ⟨0, 0, false⟩ plainSponge (fun _ _ => True) S := by
    rcases hsteps with h | ⟨S₁, h₁, h₂⟩
    · exact h₀.step trivial h
    · exact (h₀.step trivial h₁).step trivial h₂
  have hdisk : S.node.persistedIndex = 0 := by rw [hnode]; decide +kernel
  have hstored : S.node.ledger.tangle.milestones.find? 1 ≠ none := by
    rw [hnode, ← Option.isSome_iff_ne_none]
    decide +kernel
  have hgone : (final (Node.pruneTransactions horizonConf ⟨0, 0, false⟩ plainSponge)
      S.node).ledger.tangle.milestones.find? 1 = none := by
    rw [hnode, ← Option.isNone_iff_eq_none]
    decide +kernel
  refine ⟨S, _, hS, .prune rfl ?_, hdisk, hstored, hgone, fun h => ?_⟩
  · rw [hnode]
    decide +kernel
  · have := h.deleted 1 hstored hgone
    omega

/-- When the write went through, the same step stays below the disk. -/
theorem pruning_follows_write :
    ∃ S S' : Services (Fin 256), Step horizonConf ⟨0, 0, false⟩ plainSponge .prune S S' ∧
      S.node.persistedIndex = 3 ∧ BelowPersisted S S' := by
  have hrun : returns (Node.nextSnapshot horizonConf ⟨0, 0, false⟩)
      (start (horizonNode fun _ => [])).node (fun o N => match o with
        | some s => returns (Node.persistSnapshot s) (final (Node.announce horizonConf s) N)
            fun _ N' => decide (N'.pruner.lastPrunedSnapshotIndex <
                N'.pruner.lastSnapshotIndexToPrune ∧ N'.persistedIndex = 3) &&
              (N'.ledger.tangle.milestones.find?
                (N'.pruner.lastPrunedSnapshotIndex + 1)).isSome
        | none => false) = true := by decide +kernel
  obtain ⟨o, N, hnext, hrun⟩ := of_returns hrun
  cases o with
  | none => cases hrun
  | some s =>
    obtain ⟨_, N', hwrite, hrun⟩ := of_returns hrun
    rw [Bool.and_eq_true, decide_eq_true_eq, Option.isSome_iff_ne_none] at hrun
    have h₀ : Reachable horizonConf ⟨0, 0, false⟩ plainSponge Orderly
        (start (horizonNode fun _ => [])) := .start (by decide +kernel)
    have hS : Reachable horizonConf ⟨0, 0, false⟩ plainSponge Orderly ⟨N', none, true⟩ :=
      (h₀.step (fun h => by cases h) (.announce rfl hnext)).step (fun h => by cases h)
        (.written rfl hwrite)
    have hprune : Step horizonConf ⟨0, 0, false⟩ plainSponge .prune ⟨N', none, true⟩ _ :=
      .prune rfl hrun.1.1
    exact ⟨_, _, hprune, hrun.1.2, pruning_below_persisted hS (fun _ => ⟨rfl, hrun.2⟩) hprune⟩

end Services

end Entangled
