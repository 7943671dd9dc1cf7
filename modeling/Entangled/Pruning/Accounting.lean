import Entangled.Pruning.Step
/-!
# What pruning owes

A milestone is counted as pruned once its row is gone. By then its pruning cone
should be deleted, the addresses spent from in it recorded, and no solid entry
point touched; and nothing that stays should approve what went. Neither always
holds, and this file says when.
-/

namespace Entangled

open Prog Search

variable {Hash : Type} [DecidableEq Hash] [HashBytes Hash]

namespace Node

variable {N : Node Hash} {conf : Conf Hash} {uninit : Uninit Hash} {sponge : Sponge Hash} {x : Hash}

/-! ## Which deletions succeed is known beforehand -/

theorem CollectFrame.deletesTip {N' : Node Hash} (h : CollectFrame sponge N N') :
    N'.deletesTip = N.deletesTip := by
  have hsite := h.tangle.same.commits .transactionsDelete rfl
  simp only [Node.deletesTip, deletesPast, Tangle.succeeds, Tangle.popped, hsite,
    Function.update_self]

theorem CollectFrame.deletesPast {N' : Node Hash} (h : CollectFrame sponge N N') :
    N'.deletesPast = N.deletesPast := by
  rw [Node.deletesPast, Node.deletesPast, Tangle.succeeds, Tangle.succeeds,
    h.tangle.same.commits .transactionsDelete rfl]

theorem CollectFrame.deletesRow {N' : Node Hash} (h : CollectFrame sponge N N') :
    N'.deletesRow = N.deletesRow := by
  rw [Node.deletesRow, Node.deletesRow, h.deletesTip, Tangle.succeeds, Tangle.succeeds,
    h.tangle.same.commits .milestoneDelete rfl]

omit [DecidableEq Hash] in
theorem deletesPast_of_tip (h : N.deletesTip = true) : N.deletesPast = true := by
  rw [deletesTip, Bool.and_eq_true] at h
  exact h.1

omit [DecidableEq Hash] in
theorem deletesTip_of_row (h : N.deletesRow = true) : N.deletesTip = true := by
  rw [deletesRow, Bool.and_eq_true] at h
  exact h.1

namespace WentOn

variable {toPrune : List Hash}

/-- What is stored after a step that deleted. -/
theorem find?_eq_none_iff (h : WentOn conf uninit sponge N toPrune) :
    (afterPruning conf uninit sponge N).ledger.tangle.transactions.find? x = none ↔
      N.ledger.tangle.transactions.find? x = none ∨
        (N.deletesPast ∧ x ∈ toPrune ∧ x ≠ nextHash uninit N) ∨
        (N.deletesTip ∧ x = nextHash uninit N) := by
  rw [h.deleted.find? x, h.frame.deletesPast, h.frame.deletesTip]
  split
  · rename_i hd
    simp only [true_iff]
    exact .inr hd
  · rename_i hd
    rw [Tangle.find?_none_iff_of_sameCore h.frame.tangle.same]
    exact ⟨.inl, fun ho => ho.resolve_right hd⟩

/-- The milestone is counted exactly when its row went. -/
theorem counted_iff (h : WentOn conf uninit sponge N toPrune) :
    (afterPruning conf uninit sponge N).pruner.lastPrunedSnapshotIndex ≠
      N.pruner.lastPrunedSnapshotIndex ↔ N.deletesRow = true := by
  rw [h.deleted.lastPruned, h.frame.lastPruned, h.frame.deletesRow]
  split
  · rename_i hrow
    simp [hrow]
  · rename_i hrow
    simp [hrow]

/-- Once the milestone is counted all that was collected is gone. -/
theorem gone_of_counted (h : WentOn conf uninit sponge N toPrune) (hrow : N.deletesRow = true)
    (hx : x ∈ toPrune ∨ x = nextHash uninit N) :
    (afterPruning conf uninit sponge N).ledger.tangle.transactions.find? x = none := by
  have htip := deletesTip_of_row hrow
  rw [h.find?_eq_none_iff]
  by_cases he : x = nextHash uninit N
  · exact .inr (.inr ⟨htip, he⟩)
  · exact .inr (.inl ⟨deletesPast_of_tip htip, hx.resolve_right he, he⟩)

end WentOn

theorem NothingDeleted.not_counted (h : NothingDeleted conf uninit sponge N) :
    (afterPruning conf uninit sponge N).pruner.lastPrunedSnapshotIndex =
      N.pruner.lastPrunedSnapshotIndex := h.frame.lastPruned

/-- A milestone that was counted had its row deleted, after a collection that went
through or was interrupted. -/
theorem wentOn_of_counted (h : (afterPruning conf uninit sponge N).pruner.lastPrunedSnapshotIndex ≠
    N.pruner.lastPrunedSnapshotIndex) :
    N.deletesRow = true ∧ ∃ toPrune, WentOn conf uninit sponge N toPrune := by
  rcases pruneTransactions_cases conf uninit sponge N with hno | ⟨toPrune, hyes⟩
  · exact absurd hno.not_counted h
  · exact ⟨hyes.counted_iff.mp h, toPrune, hyes⟩

/-! ## The work of a milestone -/

/-- **The work of the next milestone is done before it is counted, and no solid
entry point is deleted.** The second field speaks of the state just before the
first deletion. -/
structure WorkDone (conf : Conf Hash) (uninit : Uninit Hash) (sponge : Sponge Hash)
    (N : Node Hash) : Prop where
  deleted : (afterPruning conf uninit sponge N).pruner.lastPrunedSnapshotIndex ≠
      N.pruner.lastPrunedSnapshotIndex →
    ∀ row, N.ledger.tangle.milestones.find? (N.pruner.lastPrunedSnapshotIndex + 1) = some row →
    ∀ x, N.ledger.tangle.PruningCone conf.genesisHash (N.pruner.lastPrunedSnapshotIndex + 1)
      row.milestone.hash x →
    (afterPruning conf uninit sponge N).ledger.tangle.transactions.find? x = none
  recorded : (afterPruning conf uninit sponge N).pruner.lastPrunedSnapshotIndex ≠
      N.pruner.lastPrunedSnapshotIndex →
    ∀ row, N.ledger.tangle.milestones.find? (N.pruner.lastPrunedSnapshotIndex + 1) = some row →
    ∀ x, N.ledger.tangle.PruningCone conf.genesisHash (N.pruner.lastPrunedSnapshotIndex + 1)
      row.milestone.hash x →
    ∀ tx, (beforeDeletion conf uninit sponge N).ledger.tangle.transactions.find? x = some tx →
      Tangle.SpendsFrom sponge (beforeDeletion conf uninit sponge N).ledger.tangle tx x →
      tx.address ∈ (beforeDeletion conf uninit sponge N).spentAddresses
  entryPoints : ∀ x ∈ N.pruner.solidEntryPoints,
    N.ledger.tangle.transactions.find? x ≠ none →
    (afterPruning conf uninit sponge N).ledger.tangle.transactions.find? x ≠ none

/-- A call failed while the milestone was collected, the deletions then went
through, and there was work left: another transaction of the cone, or the
milestone's own, spending from an address not recorded by then. -/
def LeavesWork (conf : Conf Hash) (uninit : Uninit Hash) (sponge : Sponge Hash) (N : Node Hash) :
    Prop :=
  Interrupted conf uninit sponge N ∧ N.deletesRow = true ∧
    ∃ row, N.ledger.tangle.milestones.find? (N.pruner.lastPrunedSnapshotIndex + 1) = some row ∧
    ∃ x, N.ledger.tangle.PruningCone conf.genesisHash (N.pruner.lastPrunedSnapshotIndex + 1)
      row.milestone.hash x ∧
    ∃ tx, N.ledger.tangle.transactions.find? x = some tx ∧ (x ≠ row.milestone.hash ∨
      (Tangle.SpendsFrom sponge (beforeDeletion conf uninit sponge N).ledger.tangle tx x ∧
        tx.address ∉ (beforeDeletion conf uninit sponge N).spentAddresses))

/-- The transaction of the milestone is a stored entry point and goes all the same:
the collection that would have found it failed, or it is the genesis, which the
set never holds. -/
def DropsEntryPoint (conf : Conf Hash) (uninit : Uninit Hash) (sponge : Sponge Hash)
    (N : Node Hash) : Prop :=
  N.ledger.tangle.succeeds .milestoneLoad = true ∧
    (Interrupted conf uninit sponge N ∨ nextHash uninit N = conf.genesisHash) ∧
    N.deletesTip = true ∧ nextHash uninit N ∈ N.pruner.solidEntryPoints ∧
    N.ledger.tangle.transactions.find? (nextHash uninit N) ≠ none

omit [DecidableEq Hash] in
theorem nextHash_of_row {row : MilestoneRow Hash}
    (h : N.ledger.tangle.milestones.find? (N.pruner.lastPrunedSnapshotIndex + 1) = some row) :
    nextHash uninit N = row.milestone.hash := by
  rw [nextHash, h]
  rfl

/-- The genesis has no cone. -/
theorem not_nextCone_of_genesis (h : nextHash uninit N = conf.genesisHash) :
    ¬ nextCone conf uninit N x := by
  intro hx
  unfold nextCone Tangle.PruningCone at hx
  induction hx with
  | root hn => exact hn (List.mem_singleton.mpr h)
  | step _ _ _ ih => exact ih

theorem not_leavesWork (h : WorkDone conf uninit sponge N) : ¬ LeavesWork conf uninit sponge N := by
  rintro ⟨hint, hrow, row, hfrow, x, hcone, tx, hf, hleft⟩
  rcases pruneTransactions_cases conf uninit sponge N with hno | ⟨toPrune, hyes⟩
  · exact hno.notInterrupted hint
  obtain ⟨-, rfl⟩ := hyes.collected.resolve_right fun hc => hc.1 hint
  have hcounted := hyes.counted_iff.mpr hrow
  rcases hleft with hne | ⟨hspends, haddr⟩
  · -- an interrupted collection deletes nothing but the milestone
    have hgone := h.deleted hcounted row hfrow x hcone
    rw [hyes.find?_eq_none_iff, hf, nextHash_of_row hfrow] at hgone
    rcases hgone with hgone | ⟨-, hgone, -⟩ | ⟨-, hgone⟩
    · cases hgone
    · cases hgone
    · exact hne hgone
  · obtain ⟨tx', hf', hcore⟩ := Tangle.find?_some_of_sameCore hyes.frame.tangle.same hf
    have hrec := h.recorded hcounted row hfrow x hcone tx' hf' (hspends.of_core hcore.symm)
    exact haddr ((congrArg (fun tx => tx.address) hcore : tx'.address = tx.address) ▸ hrec)

theorem not_dropsEntryPoint (h : WorkDone conf uninit sponge N) :
    ¬ DropsEntryPoint conf uninit sponge N := by
  rintro ⟨hload, hwhy, htip, hsep, hstored⟩
  rcases pruneTransactions_cases conf uninit sponge N with hno | ⟨toPrune, hyes⟩
  · rcases hwhy with hint | hgen
    · exact hno.notInterrupted hint
    · rcases hno.reason with hfail | ⟨x, -, hcone⟩
      · rw [hload] at hfail; cases hfail
      · exact not_nextCone_of_genesis hgen hcone
  · refine h.entryPoints _ hsep hstored ?_
    rw [hyes.find?_eq_none_iff]
    exact .inr (.inr ⟨htip, rfl⟩)

/-- A node about to prune milestone `1`, which confirmed the bundle of `2` and `3`:
five tokens from `11` to `12`. -/
def pruningNode (txs : List (Transaction (Fin 256))) (h : (txs.map (·.hash)).Nodup)
    (entryPoints : List (Fin 256)) (faults : Faults) : Node (Fin 256) where
  ledger :=
    { tangle :=
        { transactions := ⟨txs, h⟩
          milestones := ⟨⟨[⟨⟨1, 1⟩, none⟩], nodup_firstIndex⟩, nodup_firstHash⟩
          faults := faults }
      initial := ⟨Table.empty, 0, 0, 0, Table.empty⟩
      latest := ⟨Table.empty, 1, 1, 0, Table.empty⟩ }
  pruner := ⟨0, 1, entryPoints, ⟨[], [], 5000⟩⟩
  persisted := []
  spentAddresses := []

/-- The transactions of milestone `1`. -/
def pruningTxs : List (Transaction (Fin 256)) :=
  [{ plainTx 1 2 0 10 0 0 0 with snapshotIndex := 1 },
    { plainTx 2 3 0 12 5 0 1 with snapshotIndex := 1 },
    { plainTx 3 0 0 11 (-5) 1 1 with snapshotIndex := 1 }]

/-- The genesis is `0`, and pruning is on. -/
def pruningConf : Conf (Fin 256) := ⟨0, 600, true⟩

/-- The first row the collection asks for cannot be loaded. -/
def loadFails : Faults
  | .transactionLoadPartial => [true]
  | _ => []

/-- **No unconfirmed transaction that stayed approves one that this step deleted.** -/
def NoDangling (N N' : Node Hash) : Prop :=
  ∀ tx ∈ N'.ledger.tangle.transactions.rows, tx.snapshotIndex = 0 →
    ∀ y, y = tx.trunk ∨ y = tx.branch → N.ledger.tangle.transactions.find? y ≠ none →
      N'.ledger.tangle.transactions.find? y ≠ none

/-- What a step that counts the milestone takes out of the store: the milestone's
transaction, and its pruning cone unless the collection was interrupted. -/
def TakenOut (conf : Conf Hash) (uninit : Uninit Hash) (sponge : Sponge Hash) (N : Node Hash)
    (x : Hash) : Prop :=
  N.ledger.tangle.transactions.find? x ≠ none ∧ (x = nextHash uninit N ∨
    (¬ Interrupted conf uninit sponge N ∧ nextCone conf uninit N x))

/-- A step that counts the milestone deletes what `TakenOut` says. -/
theorem find?_of_counted (h : (afterPruning conf uninit sponge N).pruner.lastPrunedSnapshotIndex ≠
    N.pruner.lastPrunedSnapshotIndex) (x : Hash) :
    (afterPruning conf uninit sponge N).ledger.tangle.transactions.find? x = none ↔
      N.ledger.tangle.transactions.find? x = none ∨ TakenOut conf uninit sponge N x := by
  obtain ⟨hrow, toPrune, hyes⟩ := wentOn_of_counted h
  have hmem : x ∈ toPrune → ¬ Interrupted conf uninit sponge N ∧ nextCone conf uninit N x := by
    intro hx
    rcases hyes.collected with ⟨-, rfl⟩ | ⟨hnot, hcol⟩
    · cases hx
    · exact ⟨hnot, (hcol.mem_iff x).mp hx⟩
  constructor
  · intro hgone
    by_cases hstored : N.ledger.tangle.transactions.find? x = none
    · exact .inl hstored
    · rw [hyes.find?_eq_none_iff] at hgone
      rcases hgone with hn | ⟨-, hx, -⟩ | ⟨-, hx⟩
      · exact absurd hn hstored
      · exact .inr ⟨hstored, .inr (hmem hx)⟩
      · exact .inr ⟨hstored, .inl hx⟩
  · rintro (hn | ⟨-, rfl | ⟨hnot, hcone⟩⟩)
    · exact hyes.find?_eq_none_iff.mpr (.inl hn)
    · exact hyes.gone_of_counted hrow (.inr rfl)
    · obtain ⟨-, hcol⟩ := hyes.collected.resolve_left fun hi => hnot hi.1
      exact hyes.gone_of_counted hrow (.inl ((hcol.mem_iff x).mpr hcone))

/-- Up to validity, a step that counts the milestone changes no row that stays. -/
theorem mem_rows_of_counted
    (h : (afterPruning conf uninit sponge N).pruner.lastPrunedSnapshotIndex ≠
      N.pruner.lastPrunedSnapshotIndex) {tx : Transaction Hash}
    (hf : (afterPruning conf uninit sponge N).ledger.tangle.transactions.find? x = some tx) :
    ∃ tx₀, N.ledger.tangle.transactions.find? x = some tx₀ ∧ tx.core = tx₀.core := by
  obtain ⟨-, toPrune, hyes⟩ := wentOn_of_counted h
  rw [hyes.deleted.find? x] at hf
  split at hf
  · cases hf
  · rcases Tangle.find?_cases_of_sameCore hyes.frame.tangle.same x with
      ⟨-, hn⟩ | ⟨tx₀, tx', hf₀, hf', hcore⟩
    · rw [hf] at hn; cases hn
    · rw [hf] at hf'
      exact ⟨tx₀, hf₀, Option.some.inj hf' ▸ hcore⟩

/-- **When pruning leaves nothing dangling**: exactly when, before the step, every
unconfirmed transaction that approves one of the pruned set is in that set. The
walks to the future, which should see to it, contribute nothing. -/
theorem noDangling_iff (conf : Conf Hash) (uninit : Uninit Hash) (sponge : Sponge Hash)
    (N : Node Hash) (h : (afterPruning conf uninit sponge N).pruner.lastPrunedSnapshotIndex ≠
      N.pruner.lastPrunedSnapshotIndex) :
    NoDangling N (afterPruning conf uninit sponge N) ↔
      ∀ tx ∈ N.ledger.tangle.transactions.rows, tx.snapshotIndex = 0 →
        (∃ y, (y = tx.trunk ∨ y = tx.branch) ∧ TakenOut conf uninit sponge N y) →
        TakenOut conf uninit sponge N tx.hash := by
  constructor
  · rintro hno tx hmem hidx ⟨y, hy, hout⟩
    by_contra hstays
    have hf : N.ledger.tangle.transactions.find? tx.hash = some tx := Table.find?_key hmem
    have hf' :
        (afterPruning conf uninit sponge N).ledger.tangle.transactions.find? tx.hash ≠ none :=
      fun hn => ((find?_of_counted h _).mp hn).elim (fun hn => by rw [hf] at hn; cases hn) hstays
    obtain ⟨tx', hf'⟩ := Option.ne_none_iff_exists'.mp hf'
    obtain ⟨tx₀, hf₀, hcore⟩ := mem_rows_of_counted h hf'
    rw [hf] at hf₀
    obtain rfl := Option.some.inj hf₀
    have htrunk : tx'.trunk = tx.trunk := congrArg (fun tx => tx.trunk) hcore
    have hbranch : tx'.branch = tx.branch := congrArg (fun tx => tx.branch) hcore
    refine hno tx' (Table.mem_of_find? hf') ?_ y (by rwa [htrunk, hbranch]) hout.1 ?_
    · exact (congrArg (fun tx => tx.snapshotIndex) hcore : tx'.snapshotIndex = _).trans hidx
    · exact (find?_of_counted h y).mpr (.inr hout)
  · intro hall tx hmem hidx y hy hstored hgone
    have hf :
        (afterPruning conf uninit sponge N).ledger.tangle.transactions.find? tx.hash = some tx :=
      Table.find?_key hmem
    obtain ⟨tx₀, hf₀, hcore⟩ := mem_rows_of_counted h hf
    have hout := ((find?_of_counted h y).mp hgone).resolve_left hstored
    have hkey : tx₀.hash = tx.hash := Table.key_of_find? hf₀
    have htrunk : tx.trunk = tx₀.trunk := congrArg (fun tx => tx.trunk) hcore
    have hbranch : tx.branch = tx₀.branch := congrArg (fun tx => tx.branch) hcore
    have hidx₀ : tx₀.snapshotIndex = 0 :=
      (congrArg (fun tx => tx.snapshotIndex) hcore : tx.snapshotIndex = _).symm.trans hidx
    have htaken := hall tx₀ (Table.mem_of_find? hf₀) hidx₀
      ⟨y, by rwa [← htrunk, ← hbranch], hout⟩
    rw [hkey] at htaken
    rw [(find?_of_counted h tx.hash).mpr (.inr htaken)] at hf
    cases hf

/-- **An unconfirmed transaction left in the air.** Nothing fails; milestone `1` is
pruned, and `4`, which approves it and which nothing has confirmed, stays. -/
theorem pruneTransactions_leaves_dangling :
    (afterPruning pruningConf ⟨0, 0, false⟩ plainSponge (pruningNode
      (pruningTxs ++ [plainTx 4 1 1 50 0 0 0]) (by decide) [0]
        fun _ => [])).ledger.tangle.transactions.keys = [4] ∧
    ¬ NoDangling (pruningNode (pruningTxs ++ [plainTx 4 1 1 50 0 0 0]) (by decide) [0] fun _ => [])
      (afterPruning pruningConf ⟨0, 0, false⟩ plainSponge (pruningNode
        (pruningTxs ++ [plainTx 4 1 1 50 0 0 0]) (by decide) [0] fun _ => [])) := by
  refine ⟨by decide +kernel, fun h => ?_⟩
  have hgone := h (plainTx 4 1 1 50 0 0 0) (by decide +kernel) rfl 1 (.inl rfl) (by decide)
  exact hgone (by decide +kernel)

/-- The node whose unconfirmed transaction approves one that a later milestone
confirmed. -/
def laterNode : Node (Fin 256) :=
  pruningNode (pruningTxs ++ [{ plainTx 5 0 0 50 0 0 0 with snapshotIndex := 2 },
    plainTx 4 5 5 50 0 0 0]) (by decide) [0] fun _ => []

/-- Where no unconfirmed transaction approves the cone, nothing is left in the
air. -/
theorem pruneTransactions_leaves_nothing_dangling :
    (afterPruning pruningConf ⟨0, 0, false⟩ plainSponge
      laterNode).pruner.lastPrunedSnapshotIndex ≠ 0 ∧
    NoDangling laterNode (afterPruning pruningConf ⟨0, 0, false⟩ plainSponge laterNode) := by
  have hcounted : (afterPruning pruningConf ⟨0, 0, false⟩ plainSponge
      laterNode).pruner.lastPrunedSnapshotIndex ≠ 0 := by decide +kernel
  refine ⟨hcounted, (noDangling_iff pruningConf ⟨0, 0, false⟩ plainSponge _ hcounted).mpr ?_⟩
  -- the cone of milestone `1` is what it confirmed
  have hcone : ∀ x, nextCone pruningConf ⟨0, 0, false⟩ laterNode x → x = 1 ∨ x = 2 ∨ x = 3 := by
    intro x hx
    have hclosed : ∀ x y : Fin 256, (x = 1 ∨ x = 2 ∨ x = 3) →
        y ∈ laterNode.ledger.tangle.confirmedApprovees 1 x → y ∉ [(0 : Fin 256)] →
        y = 1 ∨ y = 2 ∨ y = 3 := by
      rintro x y (rfl | rfl | rfl) <;> revert y <;> decide +kernel
    unfold nextCone Tangle.PruningCone at hx
    induction hx with
    | root _ => exact .inl (by decide +kernel)
    | @step x y _ hy hn ih => exact hclosed x y ih hy hn
  rintro tx hmem hidx ⟨y, hy, -, hout⟩
  have htip : ∀ tx ∈ laterNode.ledger.tangle.transactions.rows, tx.snapshotIndex = 0 →
      tx.trunk = 5 ∧ tx.branch = 5 := by decide +kernel
  obtain ⟨htrunk, hbranch⟩ := htip tx hmem hidx
  rw [htrunk, hbranch, or_self] at hy
  subst hy
  rcases hout with hroot | ⟨-, hcone5⟩
  · exact absurd hroot (by decide +kernel)
  · exact absurd (hcone 5 hcone5) (by decide)

end Node

end Entangled
