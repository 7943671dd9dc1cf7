import Entangled.Pruning.Collection
/-!
# A pruning step

What `prune_transactions` does to the store and to its own bookkeeping, for every
pattern of failures: the deletions as far as they get, and the three ways the
collection before them can end. From there follow the two properties the step
is meant to have, and when it has them.
-/

namespace Entangled

open Prog Search

variable {Hash : Type} [DecidableEq Hash] [HashBytes Hash]

namespace Node

variable {N N' N₁ : Node Hash} {conf : Conf Hash} {uninit : Uninit Hash} {sponge : Sponge Hash}
  {hash x : Hash} {toPrune : List Hash}

/-! ## The deletions -/

/-- The past of the milestone gets deleted. -/
def deletesPast (N : Node Hash) : Bool := N.ledger.tangle.succeeds .transactionsDelete

/-- Its transaction gets deleted too. -/
def deletesTip (N : Node Hash) : Bool :=
  N.deletesPast && (N.ledger.tangle.popped .transactionsDelete).succeeds .transactionsDelete

/-- And its row: the milestone is counted as pruned. -/
def deletesRow (N : Node Hash) : Bool :=
  N.deletesTip && N.ledger.tangle.succeeds .milestoneDelete

/-- **What the deletions do**, as far as they get. -/
structure Deleted (hash : Hash) (toPrune : List Hash) (N N' : Node Hash) : Prop where
  find? : ∀ x, N'.ledger.tangle.transactions.find? x =
    if (N.deletesPast ∧ x ∈ toPrune ∧ x ≠ hash) ∨ (N.deletesTip ∧ x = hash) then none
    else N.ledger.tangle.transactions.find? x
  milestones : N'.ledger.tangle.milestones =
    if N.deletesRow then N.ledger.tangle.milestones.deleteHash hash
    else N.ledger.tangle.milestones
  lastPruned : N'.pruner.lastPrunedSnapshotIndex =
    if N.deletesRow then N.pruner.lastPrunedSnapshotIndex + 1
    else N.pruner.lastPrunedSnapshotIndex
  initial : N'.ledger.initial = N.ledger.initial
  persisted : N'.persisted = N.persisted
  lastToPrune : N'.pruner.lastSnapshotIndexToPrune = N.pruner.lastSnapshotIndexToPrune
  entryPoints : N'.pruner.solidEntryPoints = N.pruner.solidEntryPoints
  spent : N'.spentAddresses = N.spentAddresses

theorem find?_withoutTransactions (t : Tangle Hash) (hashes : List Hash) (x : Hash) :
    (t.withoutTransactions hashes).transactions.find? x =
      if x ∈ hashes then none else t.transactions.find? x := by
  rw [Tangle.withoutTransactions, Table.find?_delete]
  cases hf : t.transactions.find? x with
  | none => simp
  | some tx =>
    have hk : tx.hash = x := Table.key_of_find? hf
    by_cases hx : x ∈ hashes
    · simp [hk, hx]
    · simp [hk, hx]

omit [DecidableEq Hash] in
/-- A write, for both outcomes of its call. -/
theorem onTangle_write (site : Site) (f : Tangle Hash → Tangle Hash) (N : Node Hash) :
    onTangle (Tangle.attempt site >>= fun _ => update f) N =
      if N.ledger.tangle.succeeds site then .ok () (N.withTangle (f (N.ledger.tangle.popped site)))
      else .error .storageFailed (N.withTangle (N.ledger.tangle.popped site)) := by
  have hrun := Tangle.attempt_eq site N.ledger.tangle
  split
  · rename_i hs
    rw [if_pos hs] at hrun
    refine onTangle_eq_ok.mpr ⟨_, ?_, rfl⟩
    rw [bind_apply_ok hrun, update_apply]
  · rename_i hs
    rw [if_neg hs] at hrun
    exact onTangle_eq_error.mpr ⟨_, bind_apply_error hrun, rfl⟩

theorem succeeds_withoutTransactions (t : Tangle Hash) (hashes : List Hash) (site : Site) :
    (t.withoutTransactions hashes).succeeds site = t.succeeds site := rfl

omit [DecidableEq Hash] in
theorem succeeds_popped {site site' : Site} (h : site' ≠ site) (t : Tangle Hash) :
    (t.popped site).succeeds site' = t.succeeds site' := by
  unfold Tangle.succeeds Tangle.popped
  dsimp only
  rw [Function.update_of_ne h]

omit [DecidableEq Hash] in
theorem tangle_withTangle (N : Node Hash) (t : Tangle Hash) :
    (N.withTangle t).ledger.tangle = t := rfl

/-- **The deletions, for every pattern of failures.** -/
theorem deleted_deleteCollected (hash : Hash) (toPrune : List Hash) (N : Node Hash) :
    Deleted hash toPrune N (final (deleteCollected hash toPrune) N) := by
  have h₁ : onTangle (Tangle.transactionsDelete (hashSetRemove toPrune hash)) N = _ :=
    onTangle_write .transactionsDelete _ N
  cases hp : N.ledger.tangle.succeeds .transactionsDelete with
  | false =>
    -- nothing was deleted
    rw [hp, if_neg Bool.false_ne_true] at h₁
    rw [deleteCollected, final_bind_of_error h₁]
    have hpast : N.deletesPast = false := hp
    have htip : N.deletesTip = false := by simp [deletesTip, hpast]
    have hrow : N.deletesRow = false := by simp [deletesRow, htip]
    refine ⟨fun x => ?_, by rw [hrow]; rfl, by rw [hrow]; rfl, rfl, rfl, rfl, rfl, rfl⟩
    rw [hpast, htip, if_neg (by simp)]
    rfl
  | true =>
    rw [hp, if_pos rfl] at h₁
    have hpast : N.deletesPast = true := hp
    -- the past is gone; the second deletion takes the milestone's own transaction
    let t₁ := (N.ledger.tangle.popped .transactionsDelete).withoutTransactions
      (hashSetRemove toPrune hash)
    have hfind₁ : ∀ x, t₁.transactions.find? x =
        if x ∈ toPrune ∧ x ≠ hash then none else N.ledger.tangle.transactions.find? x := by
      intro x
      rw [find?_withoutTransactions]
      simp only [mem_hashSetRemove]
      rfl
    have h₂ : onTangle (Tangle.transactionsDelete [hash]) (N.withTangle t₁) = _ :=
      onTangle_write .transactionsDelete _ (N.withTangle t₁)
    rw [deleteCollected, final_bind_of_ok h₁]
    rw [tangle_withTangle, succeeds_withoutTransactions] at h₂
    cases ht : (N.ledger.tangle.popped .transactionsDelete).succeeds .transactionsDelete with
    | false =>
      -- the past only
      rw [ht, if_neg Bool.false_ne_true] at h₂
      rw [final_bind_of_error h₂]
      have htip : N.deletesTip = false := by simp [deletesTip, ht]
      have hrow : N.deletesRow = false := by simp [deletesRow, htip]
      refine ⟨fun x => ?_, by rw [hrow]; rfl, by rw [hrow]; rfl, rfl, rfl, rfl, rfl, rfl⟩
      simp only [hpast, htip, true_and, Bool.false_eq_true, false_and, or_false]
      exact hfind₁ x
    | true =>
      rw [ht, if_pos rfl] at h₂
      have htip : N.deletesTip = true := by simp [deletesTip, hpast, ht]
      let t₂ := (t₁.popped .transactionsDelete).withoutTransactions [hash]
      have hfind₂ : ∀ x, t₂.transactions.find? x =
          if (N.deletesPast ∧ x ∈ toPrune ∧ x ≠ hash) ∨ (N.deletesTip ∧ x = hash) then none
          else N.ledger.tangle.transactions.find? x := by
        intro x
        rw [find?_withoutTransactions]
        simp only [hpast, htip, true_and, List.mem_singleton]
        by_cases he : x = hash
        · simp [he]
        · simp only [he, if_false, or_false]
          exact hfind₁ x
      have h₂' : onTangle (Tangle.transactionsDelete [hash]) (N.withTangle t₁) =
          .ok () (N.withTangle t₂) := h₂
      have h₃ : onTangle (Tangle.milestoneDelete hash) (N.withTangle t₂) = _ :=
        onTangle_write .milestoneDelete _ (N.withTangle t₂)
      rw [final_bind_of_ok h₂']
      rw [tangle_withTangle, succeeds_withoutTransactions, succeeds_popped (by decide),
        succeeds_withoutTransactions, succeeds_popped (by decide)] at h₃
      cases hm : N.ledger.tangle.succeeds .milestoneDelete with
      | false =>
        -- every transaction, and the row stays
        rw [hm, if_neg Bool.false_ne_true] at h₃
        have hrow : N.deletesRow = false := by simp [deletesRow, hm]
        rw [final_bind_of_error h₃]
        exact ⟨hfind₂, by rw [hrow]; rfl, by rw [hrow]; rfl, rfl, rfl, rfl, rfl, rfl⟩
      | true =>
        rw [hm, if_pos rfl] at h₃
        have hrow : N.deletesRow = true := by simp [deletesRow, htip, hm]
        rw [final_bind_of_ok h₃, final_update]
        exact ⟨hfind₂, by rw [hrow]; rfl, by rw [hrow]; rfl, rfl, rfl, rfl, rfl, rfl⟩

/-! ## The whole step -/

/-- The state between the collection and the deletions. -/
def beforeDeletion (conf : Conf Hash) (uninit : Uninit Hash) (sponge : Sponge Hash)
    (N : Node Hash) : Node Hash := final (collectNext conf uninit sponge) N

/-- The state after a pruning step. -/
def afterPruning (conf : Conf Hash) (uninit : Uninit Hash) (sponge : Sponge Hash) (N : Node Hash) :
    Node Hash := final (pruneTransactions conf uninit sponge) N

/-- A step that did not get to delete: the milestone could not be loaded, or a
solid entry point is in its cone. -/
structure NothingDeleted (conf : Conf Hash) (uninit : Uninit Hash) (sponge : Sponge Hash)
    (N : Node Hash) : Prop where
  frame : CollectFrame sponge N (afterPruning conf uninit sponge N)
  reason : N.ledger.tangle.succeeds .milestoneLoad = false ∨
    ∃ x ∈ N.pruner.solidEntryPoints, nextCone conf uninit N x
  notInterrupted : ¬ Interrupted conf uninit sponge N

/-- A step that went on to delete `toPrune` and the milestone. -/
structure WentOn (conf : Conf Hash) (uninit : Uninit Hash) (sponge : Sponge Hash) (N : Node Hash)
    (toPrune : List Hash) : Prop where
  loaded : N.ledger.tangle.succeeds .milestoneLoad = true
  frame : CollectFrame sponge N (beforeDeletion conf uninit sponge N)
  deleted : Deleted (nextHash uninit N) toPrune (beforeDeletion conf uninit sponge N)
    (afterPruning conf uninit sponge N)
  collected : (Interrupted conf uninit sponge N ∧ toPrune = []) ∨
    (¬ Interrupted conf uninit sponge N ∧ Collected conf sponge (nextHash uninit N) N
      (beforeDeletion conf uninit sponge N) toPrune)

/-- **What a pruning step can do.** -/
theorem pruneTransactions_cases (conf : Conf Hash) (uninit : Uninit Hash) (sponge : Sponge Hash)
    (N : Node Hash) :
    NothingDeleted conf uninit sponge N ∨ ∃ toPrune, WentOn conf uninit sponge N toPrune := by
  have hfinal : afterPruning conf uninit sponge N = final (pruneOrFail conf uninit sponge) N := by
    unfold afterPruning pruneTransactions
    cases hr : pruneOrFail conf uninit sponge N with
    | ok b N' =>
      have ho : outcome (pruneOrFail conf uninit sponge) N = .ok (.ok b) N' :=
        outcome_eq_ok.mpr (.inl ⟨b, rfl, hr⟩)
      rw [final_bind_of_ok ho, final_of_ok hr]
      rfl
    | error e N' =>
      have ho : outcome (pruneOrFail conf uninit sponge) N = .ok (.error e) N' :=
        outcome_eq_ok.mpr (.inr ⟨e, rfl, hr⟩)
      rw [final_bind_of_ok ho, final_of_error hr]
      rfl
  cases hr : collectNext conf uninit sponge N with
  | error e N₁ =>
    obtain ⟨hframe, hnot, hload⟩ := collectNext_error hr
    rw [pruneOrFail, final_bind_of_error hr] at hfinal
    exact .inl ⟨hfinal ▸ hframe, .inl hload, hnot⟩
  | ok r N₁ =>
    obtain ⟨hash, toPrune, wait⟩ := r
    obtain ⟨rfl, hframe, hcases⟩ := collectNext_ok hr
    rw [pruneOrFail, final_bind_of_ok hr] at hfinal
    have hbefore : beforeDeletion conf uninit sponge N = N₁ := final_of_ok hr
    have hwent : wait = false →
        ((Interrupted conf uninit sponge N ∧ toPrune = []) ∨ (¬ Interrupted conf uninit sponge N ∧
          Collected conf sponge (nextHash uninit N) N N₁ toPrune)) →
        WentOn conf uninit sponge N toPrune := by
      intro hw hcol
      refine ⟨succeeds_of_collectNext hr, hbefore ▸ hframe, ?_, hbefore ▸ hcol⟩
      rw [hbefore, hfinal]
      dsimp only
      rw [hw, if_neg Bool.false_ne_true]
      have hdel := deleted_deleteCollected (nextHash uninit N) toPrune N₁
      cases hd : deleteCollected (nextHash uninit N) toPrune N₁ with
      | ok u N₂ => rwa [final_bind_of_ok hd, final_pure, ← final_of_ok hd]
      | error e N₂ => rwa [final_bind_of_error hd, ← final_of_error hd]
    rcases hcases with ⟨hint, hw, hnil⟩ | ⟨hnot, ⟨rfl, hsep⟩ | ⟨hw, hcol⟩⟩
    · exact .inr ⟨toPrune, hwent hw (.inl ⟨hint, hnil⟩)⟩
    · refine .inl ⟨?_, .inr hsep, hnot⟩
      rw [hfinal]
      exact hframe
    · exact .inr ⟨toPrune, hwent hw (.inr ⟨hnot, hcol⟩)⟩

end Node

end Entangled
