import Entangled.Ledger.Cone
/-!
# Confirming a milestone, and failing to

`update_snapshot` computes the delta of a milestone, then writes the snapshot
indexes of its cone, then the delta, then the balances, with nothing to undo
the first write when a later one fails. The first write is also what the
entry test reads. `consistentDelta_ok` and `confirmMilestone_ok` are the specs
of the two halves that the rest of the ledger development uses;
`updateSnapshot_invisible_iff` says when a failure leaves no trace.
-/

namespace Entangled

open Prog Search

variable {Hash : Type} [DecidableEq Hash] [HashBytes Hash]

namespace Ledger

variable {sponge : Sponge Hash} {genesis : Hash} {m : Milestone Hash} {L L' L₁ : Ledger Hash}
  {t t' : Tangle Hash} {delta : StateDelta Hash} {e : Retcode}

/-! ## The first half -/

/-- Snapshots unchanged, and the store up to validities. -/
structure SameLedger (L L' : Ledger Hash) : Prop where
  store : Tangle.SameCore L.tangle L'.tangle
  initial : L'.initial = L.initial
  latest : L'.latest = L.latest

omit [DecidableEq Hash] in
theorem SameLedger.refl (L : Ledger Hash) : SameLedger L L := ⟨.refl _, rfl, rfl⟩

omit [DecidableEq Hash] in
theorem SameLedger.trans {A B C : Ledger Hash} (h : SameLedger A B) (h' : SameLedger B C) :
    SameLedger A C :=
  ⟨h.store.trans h'.store, h'.initial.trans h.initial, h'.latest.trans h.latest⟩

omit [DecidableEq Hash] in
theorem keeps_onTangle {α : Type} {x : TangleM Hash α} (hx : Keeps Tangle.SameCore x) :
    Keeps SameLedger (onTangle x) :=
  Keeps.zoom hx fun _ _ h => ⟨h, rfl, rfl⟩

theorem keeps_snapshotCreatePatch (s : Snapshot Hash) (d : StateDelta Hash) :
    Keeps Tangle.SameCore (snapshotCreatePatch s d) :=
  Tangle.keepsCore_of_keeps (Tangle.keeps_withHeap rfl _ _)

theorem keeps_consistentDelta (sponge : Sponge Hash) (genesis : Hash) (m : Milestone Hash) :
    Keeps SameLedger (consistentDelta sponge genesis m) := by
  refine Keeps.bind SameLedger.trans
    (keeps_onTangle (Tangle.keepsCore_of_keeps (Tangle.keeps_read rfl _))) fun o => ?_
  cases o with
  | none => exact Keeps.fail .refl _
  | some tx =>
    dsimp only
    split
    · exact Keeps.fail .refl _
    split
    · exact Keeps.pure .refl _
    refine Keeps.bind SameLedger.trans (Keeps.gets .refl _) fun L => ?_
    refine Keeps.bind SameLedger.trans (keeps_onTangle (keeps_getLatestDelta _ _ _ _ _ _))
      fun r => ?_
    split
    · exact Keeps.pure .refl _
    refine Keeps.bind SameLedger.trans (keeps_onTangle (keeps_snapshotCreatePatch _ _))
      fun patch => ?_
    split
    · exact Keeps.pure .refl _
    · exact Keeps.pure .refl _

/-- The blocked hashes of the walks for a milestone. -/
abbrev milestoneBlocked (genesis : Hash) (L : Ledger Hash) : List Hash :=
  blocked genesis L.initial []

/-- The net change of a milestone's cone. -/
noncomputable abbrev milestoneChange (genesis : Hash) (L : Ledger Hash) (m : Milestone Hash)
    (a : Hash) : ℤ :=
  netChange L.tangle.core L.latest.index (milestoneBlocked genesis L) m.hash a

/-- What the first half has found when it asks for the writes. -/
structure FoundDelta (sponge : Sponge Hash) (genesis : Hash) (m : Milestone Hash) (L : Ledger Hash)
    (delta : StateDelta Hash) : Prop where
  stored : ∃ tx, L.tangle.transactions.find? m.hash = some tx ∧ tx.snapshotIndex = 0
  noZero : delta.NoZero
  get : ∀ a, delta.get a = Int64.ofInt (milestoneChange genesis L m a)
  nonneg : ∀ e ∈ delta.rows, 0 ≤ L.latest.state.get e.1 + e.2
  zeroSum : Tangle.ValidZeroSum sponge L.tangle → ∑ᶠ a, milestoneChange genesis L m a = 0

/-- **How the first half returns**: with a consistent delta; with an answer that
is no; or with yes, for a milestone that carries a snapshot index. -/
theorem consistentDelta_ok {r : Bool ⊕ StateDelta Hash}
    (hr : consistentDelta sponge genesis m L = .ok r L') :
    (∃ delta, r = .inr delta ∧ FoundDelta sponge genesis m L delta) ∨ r = .inl false ∨
      (r = .inl true ∧ ∃ tx, L.tangle.transactions.find? m.hash = some tx ∧
        tx.snapshotIndex ≠ 0) := by
  obtain ⟨o, L₁, h₁, h₂⟩ := bind_eq_ok.mp hr
  obtain ⟨t₁, ht₁, rfl⟩ := zoom_eq_ok.mp h₁
  obtain ⟨rfl, hs₁⟩ := Tangle.transactionLoadPartial_ok ht₁
  cases hf : L.tangle.transactions.find? m.hash with
  | none => rw [hf] at h₂; cases h₂
  | some tx =>
    rw [hf] at h₂
    dsimp only at h₂
    split at h₂
    · cases h₂
    split at h₂
    · rename_i hidx
      cases h₂
      exact .inr (.inr ⟨rfl, tx, rfl, hidx⟩)
    rename_i hidx
    rw [gets_bind] at h₂
    obtain ⟨⟨seen, ld⟩, L₂, h₃, h₄⟩ := bind_eq_ok.mp h₂
    obtain ⟨t₂, ht₂, rfl⟩ := zoom_eq_ok.mp h₃
    dsimp only at h₄
    split at h₄
    · cases h₄
      exact .inr (.inl rfl)
    rename_i hvalid
    have hld := (getLatestDelta_ok ht₂ (by simpa using hvalid)).of_sameTables hs₁
    obtain ⟨patch, L₃, h₅, h₆⟩ := bind_eq_ok.mp h₄
    obtain ⟨t₃, ht₃, rfl⟩ := zoom_eq_ok.mp h₅
    obtain ⟨heap, hheap, rfl, -⟩ := Tangle.withHeap_ok rfl ht₃
    split at h₆
    · rename_i hcons
      cases h₆
      refine .inl ⟨ld.state, rfl, ⟨tx, hf, not_not.mp hidx⟩, hld.noZero, hld.get, ?_, hld.zeroSum⟩
      exact (StateDelta.isConsistent_createPatch rfl hheap).mp hcons
    · cases h₆
      exact .inr (.inl rfl)

/-! ## The second half -/

theorem updateSnapshotMilestoneFunc_ok {h : Hash} {analyzed : List Hash} {v : Verdict Hash}
    {w w' : Walk Hash (List Hash)} (hr : updateSnapshotMilestoneFunc h analyzed w = .ok v w') :
    w.pack.loaded = true ∧ w'.tangle = w.tangle ∧ ∃ tx, w.pack.model = some tx ∧
      w'.data = if tx.snapshotIndex = 0 then hashSetAdd w.data h else w.data := by
  rw [updateSnapshotMilestoneFunc, gets_bind] at hr
  split at hr
  · cases hr
  rename_i hl
  refine ⟨by simpa using hl, ?_⟩
  cases hm : w.pack.model with
  | none => rw [hm] at hr; cases hr
  | some tx =>
    rw [hm] at hr
    dsimp only at hr
    split at hr
    · rename_i hz
      obtain ⟨_, w₁, h₁, h₂⟩ := bind_eq_ok.mp hr
      cases h₁
      cases h₂
      exact ⟨rfl, tx, rfl, (if_pos hz).symm⟩
    · rename_i hz
      cases hr
      exact ⟨rfl, tx, rfl, (if_neg hz).symm⟩

theorem keeps_updateSnapshotMilestoneFunc (h : Hash) (analyzed : List Hash) :
    Keeps (Walk.OnTangle Tangle.SameTables) (updateSnapshotMilestoneFunc h analyzed) := by
  rw [keeps_iff]
  constructor
  · intro w v w' hr
    rw [Walk.OnTangle, (updateSnapshotMilestoneFunc_ok hr).2.1]
    exact .refl _
  · intro w e w' hr
    rw [updateSnapshotMilestoneFunc, gets_bind] at hr
    split at hr
    · cases hr
      exact Tangle.SameTables.refl _
    · cases hm : w.pack.model with
      | none =>
        rw [hm] at hr
        cases hr
        exact Tangle.SameTables.refl _
      | some tx =>
        rw [hm] at hr
        dsimp only at hr
        split at hr
        · cases hr
        · cases hr

/-- The walk of `update_snapshot_milestone` collects its entry point, when that
is stored, unconfirmed and not blocked. -/
theorem entryPoint_mem_hashes {h : Hash} {B seen hashes : List Hash} {tx : Transaction Hash}
    (hf : t.transactions.find? h = some tx) (hz : tx.snapshotIndex = 0)
    (hb : h ∉ hashSetAdd B genesis)
    (hr : Walk.run [] (Walk.dfsToPast updateSnapshotMilestoneFunc h genesis B) t =
      .ok (seen, hashes) t') : h ∈ hashes := by
  obtain ⟨w, hw, rfl, rfl⟩ := Walk.run_eq_ok.mp hr
  have hinv : Invariant (Walk.visitPast updateSnapshotMilestoneFunc) fun stack seen w =>
      w.tangle.transactions = t.transactions ∧ ((stack = [h] ∧ h ∉ seen) ∨ h ∈ w.data) := by
    refine ⟨?_, ?_⟩
    · rintro x stack seen w ⟨ht, hI⟩ hx
      refine ⟨ht, .inr ?_⟩
      rcases hI with ⟨hst, hn⟩ | hI
      · cases hst
        exact absurd hx hn
      · exact hI
    · rintro x stack seen w r w' ⟨ht, hI⟩ hx hv hstop
      obtain ⟨w₁, v, hload, hfunc, -⟩ := Walk.visitPast_ok hv hstop
      obtain ⟨hs, hd, hp⟩ := Walk.loadPack_ok hload
      obtain ⟨-, htan, tx', hm, hdata⟩ := updateSnapshotMilestoneFunc_ok hfunc
      refine ⟨by rw [htan, hs.1, ht], .inr ?_⟩
      rcases hI with ⟨hst, -⟩ | hI
      · cases hst
        rw [hp, ht, hf] at hm
        obtain rfl : tx = tx' := Option.some.inj hm
        rw [hdata, if_pos hz, mem_hashSetAdd]
        exact .inr rfl
      · rw [hdata, hd]
        split
        · exact mem_hashSetAdd.mpr (.inl hI)
        · exact hI
  rcases search_run hinv ⟨rfl, .inl ⟨rfl, hb⟩⟩ hw with ⟨-, ⟨hst, -⟩ | hmem⟩ |
    ⟨x, seen', w₀, r, -, hvisit, hstop, -⟩
  · cases hst
  · exact hmem
  · exfalso
    obtain ⟨_, w₁, h₁, h₂⟩ := bind_eq_ok.mp hvisit
    obtain ⟨v, w₂, h₃, h₄⟩ := bind_eq_ok.mp h₂
    have hgo : v.shouldStop = false := by
      rw [updateSnapshotMilestoneFunc, gets_bind] at h₃
      split at h₃
      · cases h₃
      · cases hm : w₁.pack.model with
        | none => rw [hm] at h₃; cases h₃
        | some tx' =>
          rw [hm] at h₃
          dsimp only at h₃
          split at h₃ <;> cases h₃ <;> rfl
    simp only [hgo, Bool.false_eq_true, if_false] at h₄
    obtain ⟨next, w₃, h₅, h₆⟩ := bind_eq_ok.mp h₄
    cases h₆
    cases hstop

/-- **The first write.** Some hashes get the index, the milestone's own among
them unless it is blocked. -/
theorem updateSnapshotMilestone_ok {initial : Snapshot Hash}
    (hr : updateSnapshotMilestone genesis initial m.hash m.index t = .ok () t') :
    ∃ hashes, t'.transactions = (t.withSnapshotIndex hashes m.index).transactions ∧
      t'.milestones = t.milestones ∧
      (∀ site, site.commits = true → site ≠ .updateSnapshotIndex →
        t'.faults site = t.faults site) ∧
      ∀ tx, t.transactions.find? m.hash = some tx → tx.snapshotIndex = 0 →
        m.hash ∉ blocked genesis initial [] → m.hash ∈ hashes := by
  obtain ⟨⟨seen, hashes⟩, t₁, h₁, h₂⟩ := bind_eq_ok.mp hr
  have hs : Tangle.SameTables t t₁ := (Walk.keeps_run (Walk.keeps_dfsToPast
    Tangle.storeFrame_sameTables keeps_updateSnapshotMilestoneFunc)).of_ok h₁
  obtain ⟨_, t₂, h₃, h₄⟩ := bind_eq_ok.mp h₂
  cases h₄
  obtain ⟨-, rfl⟩ := Tangle.attempt_ok h₃
  refine ⟨hashes, ?_, hs.2, fun site hc hne => ?_, fun tx hf hz hb => ?_⟩
  · simp only [Tangle.withSnapshotIndex, Tangle.mapTransactions, hs.1]
  · change Function.update t₁.faults _ _ site = _
    rw [Function.update_of_ne hne, hs.3 site hc]
  · exact entryPoint_mem_hashes hf hz hb h₁

/-- A first write that fails has written nothing. -/
theorem updateSnapshotMilestone_error {initial : Snapshot Hash}
    (hr : updateSnapshotMilestone genesis initial m.hash m.index t = .error e t') :
    t'.transactions = t.transactions ∧ t'.milestones = t.milestones := by
  have hkeep : Keeps Tangle.SameTables (Walk.run [] (Walk.dfsToPast updateSnapshotMilestoneFunc
      m.hash genesis (hashSetAppend [] initial.solidEntryPoints.keys))) :=
    Walk.keeps_run (Walk.keeps_dfsToPast Tangle.storeFrame_sameTables
      keeps_updateSnapshotMilestoneFunc)
  rcases bind_eq_error.mp hr with h₁ | ⟨⟨seen, hashes⟩, t₁, h₁, h₂⟩
  · have hs := hkeep.of_error h₁
    exact ⟨hs.1, hs.2⟩
  · have hs := hkeep.of_ok h₁
    rcases bind_eq_error.mp h₂ with h₃ | ⟨_, t₂, h₃, h₄⟩
    · obtain ⟨-, rfl⟩ := Tangle.attempt_error h₃
      exact ⟨hs.1, hs.2⟩
    · cases h₄

omit [DecidableEq Hash] in
/-- The second write, which an empty delta skips. -/
theorem storeDelta_ok {index : ℕ} (hr : storeDelta index delta t = .ok () t') :
    t'.transactions = t.transactions ∧
      t'.milestones = (if delta.rows = [] then t.milestones
        else t.milestones.setDelta index (StateDelta.serialize delta)) ∧
      t'.faults .applyAlloc = t.faults .applyAlloc := by
  unfold storeDelta at hr
  split at hr
  · rename_i hd
    cases hr
    exact ⟨rfl, (if_pos hd).symm, rfl⟩
  · rename_i hd
    obtain ⟨_, t₁, h₁, h₂⟩ := bind_eq_ok.mp hr
    cases h₂
    obtain ⟨-, rfl⟩ := Tangle.attempt_ok h₁
    exact ⟨rfl, (if_neg hd).symm, rfl⟩

omit [DecidableEq Hash] in
theorem storeDelta_ok_iff (index : ℕ) :
    (∃ t', storeDelta index delta t = .ok () t') ↔
      delta.rows = [] ∨ (t.faults .stateDeltaStore).head? ≠ some true := by
  unfold storeDelta
  by_cases hd : delta.rows = []
  · simp [hd]
  · rw [if_neg hd]
    constructor
    · rintro ⟨t', h⟩
      obtain ⟨_, t₁, h₁, -⟩ := bind_eq_ok.mp h
      exact .inr (Tangle.attempt_ok h₁).1
    · rintro (h | h)
      · exact absurd h hd
      · exact ⟨_, by rw [Tangle.stateDeltaStore, bind_apply_ok (Tangle.attempt_of_head h)]; rfl⟩

omit [DecidableEq Hash] in
theorem storeDelta_error {index : ℕ} (hr : storeDelta index delta t = .error e t') :
    t'.transactions = t.transactions ∧ t'.milestones = t.milestones := by
  unfold storeDelta at hr
  split at hr
  · cases hr
  · rcases bind_eq_error.mp hr with h₁ | ⟨_, t₁, h₁, h₂⟩
    · obtain ⟨-, rfl⟩ := Tangle.attempt_error h₁
      exact ⟨rfl, rfl⟩
    · cases h₂

/-- The third write. -/
theorem snapshotApplyPatch_ok {index : ℕ} (hr : snapshotApplyPatch delta index L = .ok () L') :
    delta.sum = 0 ∧ L'.latest.index = index ∧ L'.initial = L.initial ∧
      (∀ a, L'.latest.state.get a = L.latest.state.get a + delta.get a) ∧
      L'.tangle.transactions = L.tangle.transactions ∧
      L'.tangle.milestones = L.tangle.milestones := by
  unfold snapshotApplyPatch at hr
  split at hr
  · cases hr
  rename_i hsum
  rw [update_bind] at hr
  obtain ⟨heap, hheap, rfl⟩ := zoom_eq_ok.mp hr
  exact ⟨not_not.mp hsum, rfl, rfl, fun a => StateDelta.get_applyPatch hheap, rfl, rfl⟩

theorem snapshotApplyPatch_ok_iff {index : ℕ} :
    (∃ L', snapshotApplyPatch delta index L = .ok () L') ↔ delta.sum = 0 ∧
      true ∉ (L.tangle.faults .applyAlloc).take
        (StateDelta.newEntries L.latest.state delta.rows) := by
  unfold snapshotApplyPatch
  by_cases hsum : delta.sum = 0
  · simp only [hsum, ne_eq, not_true_eq_false, if_false, true_and, update_bind]
    rw [← StateDelta.applyPatch_ok_iff (p := delta)
      (m := ⟨L.latest.state, L.tangle.faults .applyAlloc⟩)]
    constructor
    · rintro ⟨L', h⟩
      obtain ⟨heap, hheap, -⟩ := zoom_eq_ok.mp h
      exact ⟨heap, hheap⟩
    · rintro ⟨heap, hheap⟩
      exact ⟨_, zoom_eq_ok.mpr ⟨heap, hheap, rfl⟩⟩
  · simp [hsum]

theorem snapshotApplyPatch_error {index : ℕ} (hr : snapshotApplyPatch delta index L = .error e L') :
    L'.tangle.transactions = L.tangle.transactions := by
  unfold snapshotApplyPatch at hr
  split at hr
  · cases hr
    rfl
  · rw [update_bind] at hr
    obtain ⟨heap, -, rfl⟩ := zoom_eq_error.mp hr
    rfl

/-- What a confirmed milestone leaves: its delta is stored unless it is empty,
and added to the balances. -/
structure Confirmed (m : Milestone Hash) (delta : StateDelta Hash) (L L' : Ledger Hash) : Prop where
  sum : delta.sum = 0
  index : L'.latest.index = m.index
  initial : L'.initial = L.initial
  get : ∀ a, L'.latest.state.get a = L.latest.state.get a + delta.get a
  milestones : L'.tangle.milestones = if delta.rows = [] then L.tangle.milestones
    else L.tangle.milestones.setDelta m.index (StateDelta.serialize delta)

theorem confirmMilestone_ok (hr : confirmMilestone genesis m delta L = .ok () L') :
    Confirmed m delta L L' := by
  rw [confirmMilestone, gets_bind] at hr
  obtain ⟨_, L₁, h₁, h₂⟩ := bind_eq_ok.mp hr
  obtain ⟨t₁, ht₁, rfl⟩ := zoom_eq_ok.mp h₁
  obtain ⟨hashes, -, hms, -⟩ := updateSnapshotMilestone_ok ht₁
  obtain ⟨_, L₂, h₃, h₄⟩ := bind_eq_ok.mp h₂
  obtain ⟨t₂, ht₂, rfl⟩ := zoom_eq_ok.mp h₃
  obtain ⟨-, hms₂, -⟩ := storeDelta_ok ht₂
  obtain ⟨hsum, hidx, hini, hget, -, hms₃⟩ := snapshotApplyPatch_ok h₄
  refine ⟨hsum, hidx, hini, hget, ?_⟩
  rw [hms₃]
  change t₂.milestones = _
  rw [hms₂, hms]

/-- **What a call that returns `true` has done**: nothing, for a milestone that
carried an index, or the whole of it. -/
theorem updateSnapshot_ok_true (hr : updateSnapshot sponge genesis m L = .ok true L') :
    ((∃ tx, L.tangle.transactions.find? m.hash = some tx ∧ tx.snapshotIndex ≠ 0) ∧
      SameLedger L L') ∨
    ∃ delta L₁, FoundDelta sponge genesis m L delta ∧ SameLedger L L₁ ∧
      Confirmed m delta L₁ L' := by
  obtain ⟨r, L₁, h₁, h₂⟩ := bind_eq_ok.mp hr
  have hsame := (keeps_consistentDelta sponge genesis m).of_ok h₁
  rcases consistentDelta_ok h₁ with ⟨delta, rfl, hd⟩ | rfl | ⟨rfl, htx⟩
  · obtain ⟨_, L₂, h₃, h₄⟩ := bind_eq_ok.mp h₂
    cases h₄
    exact .inr ⟨delta, L₁, hd, hsame, confirmMilestone_ok h₃⟩
  · cases h₂
  · cases h₂
    exact .inl ⟨htx, hsame⟩

/-- A call that returns `false` changes validities at most. -/
theorem updateSnapshot_ok_false (hr : updateSnapshot sponge genesis m L = .ok false L') :
    SameLedger L L' := by
  obtain ⟨r, L₁, h₁, h₂⟩ := bind_eq_ok.mp hr
  have hsame := (keeps_consistentDelta sponge genesis m).of_ok h₁
  cases r with
  | inl b =>
    cases h₂
    exact hsame
  | inr delta =>
    obtain ⟨_, L₂, h₃, h₄⟩ := bind_eq_ok.mp h₂
    cases h₄

/-! ## Failures -/

/-- Snapshots and tables unchanged, up to validities. -/
structure SameData (L L' : Ledger Hash) : Prop where
  core : L'.tangle.core = L.tangle.core
  milestones : L'.tangle.milestones = L.tangle.milestones
  initial : L'.initial = L.initial
  latest : L'.latest = L.latest

omit [DecidableEq Hash] in
theorem SameLedger.sameData (h : SameLedger L L') : SameData L L' :=
  ⟨h.store.core, h.store.milestones, h.initial, h.latest⟩

theorem SameData.milestoneChange_eq (h : SameData L L') (a : Hash) :
    milestoneChange genesis L' m a = milestoneChange genesis L m a := by
  unfold milestoneChange milestoneBlocked
  rw [h.core, h.initial, h.latest]

/-- The snapshot index of every stored transaction. -/
def snapshotIndexes (t : Tangle Hash) : List (Hash × ℕ) :=
  t.transactions.rows.map fun tx => (tx.hash, tx.snapshotIndex)

omit [DecidableEq Hash] in
theorem snapshotIndexes_core (h : t'.core = t.core) : snapshotIndexes t' = snapshotIndexes t := by
  have hmap : ∀ t : Tangle Hash,
      snapshotIndexes t = t.core.rows.map fun tx => (tx.hash, tx.snapshotIndex) := by
    intro t
    simp only [snapshotIndexes, Tangle.core, Table.update, List.map_map]
    rfl
  rw [hmap, hmap, h]

/-- What a call that fails must leave as it was. -/
structure Untouched (L L' : Ledger Hash) : Prop where
  latest : L'.latest = L.latest
  deltas : ∀ index, L'.tangle.storedDelta index = L.tangle.storedDelta index
  indexes : snapshotIndexes L'.tangle = snapshotIndexes L.tangle

omit [DecidableEq Hash] in
theorem SameData.untouched (h : SameData L L') : Untouched L L' :=
  ⟨h.latest, fun _ => by rw [Tangle.storedDelta, Tangle.storedDelta, h.milestones],
    snapshotIndexes_core h.core⟩

/-- A retry from `L'` that returns `true` has applied the change the milestone
had in `L`, whatever fails or not this time. -/
def RetryApplies (sponge : Sponge Hash) (genesis : Hash) (m : Milestone Hash) (L L' : Ledger Hash) :
    Prop :=
  ∀ faults L'', (∃ tx, L.tangle.transactions.find? m.hash = some tx ∧ tx.snapshotIndex = 0) →
    updateSnapshot sponge genesis m { L' with tangle := { L'.tangle with faults := faults } } =
      .ok true L'' →
    L''.latest.index = m.index ∧ ∀ a, L''.latest.state.get a =
      L.latest.state.get a + Int64.ofInt (milestoneChange genesis L m a)

/-- A call that fails leaves no trace, and a retry does the whole work. -/
def Invisible (sponge : Sponge Hash) (genesis : Hash) (m : Milestone Hash) (L : Ledger Hash) :
    Prop :=
  ∀ e L', updateSnapshot sponge genesis m L = .error e L' →
    Untouched L L' ∧ RetryApplies sponge genesis m L L'

/-- The call gets as far as writing the snapshot indexes of the cone. -/
def WritesIndexes (sponge : Sponge Hash) (genesis : Hash) (m : Milestone Hash) (L : Ledger Hash) :
    Prop :=
  ∃ delta L₁ t₂, consistentDelta sponge genesis m L = .ok (.inr delta) L₁ ∧
    updateSnapshotMilestone genesis L₁.initial m.hash m.index L₁.tangle = .ok () t₂

/-- The two writes after that go through: the delta is stored unless no address
changes, and its sum is zero and its new addresses find memory. -/
structure LaterWritesSucceed (genesis : Hash) (m : Milestone Hash) (L : Ledger Hash) : Prop where
  store : (∀ a, (2 ^ 64 : ℤ) ∣ milestoneChange genesis L m a) ∨
    (L.tangle.faults .stateDeltaStore).head? ≠ some true
  sum : (2 ^ 64 : ℤ) ∣ ∑ᶠ a, milestoneChange genesis L m a
  apply : true ∉ (L.tangle.faults .applyAlloc).take
    (Set.ncard {a | ¬ (2 ^ 64 : ℤ) ∣ milestoneChange genesis L m a ∧ a ∉ L.latest.state.keys})

theorem FoundDelta.rows_eq_nil_iff (h : FoundDelta sponge genesis m L delta) :
    delta.rows = [] ↔ ∀ a, (2 ^ 64 : ℤ) ∣ milestoneChange genesis L m a := by
  constructor
  · intro hnil a
    rw [← Word.ofInt_eq_zero_iff, ← h.get a]
    exact StateDelta.get_of_rows_nil hnil
  · intro hdvd
    rw [List.eq_nil_iff_forall_not_mem]
    intro e he
    refine h.noZero e he ?_
    rw [← StateDelta.get_of_mem he, h.get, Word.ofInt_eq_zero_iff]
    exact hdvd e.1

theorem FoundDelta.sum_eq (h : FoundDelta sponge genesis m L delta) :
    delta.sum = Int64.ofInt (∑ᶠ a, milestoneChange genesis L m a) :=
  StateDelta.sum_eq_ofInt_finsum h.get (finite_support_netChange _ _ _ _)

/-- The three conditions, read off the delta that was found. -/
theorem FoundDelta.laterWrites_iff (h : FoundDelta sponge genesis m L delta) :
    LaterWritesSucceed genesis m L ↔
      (delta.rows = [] ∨ (L.tangle.faults .stateDeltaStore).head? ≠ some true) ∧ delta.sum = 0 ∧
        true ∉ (L.tangle.faults .applyAlloc).take
          (StateDelta.newEntries L.latest.state delta.rows) := by
  have hcount : StateDelta.newEntries L.latest.state delta.rows =
      Set.ncard {a | ¬ (2 ^ 64 : ℤ) ∣ milestoneChange genesis L m a ∧
        a ∉ L.latest.state.keys} := by
    rw [StateDelta.newEntries_eq_ncard h.noZero]
    simp only [h.get, ne_eq, Word.ofInt_eq_zero_iff]
  rw [h.rows_eq_nil_iff, h.sum_eq, Word.ofInt_eq_zero_iff, hcount]
  exact ⟨fun hl => ⟨hl.store, hl.sum, hl.apply⟩, fun h => ⟨h.1, h.2.1, h.2.2⟩⟩

/-- Once the indexes are written, the rest of the work succeeds or the written
indexes stay. -/
theorem confirmMilestone_of_indexes
    (h₁ : updateSnapshotMilestone genesis L.initial m.hash m.index L.tangle = .ok () t) :
    ((∃ L', confirmMilestone genesis m delta L = .ok () L') ↔
      (delta.rows = [] ∨ (L.tangle.faults .stateDeltaStore).head? ≠ some true) ∧ delta.sum = 0 ∧
        true ∉ (L.tangle.faults .applyAlloc).take
          (StateDelta.newEntries L.latest.state delta.rows)) ∧
    ∀ e L', confirmMilestone genesis m delta L = .error e L' →
      L'.tangle.transactions = t.transactions := by
  have hz : onTangle (updateSnapshotMilestone genesis L.initial m.hash m.index) L =
      .ok () { L with tangle := t } := zoom_eq_ok.mpr ⟨t, h₁, rfl⟩
  obtain ⟨hashes, -, -, hfaults, -⟩ := updateSnapshotMilestone_ok h₁
  have hrest : confirmMilestone genesis m delta L =
      (onTangle (storeDelta m.index delta) >>= fun _ => snapshotApplyPatch delta m.index)
        { L with tangle := t } := by
    rw [confirmMilestone, gets_bind]
    exact bind_apply_ok hz
  rw [hrest]
  constructor
  · rw [← hfaults .stateDeltaStore rfl (by decide), ← hfaults .applyAlloc rfl (by decide),
      ← storeDelta_ok_iff m.index]
    constructor
    · rintro ⟨L', hr⟩
      obtain ⟨_, L₂, h₂, h₃⟩ := bind_eq_ok.mp hr
      obtain ⟨t₂, ht₂, rfl⟩ := zoom_eq_ok.mp h₂
      obtain ⟨hsum, hmem⟩ := snapshotApplyPatch_ok_iff.mp ⟨L', h₃⟩
      refine ⟨⟨t₂, ht₂⟩, hsum, ?_⟩
      rw [← (storeDelta_ok ht₂).2.2]
      exact hmem
    · rintro ⟨⟨t₂, ht₂⟩, hsum, hmem⟩
      rw [← (storeDelta_ok ht₂).2.2] at hmem
      obtain ⟨L', h₃⟩ : ∃ L', snapshotApplyPatch delta m.index { L with tangle := t₂ } =
          .ok () L' := snapshotApplyPatch_ok_iff.mpr ⟨hsum, hmem⟩
      exact ⟨L', bind_eq_ok.mpr ⟨(), _, zoom_eq_ok.mpr ⟨t₂, ht₂, rfl⟩, h₃⟩⟩
  · intro e L' hr
    rcases bind_eq_error.mp hr with h₂ | ⟨_, L₂, h₂, h₃⟩
    · obtain ⟨t₂, ht₂, rfl⟩ := zoom_eq_error.mp h₂
      exact (storeDelta_error ht₂).1
    · obtain ⟨t₂, ht₂, rfl⟩ := zoom_eq_ok.mp h₂
      rw [snapshotApplyPatch_error h₃]
      exact (storeDelta_ok ht₂).1

/-- **How a call fails**: before it has written anything, or after the indexes. -/
theorem updateSnapshot_error (hr : updateSnapshot sponge genesis m L = .error e L') :
    SameData L L' ∨ ∃ delta L₁ t₂, consistentDelta sponge genesis m L = .ok (.inr delta) L₁ ∧
      updateSnapshotMilestone genesis L₁.initial m.hash m.index L₁.tangle = .ok () t₂ ∧
      confirmMilestone genesis m delta L₁ = .error e L' := by
  rcases bind_eq_error.mp hr with h₁ | ⟨r, L₁, h₁, h₂⟩
  · exact .inl ((keeps_consistentDelta sponge genesis m).of_error h₁).sameData
  · have hsame := (keeps_consistentDelta sponge genesis m).of_ok h₁
    cases r with
    | inl b => cases h₂
    | inr delta =>
      rcases bind_eq_error.mp h₂ with h₃ | ⟨_, L₂, h₃, h₄⟩
      · cases hu : updateSnapshotMilestone genesis L₁.initial m.hash m.index L₁.tangle with
        | ok u t₂ => exact .inr ⟨delta, L₁, t₂, h₁, hu, h₃⟩
        | error e' t₂ =>
          left
          have hz : onTangle (updateSnapshotMilestone genesis L₁.initial m.hash m.index) L₁ =
              .error e' { L₁ with tangle := t₂ } := zoom_eq_error.mpr ⟨t₂, hu, rfl⟩
          rw [confirmMilestone, gets_bind] at h₃
          cases (bind_apply_error hz).symm.trans h₃
          obtain ⟨htx, hms⟩ := updateSnapshotMilestone_error hu
          refine ⟨?_, hms.trans hsame.store.milestones, hsame.initial, hsame.latest⟩
          rw [← hsame.store.core, Tangle.core, Tangle.core]
          dsimp only
          rw [htx]
      · cases h₄

/-- A retry from the same data confirms the milestone once. -/
theorem SameData.retryApplies (h : SameData L L') : RetryApplies sponge genesis m L L' := by
  rintro faults L'' ⟨tx, hf, hidx⟩ hr
  have hdata : SameData L { L' with tangle := { L'.tangle with faults := faults } } :=
    ⟨h.core, h.milestones, h.initial, h.latest⟩
  have hcore : ∀ u : Ledger Hash, SameData L u → ∀ tx', u.tangle.transactions.find? m.hash =
      some tx' → tx'.snapshotIndex = 0 := by
    intro u hu tx' hf'
    have h₁ := Tangle.find?_core u.tangle m.hash
    rw [hu.core, Tangle.find?_core, hf, hf'] at h₁
    have h₂ : tx.core = tx'.core := Option.some.inj h₁
    have h₃ : tx.core.snapshotIndex = tx'.core.snapshotIndex := by rw [h₂]
    exact h₃.symm.trans hidx
  rcases updateSnapshot_ok_true hr with ⟨⟨tx', hf', hn⟩, -⟩ | ⟨delta, L₁, hd, hsame, hconf⟩
  · exact absurd (hcore _ hdata tx' hf') hn
  · refine ⟨hconf.index, fun a => ?_⟩
    rw [hconf.get a, hsame.latest, hd.get a, hdata.milestoneChange_eq, hdata.latest]

/-- Written indexes show: the milestone itself carries its index. -/
theorem not_untouched_of_indexes (hm : 0 < m.index) (hd : FoundDelta sponge genesis m L delta)
    (hne : ∃ a, milestoneChange genesis L m a ≠ 0) (hsame : SameLedger L L₁)
    (hu : updateSnapshotMilestone genesis L₁.initial m.hash m.index L₁.tangle = .ok () t)
    (ht : L'.tangle.transactions = t.transactions) : ¬ Untouched L L' := by
  intro hun
  obtain ⟨hashes, htx, -, -, hmem⟩ := updateSnapshotMilestone_ok hu
  obtain ⟨tx, hf, hz⟩ := hd.stored
  obtain ⟨tx₁, hf₁, hz₁⟩ : ∃ tx₁, L₁.tangle.transactions.find? m.hash = some tx₁ ∧
      tx₁.snapshotIndex = 0 := by
    have h₁ := Tangle.find?_core L₁.tangle m.hash
    rw [hsame.store.core, Tangle.find?_core, hf] at h₁
    obtain ⟨tx₁, hf₁, hc⟩ := Option.map_eq_some_iff.mp h₁.symm
    have h₂ : tx₁.core.snapshotIndex = tx.core.snapshotIndex := by rw [hc]
    exact ⟨tx₁, hf₁, h₂.trans hz⟩
  have hblocked : m.hash ∉ blocked genesis L₁.initial [] := by
    rw [hsame.initial]
    intro hb
    obtain ⟨a, ha⟩ := hne
    exact ha (netChange_of_mem hb)
  have hin := hmem tx₁ hf₁ hz₁ hblocked
  -- the row of the milestone after the write, against its row before
  have hafter : (m.hash, m.index) ∈ snapshotIndexes L'.tangle := by
    refine List.mem_map.mpr ⟨{ tx₁ with snapshotIndex := m.index }, ?_, ?_⟩
    · rw [ht, htx]
      refine List.mem_map.mpr ⟨tx₁, Table.mem_of_find? hf₁, ?_⟩
      rw [if_pos (by rw [Table.key_of_find? hf₁]; exact hin)]
    · have hkey : tx₁.hash = m.hash := Table.key_of_find? hf₁
      exact Prod.ext hkey rfl
  rw [hun.indexes] at hafter
  obtain ⟨tx', htx', heq⟩ := List.mem_map.mp hafter
  have hfind := Table.find?_key htx'
  have hhash : tx'.hash = m.hash := congrArg Prod.fst heq
  have hidx : tx'.snapshotIndex = m.index := congrArg Prod.snd heq
  rw [hhash, hf] at hfind
  obtain rfl : tx = tx' := Option.some.inj hfind
  omega

/-- **When a failed update is invisible**: exactly when a call that writes the
snapshot indexes of the cone completes the writes that follow. -/
theorem updateSnapshot_invisible_iff (sponge : Sponge Hash) (genesis : Hash) (m : Milestone Hash)
    (L : Ledger Hash) (hm : 0 < m.index) :
    Invisible sponge genesis m L ↔
      (WritesIndexes sponge genesis m L → LaterWritesSucceed genesis m L) := by
  have hfound : ∀ {delta L₁}, consistentDelta sponge genesis m L = .ok (.inr delta) L₁ →
      FoundDelta sponge genesis m L delta := by
    intro delta L₁ h₁
    rcases consistentDelta_ok h₁ with ⟨_, h, hd⟩ | h | ⟨h, -⟩
    · cases h
      exact hd
    · cases h
    · cases h
  -- the faults the later writes meet are those the call started with
  have hlater : ∀ {delta L₁ t₂}, consistentDelta sponge genesis m L = .ok (.inr delta) L₁ →
      updateSnapshotMilestone genesis L₁.initial m.hash m.index L₁.tangle = .ok () t₂ →
      (LaterWritesSucceed genesis m L ↔ ∃ L', confirmMilestone genesis m delta L₁ = .ok () L') := by
    intro delta L₁ t₂ h₁ hu
    have hsame := (keeps_consistentDelta sponge genesis m).of_ok h₁
    rw [(hfound h₁).laterWrites_iff, (confirmMilestone_of_indexes hu).1,
      hsame.store.commits .stateDeltaStore rfl, hsame.store.commits .applyAlloc rfl, hsame.latest]
  constructor
  · rintro hinv ⟨delta, L₁, t₂, h₁, hu⟩
    by_contra hn
    have hsame := (keeps_consistentDelta sponge genesis m).of_ok h₁
    cases hc : confirmMilestone genesis m delta L₁ with
    | ok u L' => exact hn ((hlater h₁ hu).mpr ⟨L', hc⟩)
    | error e L' =>
      have hr : updateSnapshot sponge genesis m L = .error e L' :=
        bind_eq_error.mpr (.inr ⟨_, L₁, h₁, bind_apply_error hc⟩)
      refine not_untouched_of_indexes hm (hfound h₁) ?_ hsame hu
        ((confirmMilestone_of_indexes hu).2 e L' hc) (hinv e L' hr).1
      by_contra hall
      have hzero : ∀ a, milestoneChange genesis L m a = 0 := by simpa using hall
      refine hn ⟨.inl fun a => by simp [hzero], by simp [hzero], by simp [hzero]⟩
  · intro hcond e L' hr
    rcases updateSnapshot_error hr with hdata | ⟨delta, L₁, t₂, h₁, hu, hc⟩
    · exact ⟨hdata.untouched, hdata.retryApplies⟩
    · obtain ⟨L₂, hok⟩ := (hlater h₁ hu).mp (hcond ⟨delta, L₁, t₂, h₁, hu⟩)
      rw [hok] at hc
      cases hc

/-! ## A milestone that is skipped -/

/-- A milestone whose bundle moves five tokens from `11` to `10`, and the call
that fails once. -/
def moveLedger (site : Site) : Ledger (Fin 256) where
  tangle :=
    { transactions := ⟨[plainTx 1 2 0 10 5 0 1, plainTx 2 0 0 11 (-5) 1 1], by decide⟩
      milestones := ⟨⟨[⟨⟨1, 1⟩, none⟩], nodup_firstIndex⟩, nodup_firstHash⟩
      faults := Function.update (fun _ => []) site [true] }
  initial := ⟨⟨[(11, 100)], nodup_hundred⟩, 0, 0, 0, Table.empty⟩
  latest := ⟨⟨[(11, 100)], nodup_hundred⟩, 0, 0, 0, Table.empty⟩

/-- **The retry skips the milestone.** Storing the delta fails, the milestone
keeps its snapshot index, and the next call reports success without having moved
a token. -/
theorem updateSnapshot_retry_skips :
    ∃ e L' L'',
      updateSnapshot plainSponge 0 ⟨1, 1⟩ (moveLedger .stateDeltaStore) = .error e L' ∧
      updateSnapshot plainSponge 0 ⟨1, 1⟩
        { L' with tangle := { L'.tangle with faults := fun _ => [] } } = .ok true L'' ∧
      L''.latest.index = 0 ∧ L''.latest.state.get 10 = 0 ∧
      ¬ Invisible plainSponge 0 ⟨1, 1⟩ (moveLedger .stateDeltaStore) := by
  have hrun : (match updateSnapshot plainSponge 0 ⟨1, 1⟩ (moveLedger .stateDeltaStore) with
      | .ok _ _ => false
      | .error _ L' => returns (updateSnapshot plainSponge 0 ⟨1, 1⟩)
          { L' with tangle := { L'.tangle with faults := fun _ => [] } }
          fun b L'' => b && decide (L''.latest.index = 0 ∧ L''.latest.state.get 10 = 0)) =
        true := by decide +kernel
  cases hr : updateSnapshot plainSponge 0 ⟨1, 1⟩ (moveLedger .stateDeltaStore) with
  | ok b L' => rw [hr] at hrun; cases hrun
  | error e L' =>
    rw [hr] at hrun
    obtain ⟨b, L'', hretry, hp⟩ := of_returns hrun
    rw [Bool.and_eq_true, decide_eq_true_eq] at hp
    obtain ⟨rfl, hidx, hten⟩ := hp
    refine ⟨e, L', L'', rfl, hretry, hidx, hten, fun hinv => ?_⟩
    have happ := ((hinv e L' hr).2 _ L'' ⟨_, rfl, rfl⟩ hretry).1
    rw [hidx] at happ
    cases happ

/-- A failure to write the indexes is one that leaves no trace. -/
theorem updateSnapshot_invisible_index_failure :
    (∃ e L', updateSnapshot plainSponge 0 ⟨1, 1⟩ (moveLedger .updateSnapshotIndex) =
      .error e L') ∧ Invisible plainSponge 0 ⟨1, 1⟩ (moveLedger .updateSnapshotIndex) := by
  have hfail : (match updateSnapshot plainSponge 0 ⟨1, 1⟩ (moveLedger .updateSnapshotIndex) with
      | .ok _ _ => false
      | .error _ _ => true) = true := by decide +kernel
  constructor
  · cases hr : updateSnapshot plainSponge 0 ⟨1, 1⟩ (moveLedger .updateSnapshotIndex) with
    | ok b L' => rw [hr] at hfail; cases hfail
    | error e L' => exact ⟨e, L', rfl⟩
  · refine (updateSnapshot_invisible_iff plainSponge 0 ⟨1, 1⟩ _ (by decide)).mpr ?_
    rintro ⟨delta, L₁, t₂, h₁, -⟩
    have hsum : returns (consistentDelta plainSponge 0 ⟨1, 1⟩) (moveLedger .updateSnapshotIndex)
        (fun r _ => match r with
          | .inl _ => false
          | .inr d => decide (d.sum = 0)) = true := by decide +kernel
    rw [returns, h₁] at hsum
    rcases consistentDelta_ok h₁ with ⟨_, h, hd⟩ | h | ⟨h, -⟩
    · cases h
      exact hd.laterWrites_iff.mpr ⟨.inr (by decide), of_decide_eq_true hsum, by simp [moveLedger]⟩
    · cases h
    · cases h

end Ledger

end Entangled
