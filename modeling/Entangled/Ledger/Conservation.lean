import Entangled.Ledger.Restart
/-!
# Conservation

Over the whole life of a node, start-ups included, no balance goes below zero
and the balances add up to the supply. Two things can break it. The words of the
net changes may add up to a multiple of `2 ^ 64` other than zero, since each is
reduced on its own. And when memory runs out in the middle of a patch the
entries already written stay, while the next call finds the milestone confirmed
and reports success.

`Run` takes what a call meets as a parameter, so that `run_conserves_supply`
speaks of the runs that avoid both, and the counterexample of one that does not.
-/

namespace Entangled

open Prog

variable {Hash : Type} [DecidableEq Hash] [HashBytes Hash]

namespace Ledger

variable {sponge : Sponge Hash} {genesis : Hash} {m : Milestone Hash} {L L' : Ledger Hash}
  {delta s s' : StateDelta Hash}

/-- A state that conserves the supply: one entry an address, none below zero,
and the supply in total, in unbounded integers. -/
structure Sound (s : StateDelta Hash) : Prop where
  nodup : s.keys.Nodup
  nonneg : ∀ a, 0 ≤ (s.get a).toInt
  total : s.total = iotaSupply

omit [HashBytes Hash] in
/-- **Adding a delta that passed the test conserves the supply**, if the delta
itself adds up to zero. The test is made on a wrapped sum, but a balance that is
not negative and a word cannot wrap below zero, and wrapping above it is seen. -/
theorem Sound.add (hs : Sound s) (hget : ∀ a, s'.get a = s.get a + delta.get a)
    (hpos : ∀ e ∈ delta.rows, 0 ≤ s.get e.1 + e.2) (hzero : delta.total = 0) : Sound s' := by
  have hexact : ∀ a, (s'.get a).toInt = (s.get a).toInt + (delta.get a).toInt ∧
      0 ≤ (s'.get a).toInt := by
    intro a
    have hsa := hs.nonneg a
    by_cases hmem : a ∈ delta.keys
    · obtain ⟨e, he⟩ := Table.mem_keys_iff.mp hmem
      have hea : e.1 = a := Table.key_of_find? he
      have hp : 0 ≤ (s.get a + delta.get a).toInt := by
        have := hpos e (Table.mem_of_find? he)
        rw [hea, ← StateDelta.get_of_find? he] at this
        exact Int64.le_iff_toInt_le.mp this
      have hfit : Word.Fits ((s.get a).toInt + (delta.get a).toInt) := by
        have hd := Word.fits_toInt (delta.get a)
        have hb := Word.fits_toInt (s.get a)
        unfold Word.Fits at *
        refine ⟨by omega, ?_⟩
        by_contra hge
        rw [Word.add_eq_ofInt] at hp
        have hwrap : (Int64.ofInt ((s.get a).toInt + (delta.get a).toInt)).toInt =
            (s.get a).toInt + (delta.get a).toInt - 2 ^ 64 := by
          rw [Word.toInt_ofInt_eq_iff]
          refine ⟨⟨by omega, by omega⟩, ⟨-1, by ring⟩⟩
        omega
      rw [hget a]
      exact ⟨Word.toInt_add hfit, hp⟩
    · have h0 : delta.get a = 0 := StateDelta.get_of_not_mem hmem
      rw [hget a, h0, Int64.add_zero]
      exact ⟨(Int.add_zero _).symm, hsa⟩
  refine ⟨s'.nodup, fun a => (hexact a).2, ?_⟩
  calc s'.total = ∑ᶠ a, (s'.get a).toInt := StateDelta.total_eq_finsum s'
    _ = ∑ᶠ a, ((s.get a).toInt + (delta.get a).toInt) := finsum_congr fun a => (hexact a).1
    _ = ∑ᶠ a, (s.get a).toInt + ∑ᶠ a, (delta.get a).toInt :=
        finsum_add_distrib (StateDelta.finite_support_get s) (StateDelta.finite_support_get delta)
    _ = s.total + delta.total := by rw [StateDelta.total_eq_finsum, StateDelta.total_eq_finsum]
    _ = iotaSupply := by rw [hs.total, hzero, Int.add_zero]

/-! ## One call -/

/-- What is lost when each net change of a milestone is reduced to a word adds up
to zero. -/
def WrapsCancel (genesis : Hash) (m : Milestone Hash) (L : Ledger Hash) : Prop :=
  ∑ᶠ a, (milestoneChange genesis L m a - (Int64.ofInt (milestoneChange genesis L m a)).toInt) = 0

/-- Nothing is lost of net changes that fit. -/
theorem wrapsCancel_of_fits (h : ∀ a, Word.Fits (milestoneChange genesis L m a)) :
    WrapsCancel genesis m L := by
  unfold WrapsCancel
  simp only [Word.toInt_ofInt (h _), Int.sub_self, finsum_zero]

/-- The addresses new to the latest snapshot find memory when the patch is
applied. -/
def MemoryLasts (genesis : Hash) (m : Milestone Hash) (L : Ledger Hash) : Prop :=
  true ∉ (L.tangle.faults .applyAlloc).take
    (Set.ncard {a | ¬ (2 ^ 64 : ℤ) ∣ milestoneChange genesis L m a ∧ a ∉ L.latest.state.keys})

theorem FoundDelta.total_eq_zero (h : FoundDelta sponge genesis m L delta)
    (hvalid : Tangle.ValidZeroSum sponge L.tangle) (hwrap : WrapsCancel genesis m L) :
    delta.total = 0 := by
  have hfin : (Function.support (milestoneChange genesis L m)).Finite :=
    finite_support_netChange _ _ _ _
  have hword : (Function.support fun a =>
      (Int64.ofInt (milestoneChange genesis L m a)).toInt).Finite := by
    simp only [← h.get]
    exact StateDelta.finite_support_get delta
  unfold WrapsCancel at hwrap
  rw [finsum_sub_distrib hfin hword, h.zeroSum hvalid] at hwrap
  rw [StateDelta.total_eq_finsum, finsum_congr fun a => by rw [h.get a]]
  omega

theorem FoundDelta.memory_iff (h : FoundDelta sponge genesis m L delta) :
    MemoryLasts genesis m L ↔ true ∉ (L.tangle.faults .applyAlloc).take
      (StateDelta.newEntries L.latest.state delta.rows) := by
  rw [MemoryLasts, StateDelta.newEntries_eq_ncard h.noZero]
  simp only [h.get, ne_eq, Word.ofInt_eq_zero_iff]

/-- A call that fails after the indexes are written, with memory for the patch
and a patch that balances, has failed to store the delta. -/
theorem confirmMilestone_error_frame {t : Tangle Hash} {e : Retcode}
    (h₁ : updateSnapshotMilestone genesis L.initial m.hash m.index L.tangle = .ok () t)
    (hsum : delta.sum = 0) (hmem : true ∉ (L.tangle.faults .applyAlloc).take
      (StateDelta.newEntries L.latest.state delta.rows))
    (hr : confirmMilestone genesis m delta L = .error e L') :
    L'.latest = L.latest ∧ L'.tangle.milestones = L.tangle.milestones := by
  obtain ⟨hashes, -, hms, hfaults, -⟩ := updateSnapshotMilestone_ok h₁
  have hz : onTangle (updateSnapshotMilestone genesis L.initial m.hash m.index) L =
      .ok () { L with tangle := t } := zoom_eq_ok.mpr ⟨t, h₁, rfl⟩
  rw [confirmMilestone, gets_bind] at hr
  rcases bind_eq_error.mp ((bind_apply_ok hz).symm.trans hr) with h₂ | ⟨_, L₂, h₂, h₃⟩
  · obtain ⟨t₂, ht₂, rfl⟩ := zoom_eq_error.mp h₂
    exact ⟨rfl, (storeDelta_error ht₂).2.trans hms⟩
  · obtain ⟨t₂, ht₂, rfl⟩ := zoom_eq_ok.mp h₂
    obtain ⟨L₃, hok⟩ := (snapshotApplyPatch_ok_iff (L := { L with tangle := t₂ })).mpr
      ⟨hsum, by
        dsimp only
        rw [(storeDelta_ok ht₂).2.2, hfaults .applyAlloc rfl (by decide)]
        exact hmem⟩
    rw [hok] at h₃
    cases h₃

/-- What a run conserves: the latest state, and a store whose deltas add up to
zero each. -/
structure Conserved (L : Ledger Hash) : Prop where
  sound : Sound L.latest.state
  deltas : ∀ i, (L.tangle.storedDelta i).total = 0

theorem Conserved.frame (h : Conserved L) (hlatest : L'.latest.state = L.latest.state)
    (hms : L'.tangle.milestones = L.tangle.milestones) : Conserved L' := by
  refine ⟨hlatest ▸ h.sound, fun i => ?_⟩
  rw [Tangle.storedDelta, hms]
  exact h.deltas i

/-- **One call conserves the supply**, whether it returns or fails. -/
theorem Conserved.update (h : Conserved L) (hvalid : Tangle.ValidZeroSum sponge L.tangle)
    (hwrap : WrapsCancel genesis m L) (hmem : MemoryLasts genesis m L) :
    Conserved (final (updateSnapshot sponge genesis m) L) := by
  unfold final
  cases hr : updateSnapshot sponge genesis m L with
  | ok hasSnapshot L' =>
    cases hasSnapshot with
    | false =>
      have hsame := updateSnapshot_ok_false hr
      exact h.frame (by rw [hsame.latest]) hsame.store.milestones
    | true =>
      rcases updateSnapshot_ok_true hr with ⟨-, hsame⟩ | ⟨delta, L₁, hfound, hsame, hconf⟩
      · exact h.frame (by rw [hsame.latest]) hsame.store.milestones
      · have hzero := hfound.total_eq_zero hvalid hwrap
        refine ⟨h.sound.add (fun a => ?_) hfound.nonneg hzero, fun i => ?_⟩
        · rw [hconf.get a, hsame.latest]
        · have hms := hconf.milestones
          split at hms
          · rw [Tangle.storedDelta, hms, hsame.store.milestones]
            exact h.deltas i
          · rw [storedDelta_setDelta hms]
            split
            · exact hzero
            · rw [Tangle.storedDelta, hsame.store.milestones]
              exact h.deltas i
  | error e L' =>
    rcases updateSnapshot_error hr with hdata | ⟨delta, L₁, t₂, h₁, hu, hc⟩
    · exact h.frame (by rw [hdata.latest]) hdata.milestones
    · have hsame := (keeps_consistentDelta sponge genesis m).of_ok h₁
      rcases consistentDelta_ok h₁ with ⟨_, heq, hfound⟩ | heq | ⟨heq, -⟩
      · cases heq
        have hsum : delta.sum = 0 := by
          rw [StateDelta.sum_eq_ofInt_total, hfound.total_eq_zero hvalid hwrap]
          rfl
        have hm' := hfound.memory_iff.mp hmem
        rw [← hsame.store.commits .applyAlloc rfl, ← hsame.latest] at hm'
        obtain ⟨hlatest, hms⟩ := confirmMilestone_error_frame hu hsum hm' hc
        exact h.frame (by rw [hlatest, hsame.latest]) (hms.trans hsame.store.milestones)
      · cases heq
      · cases heq

/-! ## Runs -/

/-- **A run of a node**: calls that meet `meets`, what the rest of the node does to
the store in between, and restarts from a snapshot that conserves the supply. -/
inductive Run (sponge : Sponge Hash) (genesis : Hash)
    (meets : Milestone Hash → Ledger Hash → Prop) (L₀ : Ledger Hash) : Ledger Hash → Prop
  | start : Run sponge genesis meets L₀ L₀
  | environment {L L' : Ledger Hash} (hrun : Run sponge genesis meets L₀ L)
      (hlatest : L'.latest.state = L.latest.state)
      (hdeltas : ∀ i, L'.tangle.storedDelta i = L.tangle.storedDelta i ∨
        (L'.tangle.storedDelta i).rows = []) : Run sponge genesis meets L₀ L'
  | update {L : Ledger Hash} {m : Milestone Hash} (hrun : Run sponge genesis meets L₀ L)
      (hvalid : Tangle.ValidZeroSum sponge L.tangle) (hmeets : meets m L) :
      Run sponge genesis meets L₀ (final (updateSnapshot sponge genesis m) L)
  | restart {L L' : Ledger Hash} {s : Snapshot Hash} (hrun : Run sponge genesis meets L₀ L)
      (hs : Sound s.state)
      (hr : buildSnapshot { L with initial := s, latest := s } = .ok () L') :
      Run sponge genesis meets L₀ L'

/-- **A replay conserves the supply.** -/
theorem Conserved.restart {s : Snapshot Hash} (h : Conserved L) (hs : Sound s.state)
    (hr : buildSnapshot { L with initial := s, latest := s } = .ok () L') : Conserved L' := by
  have hstep : ∀ (i : ℕ) (s s' : Snapshot Hash), Sound s.state → ∀ t : Tangle Hash,
      t.milestones = L.tangle.milestones → Applied (i + 1) (t.storedDelta (i + 1)) s s' →
      Sound s'.state := by
    intro i s s' hI t ht happ
    refine hI.add happ.get happ.nonneg ?_
    rw [Tangle.storedDelta, ht]
    exact h.deltas (i + 1)
  obtain ⟨⟨j, -, hI, -⟩, -, hms⟩ :=
    buildSnapshot_ok (I := fun _ s => Sound s.state) (L := { L with initial := s, latest := s })
      hstep hs hr
  refine ⟨hI, fun i => ?_⟩
  rw [Tangle.storedDelta, hms]
  exact h.deltas i

/-- **The supply is conserved** in every state of a run whose calls lose nothing to
wrapping, on balance, and do not run out of memory in the middle of a patch. -/
theorem run_conserves_supply (sponge : Sponge Hash) (genesis : Hash) (L₀ L : Ledger Hash)
    (hsound : Sound L₀.latest.state) (hdeltas : ∀ i, (L₀.tangle.storedDelta i).total = 0)
    (hrun : Run sponge genesis (fun m L => WrapsCancel genesis m L ∧ MemoryLasts genesis m L)
      L₀ L) :
    Sound L.latest.state := by
  have hinv : Conserved L := by
    induction hrun with
    | start => exact ⟨hsound, hdeltas⟩
    | environment _ hlatest hkept ih =>
      refine ⟨hlatest ▸ ih.sound, fun i => ?_⟩
      rcases hkept i with h | h
      · rw [h]
        exact ih.deltas i
      · rw [StateDelta.total, h]
        rfl
    | update _ hvalid hmeets ih => exact ih.update hvalid hmeets.1 hmeets.2
    | restart _ hs hr ih => exact ih.restart hs hr
  exact hinv.sound

/-! ## A patch that stops half way -/

/-- The whole supply at `11`, and a milestone whose bundle takes five tokens from
there to the new address `10`; the allocation of its entry fails or not. -/
def halfLedger (fails : Bool) : Ledger (Fin 256) where
  tangle :=
    { transactions := ⟨[plainTx 1 2 0 11 (-5) 0 1, plainTx 2 0 0 10 5 1 1], by decide⟩
      milestones := ⟨⟨[⟨⟨1, 1⟩, none⟩], nodup_firstIndex⟩, nodup_firstHash⟩
      faults := Function.update (fun _ => []) .applyAlloc [fails] }
  initial := ⟨⟨[(11, 2779530283277761)], by decide⟩, 0, 0, 0, Table.empty⟩
  latest := ⟨⟨[(11, 2779530283277761)], by decide⟩, 0, 0, 0, Table.empty⟩

theorem halfLedger_sound (fails : Bool) : Sound (halfLedger fails).latest.state :=
  ⟨Table.nodup _, by cases fails <;> decide +kernel, by cases fails <;> decide +kernel⟩

theorem halfLedger_deltas (fails : Bool) (i : ℕ) :
    ((halfLedger fails).tangle.storedDelta i).total = 0 := by
  rw [StateDelta.total, storedDelta_of_none (by cases fails <;> decide)]
  rfl

theorem halfLedger_valid (fails : Bool) :
    Tangle.ValidZeroSum plainSponge (halfLedger fails).tangle :=
  Tangle.validZeroSum_of_rows (by cases fails <;> decide +kernel)

/-- **Five tokens are lost.** The first call runs out of memory after it has taken
them from `11`, and the second reports success. -/
theorem supply_lost_after_retry :
    ∃ e L₁ L₂, Sound (halfLedger true).latest.state ∧
      Tangle.ValidZeroSum plainSponge (halfLedger true).tangle ∧
      updateSnapshot plainSponge 0 ⟨1, 1⟩ (halfLedger true) = .error e L₁ ∧
      Tangle.ValidZeroSum plainSponge L₁.tangle ∧
      updateSnapshot plainSponge 0 ⟨1, 1⟩ L₁ = .ok true L₂ ∧
      L₂.latest.state.total = iotaSupply - 5 ∧ ¬ Sound L₂.latest.state := by
  have hrun : (match updateSnapshot plainSponge 0 ⟨1, 1⟩ (halfLedger true) with
      | .ok _ _ => false
      | .error _ L₁ =>
        decide (∀ tx ∈ L₁.tangle.transactions.rows, tx.currentIndex = 0 →
          Tangle.bundleValue (bundleOf L₁.tangle.transactions tx.hash) = 0) &&
        returns (updateSnapshot plainSponge 0 ⟨1, 1⟩) L₁
          fun b L₂ => b && decide (L₂.latest.state.total = iotaSupply - 5)) = true := by
    decide +kernel
  cases hr : updateSnapshot plainSponge 0 ⟨1, 1⟩ (halfLedger true) with
  | ok b L₁ => rw [hr] at hrun; cases hrun
  | error e L₁ =>
    rw [hr] at hrun
    dsimp only at hrun
    rw [Bool.and_eq_true, decide_eq_true_eq] at hrun
    obtain ⟨b, L₂, hretry, hp⟩ := of_returns hrun.2
    rw [Bool.and_eq_true, decide_eq_true_eq] at hp
    obtain ⟨rfl, htotal⟩ := hp
    refine ⟨e, L₁, L₂, halfLedger_sound true, halfLedger_valid true, rfl,
      Tangle.validZeroSum_of_rows hrun.1, hretry, htotal, fun hs => ?_⟩
    have hsupply := hs.total
    omega

/-- With memory the five tokens arrive. -/
theorem supply_conserved_by_transfer :
    ∃ L, updateSnapshot plainSponge 0 ⟨1, 1⟩ (halfLedger false) = .ok true L ∧
      L.latest.state.get 10 = 5 ∧ Sound L.latest.state := by
  have hrun : returns (updateSnapshot plainSponge 0 ⟨1, 1⟩) (halfLedger false)
      (fun b L => b && decide (L.latest.state.get 10 = 5)) = true := by decide +kernel
  have hcone : returns (getLatestDelta plainSponge 0 (halfLedger false).initial 0 [] 1)
      (halfLedger false).tangle (fun r _ => r.2.validDelta &&
        decide (r.1 = blocked 0 (halfLedger false).initial [] ++ [1, 2])) = true := by
    decide +kernel
  obtain ⟨b, L, hr, hp⟩ := of_returns hrun
  rw [Bool.and_eq_true, decide_eq_true_eq] at hp
  obtain ⟨rfl, hten⟩ := hp
  obtain ⟨⟨seen, ld⟩, t₁, hld, hq⟩ := of_returns hcone
  rw [Bool.and_eq_true, decide_eq_true_eq] at hq
  obtain ⟨hv, rfl⟩ := hq
  have hnet := (getLatestDelta_ok hld hv).netChange_eq
  have hfits : ∀ a : Fin 256, Word.Fits (([1, 2] : List (Fin 256)).map
      (change (halfLedger false).tangle.core 0 · a)).sum := by decide +kernel
  have hfinal : final (updateSnapshot plainSponge 0 ⟨1, 1⟩) (halfLedger false) = L := by
    rw [final, hr]
  refine ⟨L, hr, hten, ?_⟩
  refine run_conserves_supply plainSponge 0 (halfLedger false) L (halfLedger_sound false)
    (halfLedger_deltas false) ?_
  rw [← hfinal]
  refine .update .start (halfLedger_valid false) ⟨wrapsCancel_of_fits fun a => ?_, ?_⟩
  · rw [milestoneChange, milestoneBlocked]
    have := hfits a
    rw [← hnet a] at this
    exact this
  · intro hmem
    have := List.mem_of_mem_take hmem
    simp [halfLedger] at this

end Ledger

end Entangled
