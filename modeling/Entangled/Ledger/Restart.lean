import Entangled.Ledger.Update
/-!
# Starting a node again

A node that starts replays the deltas it finds stored, from the initial snapshot
up, and stops at the first milestone that is not there. `buildSnapshotLoop_ok`
and `buildSnapshotLoop_returns` are the rules for its loop.

Against the run that stored the deltas: the balances come out the same, always.
The index does not, because a milestone that moved nothing has no delta, and the
loop passes it over without counting it (`restart_balances_and_index_iff`).
-/

namespace Entangled

open Prog

variable {Hash : Type} [DecidableEq Hash] [HashBytes Hash]

namespace Ledger

variable {sponge : Sponge Hash} {genesis : Hash} {m : Milestone Hash} {L L' : Ledger Hash}
  {t t' : Tangle Hash} {delta : StateDelta Hash} {s s' : Snapshot Hash}

/-! ## One stored delta -/

/-- A stored delta passed the test and was added; an empty one leaves the index. -/
structure Applied (index : ℕ) (delta : StateDelta Hash) (s s' : Snapshot Hash) : Prop where
  nonneg : ∀ e ∈ delta.rows, 0 ≤ s.state.get e.1 + e.2
  get : ∀ a, s'.state.get a = s.state.get a + delta.get a
  index : s'.index = if delta.rows = [] then s.index else index

omit [HashBytes Hash] in
theorem Applied.of_nil {index : ℕ} (h : delta.rows = []) : Applied index delta s s := by
  refine ⟨?_, fun a => ?_, (if_pos h).symm⟩
  · rw [h]
    exact fun e he => absurd he List.not_mem_nil
  · rw [StateDelta.get_of_rows_nil (d := delta) h, Int64.add_zero]

theorem applyStoredDelta_ok {index : ℕ} (hr : applyStoredDelta index delta L = .ok () L') :
    Applied index delta L.latest L'.latest ∧ L'.initial = L.initial ∧
      L'.tangle.milestones = L.tangle.milestones := by
  unfold applyStoredDelta at hr
  split at hr
  · rename_i hnil
    cases hr
    exact ⟨.of_nil hnil, rfl, rfl⟩
  · rename_i hne
    rw [gets_bind] at hr
    obtain ⟨patch, L₁, h₁, h₂⟩ := bind_eq_ok.mp hr
    obtain ⟨t₁, ht₁, rfl⟩ := zoom_eq_ok.mp h₁
    obtain ⟨heap, hheap, rfl, hs⟩ := Tangle.withHeap_ok rfl ht₁
    split at h₂
    · cases h₂
    · rename_i hcons
      obtain ⟨-, hidx, hini, hget, -, hms⟩ := snapshotApplyPatch_ok h₂
      refine ⟨⟨?_, hget, by rw [hidx, if_neg hne]⟩, hini, hms.trans hs.milestones⟩
      exact (StateDelta.isConsistent_createPatch rfl hheap).mp (by simpa using hcons)

/-- **The rule for the loop**: what each applied delta passes on holds at the end,
at an index with no milestone after it. -/
theorem buildSnapshotLoop_ok {I : ℕ → Snapshot Hash → Prop} {ms : Milestones Hash}
    (hstep : ∀ i s s', I i s → ∀ t : Tangle Hash, t.milestones = ms →
      Applied (i + 1) (t.storedDelta (i + 1)) s s' → I (i + 1) s') :
    ∀ {n i : ℕ} {m : Milestone Hash} {L L' : Ledger Hash}, m.index = i + 1 → I i L.latest →
      L.tangle.milestones = ms → buildSnapshotLoop n m L = .ok () L' →
      (∃ j, i < j ∧ I j L'.latest ∧ ms.find? (j + 1) = none) ∧ L'.initial = L.initial ∧
        L'.tangle.milestones = ms := by
  intro n
  induction n with
  | zero =>
    intro i m L L' _ _ _ hr
    cases hr
  | succ n ih =>
    intro i m L L' hm hI hms hr
    obtain ⟨d, L₁, h₁, h₂⟩ := bind_eq_ok.mp hr
    obtain ⟨t₁, ht₁, rfl⟩ := zoom_eq_ok.mp h₁
    obtain ⟨rfl, hs₁⟩ := Tangle.stateDeltaLoad_ok ht₁
    obtain ⟨_, L₂, h₃, h₄⟩ := bind_eq_ok.mp h₂
    obtain ⟨happ, hini, hms₂⟩ := applyStoredDelta_ok h₃
    have hI₂ : I (i + 1) L₂.latest := hstep i _ _ hI L.tangle hms (hm ▸ happ)
    have hms₂' : L₂.tangle.milestones = ms := hms₂.trans (hs₁.milestones.trans hms)
    obtain ⟨o, L₃, h₅, h₆⟩ := bind_eq_ok.mp h₄
    obtain ⟨t₃, ht₃, rfl⟩ := zoom_eq_ok.mp h₅
    obtain ⟨rfl, hs₃⟩ := Tangle.milestoneLoadByIndex_ok ht₃
    rw [hms₂', hm] at h₆
    cases hf : ms.find? (i + 1 + 1) with
    | none =>
      rw [hf] at h₆
      cases h₆
      exact ⟨⟨i + 1, Nat.lt_succ_self i, hI₂, hf⟩, hini, hs₃.milestones.trans hms₂'⟩
    | some r =>
      rw [hf] at h₆
      have hidx : r.milestone.index = i + 1 + 1 := Milestones.index_of_find? hf
      obtain ⟨⟨j, hj, hIj, hend⟩, hini', hms'⟩ :=
        ih (i := i + 1) (L := { L₂ with tangle := t₃ }) hidx hI₂ (hs₃.milestones.trans hms₂') h₆
      exact ⟨⟨j, by omega, hIj, hend⟩, hini'.trans hini, hms'⟩

/-- The rule for the whole replay. -/
theorem buildSnapshot_ok {I : ℕ → Snapshot Hash → Prop}
    (hstep : ∀ i s s', I i s → ∀ t : Tangle Hash, t.milestones = L.tangle.milestones →
      Applied (i + 1) (t.storedDelta (i + 1)) s s' → I (i + 1) s')
    (hstart : I L.initial.index L.latest) (hr : buildSnapshot L = .ok () L') :
    (∃ j, L.initial.index ≤ j ∧ I j L'.latest ∧ L.tangle.milestones.find? (j + 1) = none) ∧
      L'.initial = L.initial ∧ L'.tangle.milestones = L.tangle.milestones := by
  rw [buildSnapshot, gets_bind] at hr
  obtain ⟨o, L₁, h₁, h₂⟩ := bind_eq_ok.mp hr
  obtain ⟨t₁, ht₁, rfl⟩ := zoom_eq_ok.mp h₁
  obtain ⟨rfl, hs₁⟩ := Tangle.milestoneLoadByIndex_ok ht₁
  dsimp only [id] at h₂
  cases hf : L.tangle.milestones.find? (L.initial.index + 1) with
  | none =>
    rw [hf] at h₂
    cases h₂
    exact ⟨⟨_, le_rfl, hstart, hf⟩, rfl, hs₁.milestones⟩
  | some r =>
    rw [hf] at h₂
    have hidx : r.milestone.index = L.initial.index + 1 := Milestones.index_of_find? hf
    obtain ⟨⟨j, hj, hI, hend⟩, hini, hms⟩ :=
      buildSnapshotLoop_ok (L := { L with tangle := t₁ }) hstep hidx hstart hs₁.milestones h₂
    exact ⟨⟨j, hj.le, hI, hend⟩, hini, hms⟩

/-! ## With nothing failing -/

theorem applyStoredDelta_returns {index : ℕ} (hq : L.tangle.faults = fun _ => [])
    (hpos : ∀ e ∈ delta.rows, 0 ≤ L.latest.state.get e.1 + e.2) (hsum : delta.sum = 0) :
    ∃ L', applyStoredDelta index delta L = .ok () L' ∧ L'.tangle.faults = fun _ => [] := by
  unfold applyStoredDelta
  split
  · exact ⟨L, rfl, hq⟩
  obtain ⟨patch, hp⟩ : ∃ patch, snapshotCreatePatch L.latest delta L.tangle = .ok patch L.tangle :=
    Tangle.withHeap_of_nil hq (StateDelta.createPatch_of_nil rfl)
  have hp' : onTangle (snapshotCreatePatch L.latest delta) L = .ok patch L :=
    zoom_eq_ok.mpr ⟨L.tangle, hp, rfl⟩
  obtain ⟨heap, hheap, rfl, -⟩ := Tangle.withHeap_ok rfl hp
  have hcons := (StateDelta.isConsistent_createPatch rfl hheap).mpr hpos
  obtain ⟨heap', happ, hal⟩ := StateDelta.applyPatch_of_nil (p := delta)
    (m := ⟨L.latest.state, []⟩) rfl
  have halloc : L.tangle.faults .applyAlloc = [] := by rw [hq]
  rw [gets_bind, id, bind_apply_ok hp', if_neg (by simp [hcons]), snapshotApplyPatch,
    if_neg (by simp [hsum]), update_bind]
  refine ⟨_, zoom_eq_ok.mpr ⟨heap', by dsimp only; rw [halloc]; exact happ, rfl⟩, ?_⟩
  dsimp only
  rw [hal, ← halloc, Function.update_eq_self, hq]

/-- The rows from an index on, which bound the rounds of the loop. -/
def rowsFrom (ms : Milestones Hash) (i : ℕ) : ℕ := ms.rows.countP fun r => decide (i ≤ r.index)

omit [DecidableEq Hash] in
theorem rowsFrom_succ_lt {ms : Milestones Hash} {i : ℕ} {r : MilestoneRow Hash}
    (h : ms.find? i = some r) : rowsFrom ms (i + 1) < rowsFrom ms i := by
  have hmem := Table.mem_of_find? h
  have hidx : r.index = i := Table.key_of_find? h
  have hsplit : ms.rows.countP (fun r => decide (i ≤ r.index)) =
      ms.rows.countP (fun r => decide (i + 1 ≤ r.index)) +
        ms.rows.countP (fun r => decide (r.index = i)) := by
    clear hmem h
    induction ms.rows with
    | nil => rfl
    | cons x xs ih =>
      simp only [List.countP_cons, ih, decide_eq_true_eq]
      split <;> split <;> split <;> omega
  have hpos : 0 < ms.rows.countP fun r => decide (r.index = i) :=
    List.countP_pos_iff.mpr ⟨r, hmem, by simpa using hidx⟩
  unfold rowsFrom
  omega

/-- **The loop returns** when every delta it meets passes the test and adds up to
zero: it has a round for every row. -/
theorem buildSnapshotLoop_returns {I : ℕ → Snapshot Hash → Prop} {ms : Milestones Hash}
    (hstep : ∀ i s s', I i s → ∀ t : Tangle Hash, t.milestones = ms →
      Applied (i + 1) (t.storedDelta (i + 1)) s s' → I (i + 1) s')
    (hcheck : ∀ i s, I i s → ∀ t : Tangle Hash, t.milestones = ms →
      (∀ e ∈ (t.storedDelta (i + 1)).rows, 0 ≤ s.state.get e.1 + e.2) ∧
        (t.storedDelta (i + 1)).sum = 0) :
    ∀ {n i : ℕ} {r : MilestoneRow Hash} {L : Ledger Hash}, ms.find? (i + 1) = some r →
      rowsFrom ms (i + 1) ≤ n → I i L.latest → L.tangle.milestones = ms →
      (L.tangle.faults = fun _ => []) → ∃ L', buildSnapshotLoop n r.milestone L = .ok () L' := by
  intro n
  induction n with
  | zero =>
    intro i r L hf hn
    have := rowsFrom_succ_lt hf
    omega
  | succ n ih =>
    intro i r L hf hn hI hms hq
    have hidx := Milestones.index_of_find? hf
    have hload : onTangle (Tangle.stateDeltaLoad r.milestone.index) L =
        .ok (L.tangle.storedDelta (i + 1)) L :=
      zoom_eq_ok.mpr ⟨L.tangle, by
        rw [Tangle.stateDeltaLoad, bind_apply_ok (Tangle.attempt_of_nil hq), hidx]; rfl, rfl⟩
    obtain ⟨hpos, hsum⟩ := hcheck i _ hI L.tangle hms
    obtain ⟨L₁, happ, hq₁⟩ : ∃ L₁, applyStoredDelta (i + 1) (L.tangle.storedDelta (i + 1)) L =
        .ok () L₁ ∧ L₁.tangle.faults = fun _ => [] := applyStoredDelta_returns hq hpos hsum
    obtain ⟨happ', -, hms₁⟩ := applyStoredDelta_ok happ
    have hI₁ := hstep i _ _ hI L.tangle hms happ'
    have hnext : onTangle (Tangle.milestoneLoadByIndex (r.milestone.index + 1)) L₁ =
        .ok ((ms.find? (i + 1 + 1)).map (·.milestone)) L₁ :=
      zoom_eq_ok.mpr ⟨L₁.tangle, by
        rw [Tangle.milestoneLoadByIndex, bind_apply_ok (Tangle.attempt_of_nil hq₁), hidx,
          gets_apply, hms₁, hms], rfl⟩
    rw [buildSnapshotLoop, bind_apply_ok hload, hidx, bind_apply_ok happ, ← hidx,
      bind_apply_ok hnext]
    cases hf' : ms.find? (i + 1 + 1) with
    | none => exact ⟨L₁, rfl⟩
    | some r' =>
      have := rowsFrom_succ_lt hf
      exact ih (i := i + 1) hf' (by omega) hI₁ (hms₁.trans hms) hq₁

theorem buildSnapshot_returns {I : ℕ → Snapshot Hash → Prop}
    (hstep : ∀ i s s', I i s → ∀ t : Tangle Hash, t.milestones = L.tangle.milestones →
      Applied (i + 1) (t.storedDelta (i + 1)) s s' → I (i + 1) s')
    (hcheck : ∀ i s, I i s → ∀ t : Tangle Hash, t.milestones = L.tangle.milestones →
      (∀ e ∈ (t.storedDelta (i + 1)).rows, 0 ≤ s.state.get e.1 + e.2) ∧
        (t.storedDelta (i + 1)).sum = 0)
    (hstart : I L.initial.index L.latest) (hq : L.tangle.faults = fun _ => []) :
    ∃ L', buildSnapshot L = .ok () L' := by
  have hload : onTangle (Tangle.milestoneLoadByIndex (L.initial.index + 1)) L =
      .ok ((L.tangle.milestones.find? (L.initial.index + 1)).map (·.milestone)) L :=
    zoom_eq_ok.mpr ⟨L.tangle, by
      rw [Tangle.milestoneLoadByIndex, bind_apply_ok (Tangle.attempt_of_nil hq), gets_apply], rfl⟩
  rw [buildSnapshot, gets_bind, id, bind_apply_ok hload]
  cases hf : L.tangle.milestones.find? (L.initial.index + 1) with
  | none => exact ⟨L, rfl⟩
  | some r =>
    exact buildSnapshotLoop_returns hstep hcheck hf List.countP_le_length hstart rfl hq

/-! ## The run and the restart -/

omit [DecidableEq Hash] in
/-- A delta that is written is read back, if there is a row to write it to. -/
theorem storedDelta_setDelta {index i : ℕ}
    (ht : t'.milestones = t.milestones.setDelta index (StateDelta.serialize delta)) :
    t'.storedDelta i = if i = index ∧ (t.milestones.find? index).isSome then delta
      else t.storedDelta i := by
  have hfind : t'.milestones.find? i = (t.milestones.find? i).map fun r =>
      if r.index = index then { r with delta := some (StateDelta.serialize delta) } else r := by
    rw [ht, Milestones.setDelta, Table.find?_update]
  unfold Tangle.storedDelta
  rw [hfind]
  cases hf : t.milestones.find? i with
  | none =>
    rw [if_neg]
    · rfl
    · rintro ⟨rfl, h⟩
      rw [hf] at h
      cases h
  | some x =>
    have hidx : x.index = i := Table.key_of_find? hf
    by_cases hi : i = index
    · subst hi
      simp [hf, hidx]
    · simp [hidx, hi]

omit [DecidableEq Hash] in
theorem storedDelta_of_none {i : ℕ} (h : ∀ r ∈ t.milestones.rows, r.delta = none) :
    (t.storedDelta i).rows = [] := by
  unfold Tangle.storedDelta
  cases hf : t.milestones.find? i with
  | none => rfl
  | some r =>
    dsimp only [Option.bind]
    rw [h r (Table.mem_of_find? hf)]
    rfl

/-- Milestone rows as the rest of the node leaves them between two calls: those
above the initial snapshot stay, and new ones come without a delta. -/
structure RowsKept (above : ℕ) (t t' : Tangle Hash) : Prop where
  stay : ∀ i, above < i → ∀ r, t.milestones.find? i = some r → t'.milestones.find? i = some r
  fresh : ∀ i, above < i → t.milestones.find? i = none →
    ∀ r, t'.milestones.find? i = some r → r.delta = none

omit [DecidableEq Hash] in
theorem RowsKept.storedDelta_eq {above i : ℕ} (h : RowsKept above t t') (hi : above < i) :
    t'.storedDelta i = t.storedDelta i := by
  unfold Tangle.storedDelta
  cases hf : t.milestones.find? i with
  | some r => rw [h.stay i hi r hf]
  | none =>
    cases hf' : t'.milestones.find? i with
    | none => rfl
    | some r =>
      dsimp only [Option.bind]
      rw [h.fresh i hi hf r hf']

/-- **Runs in which every call returns.** `Live n L`: from a latest snapshot equal
to the initial one and no deltas stored above it, `n` milestones in a row were
confirmed, each loaded at the next index. -/
inductive Live (sponge : Sponge Hash) (genesis : Hash) : ℕ → Ledger Hash → Prop
  | start {L : Ledger Hash} (hstate : ∀ a, L.latest.state.get a = L.initial.state.get a)
      (hindex : L.latest.index = L.initial.index)
      (hdeltas : ∀ i, L.initial.index < i → (L.tangle.storedDelta i).rows = []) :
      Live sponge genesis 0 L
  | environment {n : ℕ} {L L' : Ledger Hash} (hlive : Live sponge genesis n L)
      (hinitial : L'.initial = L.initial) (hlatest : L'.latest = L.latest)
      (hrows : RowsKept L.initial.index L.tangle L'.tangle) : Live sponge genesis n L'
  | update {n : ℕ} {L L' : Ledger Hash} {r : MilestoneRow Hash} {hasSnapshot : Bool}
      (hlive : Live sponge genesis n L)
      (hload : L.tangle.milestones.find? (L.initial.index + n + 1) = some r)
      (hr : updateSnapshot sponge genesis r.milestone L = .ok hasSnapshot L') :
      Live sponge genesis (if hasSnapshot then n + 1 else n) L'

/-- The balance of an address after the first `n` stored deltas, in words. -/
def balanceAt (s : Snapshot Hash) (deltas : ℕ → StateDelta Hash) : ℕ → Hash → Int64
  | 0, a => s.state.get a
  | n + 1, a => balanceAt s deltas n a + (deltas (s.index + n + 1)).get a

omit [HashBytes Hash] in
theorem balanceAt_congr {deltas deltas' : ℕ → StateDelta Hash} {n : ℕ}
    (h : ∀ i, s.index < i → i ≤ s.index + n → deltas' i = deltas i) (a : Hash) :
    balanceAt s deltas' n a = balanceAt s deltas n a := by
  induction n with
  | zero => rfl
  | succ n ih =>
    rw [balanceAt, balanceAt, ih fun i h₁ h₂ => h i h₁ (by omega), h _ (by omega) (by omega)]

/-- What a live run keeps: the balances are those of its stored deltas, each of
which passed the test when it was applied, and none is stored above the latest
index. -/
structure LiveInv (n : ℕ) (L : Ledger Hash) : Prop where
  lower : L.initial.index ≤ L.latest.index
  upper : L.latest.index ≤ L.initial.index + n
  rows : ∀ i < n, ∃ r, L.tangle.milestones.find? (L.initial.index + i + 1) = some r
  balance : ∀ a, L.latest.state.get a = balanceAt L.initial L.tangle.storedDelta n a
  sum : ∀ i < n, (L.tangle.storedDelta (L.initial.index + i + 1)).sum = 0
  nonneg : ∀ i < n, ∀ e ∈ (L.tangle.storedDelta (L.initial.index + i + 1)).rows,
    0 ≤ balanceAt L.initial L.tangle.storedDelta i e.1 + e.2
  quiet : ∀ i, L.latest.index < i → (L.tangle.storedDelta i).rows = []

/-- The invariant reads the stored deltas above the initial index only. -/
theorem LiveInv.congr {n : ℕ} (h : LiveInv n L) (hinitial : L'.initial = L.initial)
    (hlatest : L'.latest = L.latest)
    (hrows : ∀ i < n, ∃ r, L'.tangle.milestones.find? (L.initial.index + i + 1) = some r)
    (hdeltas : ∀ i, L.initial.index < i → L'.tangle.storedDelta i = L.tangle.storedDelta i) :
    LiveInv n L' := by
  have hbal : ∀ k a, balanceAt L.initial L'.tangle.storedDelta k a =
      balanceAt L.initial L.tangle.storedDelta k a :=
    fun k a => balanceAt_congr (fun i hi _ => hdeltas i hi) a
  have hd : ∀ i, L'.tangle.storedDelta (L.initial.index + i + 1) =
      L.tangle.storedDelta (L.initial.index + i + 1) := fun i => hdeltas _ (by omega)
  refine ⟨?_, ?_, ?_, fun a => ?_, fun i hi => ?_, fun i hi => ?_, fun i hi => ?_⟩
  · rw [hinitial, hlatest]
    exact h.lower
  · rw [hinitial, hlatest]
    exact h.upper
  · rw [hinitial]
    exact hrows
  · rw [hinitial, hlatest, hbal]
    exact h.balance a
  · rw [hinitial, hd]
    exact h.sum i hi
  · rw [hinitial, hd]
    intro e he
    rw [hbal]
    exact h.nonneg i hi e he
  · rw [hlatest] at hi
    rw [hdeltas i (by have := h.lower; omega)]
    exact h.quiet i hi

/-- A confirmed milestone changes one delta, whether it was written or was empty. -/
theorem Confirmed.storedDelta_eq {m : Milestone Hash} {r : MilestoneRow Hash}
    (hconf : Confirmed m delta L L') (hload : L.tangle.milestones.find? m.index = some r)
    (hold : (L.tangle.storedDelta m.index).rows = []) (i : ℕ) :
    L'.tangle.storedDelta i = if i = m.index then delta else L.tangle.storedDelta i := by
  have hms := hconf.milestones
  by_cases hnil : delta.rows = []
  · rw [if_pos hnil] at hms
    have hsame : L'.tangle.storedDelta i = L.tangle.storedDelta i := by
      rw [Tangle.storedDelta, Tangle.storedDelta, hms]
    rw [hsame]
    split
    · rename_i hi
      rw [hi]
      exact Table.ext (hold.trans hnil.symm)
    · rfl
  · rw [if_neg hnil] at hms
    rw [storedDelta_setDelta hms, hload]
    simp only [Option.isSome_some, and_true]

/-- No milestone row is lost. -/
theorem Confirmed.row {m : Milestone Hash} (hconf : Confirmed m delta L L') {i : ℕ}
    {r : MilestoneRow Hash} (hr : L.tangle.milestones.find? i = some r) :
    ∃ r', L'.tangle.milestones.find? i = some r' := by
  rw [hconf.milestones]
  split
  · exact ⟨r, hr⟩
  · exact ⟨_, by rw [Milestones.setDelta, Table.find?_update, hr]; rfl⟩

/-- A confirmed milestone extends the run by its delta. -/
theorem LiveInv.confirm {n : ℕ} {r : MilestoneRow Hash} {L₁ : Ledger Hash} (h : LiveInv n L)
    (hload : L.tangle.milestones.find? (L.initial.index + n + 1) = some r)
    (hfound : FoundDelta sponge genesis r.milestone L delta) (hsame : SameLedger L L₁)
    (hconf : Confirmed r.milestone delta L₁ L') : LiveInv (n + 1) L' := by
  have hidx : r.milestone.index = L.initial.index + n + 1 := Milestones.index_of_find? hload
  have hini : L'.initial = L.initial := hconf.initial.trans hsame.initial
  have hlast : L'.latest.index = L.initial.index + n + 1 := hconf.index.trans hidx
  have hupper := h.upper
  have hms₁ : L₁.tangle.milestones = L.tangle.milestones := hsame.store.milestones
  have hd₁ : ∀ i, L₁.tangle.storedDelta i = L.tangle.storedDelta i := fun i => by
    rw [Tangle.storedDelta, Tangle.storedDelta, hms₁]
  have hdelta : ∀ i, L'.tangle.storedDelta i =
      if i = L.initial.index + n + 1 then delta else L.tangle.storedDelta i := by
    intro i
    rw [← hidx, ← hd₁]
    refine hconf.storedDelta_eq (by rw [hms₁, hidx]; exact hload) ?_ i
    rw [hd₁, hidx]
    exact h.quiet _ (by omega)
  have hrow : ∀ i r', L.tangle.milestones.find? i = some r' →
      ∃ r'', L'.tangle.milestones.find? i = some r'' :=
    fun i r' hr' => hconf.row (by rw [hms₁]; exact hr')
  have hbal : ∀ k ≤ n, ∀ a, balanceAt L.initial L'.tangle.storedDelta k a =
      balanceAt L.initial L.tangle.storedDelta k a := by
    intro k hk a
    refine balanceAt_congr (fun i h₁ h₂ => ?_) a
    rw [hdelta, if_neg (by omega)]
  refine ⟨?_, ?_, fun i hi => ?_, fun a => ?_, fun i hi => ?_, fun i hi => ?_, fun i hi => ?_⟩
  · rw [hini, hlast]
    omega
  · rw [hini, hlast]
    omega
  · rw [hini]
    rcases Nat.lt_succ_iff_lt_or_eq.mp hi with hi | rfl
    · obtain ⟨r', hr'⟩ := h.rows i hi
      exact hrow _ r' hr'
    · exact hrow _ r hload
  · rw [hini, hconf.get a, hsame.latest, balanceAt, hbal n le_rfl, hdelta, if_pos rfl, h.balance a]
  · rw [hini, hdelta]
    rcases Nat.lt_succ_iff_lt_or_eq.mp hi with hi | rfl
    · rw [if_neg (by omega)]
      exact h.sum i hi
    · rw [if_pos rfl]
      exact hconf.sum
  · rw [hini, hdelta]
    rcases Nat.lt_succ_iff_lt_or_eq.mp hi with hi | rfl
    · rw [if_neg (by omega)]
      intro e he
      rw [hbal i (by omega)]
      exact h.nonneg i hi e he
    · rw [if_pos rfl]
      intro e he
      rw [hbal i le_rfl, ← h.balance]
      exact hfound.nonneg e he
  · rw [hlast] at hi
    rw [hdelta, if_neg (by omega)]
    exact h.quiet i (by omega)

/-- A milestone that an earlier one confirmed is passed over: it has no delta. -/
theorem LiveInv.skip {n : ℕ} {r : MilestoneRow Hash} (h : LiveInv n L)
    (hload : L.tangle.milestones.find? (L.initial.index + n + 1) = some r) :
    LiveInv (n + 1) L := by
  have hupper := h.upper
  have hold : (L.tangle.storedDelta (L.initial.index + n + 1)).rows = [] := h.quiet _ (by omega)
  refine ⟨h.lower, by omega, fun i hi => ?_, fun a => ?_, fun i hi => ?_, fun i hi => ?_, h.quiet⟩
  · rcases Nat.lt_succ_iff_lt_or_eq.mp hi with hi | rfl
    · exact h.rows i hi
    · exact ⟨r, hload⟩
  · rw [balanceAt, ← h.balance a, StateDelta.get_of_rows_nil hold, Int64.add_zero]
  · rcases Nat.lt_succ_iff_lt_or_eq.mp hi with hi | rfl
    · exact h.sum i hi
    · rw [StateDelta.sum, hold]
      rfl
  · rcases Nat.lt_succ_iff_lt_or_eq.mp hi with hi | rfl
    · exact h.nonneg i hi
    · rw [hold]
      exact fun e he => absurd he List.not_mem_nil

/-- Nothing the invariant reads changes when only validities do. -/
theorem LiveInv.of_sameLedger {n : ℕ} (h : LiveInv n L) (hsame : SameLedger L L') :
    LiveInv n L' := by
  refine h.congr hsame.initial hsame.latest ?_ fun i _ => ?_
  · rw [hsame.store.milestones]
    exact h.rows
  · rw [Tangle.storedDelta, Tangle.storedDelta, hsame.store.milestones]

/-- **Every live run keeps the invariant.** -/
theorem Live.inv {n : ℕ} (h : Live sponge genesis n L) : LiveInv n L := by
  induction h with
  | start hstate hindex hdeltas =>
    refine ⟨hindex.ge, hindex.le, fun i hi => ?_, hstate, fun i hi => ?_, fun i hi => ?_,
      fun i hi => hdeltas i (hindex ▸ hi)⟩
    · exact absurd hi (Nat.not_lt_zero i)
    · exact absurd hi (Nat.not_lt_zero i)
    · exact absurd hi (Nat.not_lt_zero i)
  | environment _ hinitial hlatest hrows ih =>
    refine ih.congr hinitial hlatest (fun i hi => ?_) fun i hi => hrows.storedDelta_eq hi
    obtain ⟨r, hr⟩ := ih.rows i hi
    exact ⟨r, hrows.stay _ (by omega) r hr⟩
  | @update n L L' r hasSnapshot _ hload hr ih =>
    cases hasSnapshot with
    | false => exact ih.of_sameLedger (updateSnapshot_ok_false hr)
    | true =>
      rcases updateSnapshot_ok_true hr with ⟨-, hsame⟩ | ⟨delta, L₁, hfound, hsame, hconf⟩
      · refine (ih.of_sameLedger hsame).skip (r := r) ?_
        rw [hsame.store.milestones, hsame.initial]
        exact hload
      · exact ih.confirm hload hfound hsame hconf

/-- A fresh node over the same store: the latest snapshot is a copy of the initial
one, and nothing fails. -/
def restarted (L : Ledger Hash) : Ledger Hash :=
  { tangle := { L.tangle with faults := fun _ => [] }
    initial := L.initial
    latest := L.initial }

/-- The milestone the latest snapshot stands at has a stored delta, or no
milestone was confirmed. -/
def LastMoved (L : Ledger Hash) : Prop :=
  L.latest.index = L.initial.index ∨ (L.tangle.storedDelta L.latest.index).rows ≠ []

/-- Where a replay of a run stands after the delta of an index. -/
structure ReplayInv (L : Ledger Hash) (i : ℕ) (s : Snapshot Hash) : Prop where
  above : L.initial.index ≤ i
  lower : L.initial.index ≤ s.index
  balance : ∀ a, s.state.get a =
    balanceAt L.initial L.tangle.storedDelta (i - L.initial.index) a
  counted : L.initial.index = s.index ∨ (L.tangle.storedDelta s.index).rows ≠ []
  last : ∀ j, s.index < j → j ≤ i → (L.tangle.storedDelta j).rows = []

theorem ReplayInv.next {i : ℕ} (h : ReplayInv L i s)
    (happ : Applied (i + 1) (L.tangle.storedDelta (i + 1)) s s') : ReplayInv L (i + 1) s' := by
  have habove := h.above
  have hlower := h.lower
  have hbal : ∀ a, s'.state.get a =
      balanceAt L.initial L.tangle.storedDelta (i + 1 - L.initial.index) a := by
    intro a
    have hi : L.initial.index + (i - L.initial.index) + 1 = i + 1 := by omega
    rw [Nat.succ_sub habove, balanceAt, hi, happ.get a, h.balance a]
  by_cases hnil : (L.tangle.storedDelta (i + 1)).rows = []
  · have hidx : s'.index = s.index := by rw [happ.index, if_pos hnil]
    refine ⟨by omega, by omega, hbal, hidx ▸ h.counted, fun j h₁ h₂ => ?_⟩
    rcases Nat.le_succ_iff.mp h₂ with hj | rfl
    · exact h.last j (by omega) hj
    · exact hnil
  · have hidx : s'.index = i + 1 := by rw [happ.index, if_neg hnil]
    refine ⟨by omega, by omega, hbal, .inr (hidx ▸ hnil), fun j h₁ h₂ => ?_⟩
    omega

omit [HashBytes Hash] in
/-- Deltas that are empty from some point on leave the balances. -/
theorem balanceAt_of_quiet {deltas : ℕ → StateDelta Hash} {n k : ℕ}
    (h : ∀ i, s.index + n < i → (deltas i).rows = []) (hk : n ≤ k) (a : Hash) :
    balanceAt s deltas k a = balanceAt s deltas n a := by
  induction k, hk using Nat.le_induction with
  | base => rfl
  | succ k hk ih =>
    rw [balanceAt, ih, StateDelta.get_of_rows_nil (h _ (by omega)), Int64.add_zero]

theorem ReplayInv.start (L : Ledger Hash) : ReplayInv L L.initial.index L.initial := by
  refine ⟨le_rfl, le_rfl, fun a => ?_, .inl rfl, fun j h₁ h₂ => ?_⟩
  · rw [Nat.sub_self, balanceAt]
  · omega

/-- Whatever the replay comes to passed its checks when the run confirmed it. -/
theorem ReplayInv.checked {n i : ℕ} (hI : ReplayInv L i s) (hinv : LiveInv n L) :
    (∀ e ∈ (L.tangle.storedDelta (i + 1)).rows, 0 ≤ s.state.get e.1 + e.2) ∧
      (L.tangle.storedDelta (i + 1)).sum = 0 := by
  have habove := hI.above
  have hupper := hinv.upper
  have hi : L.initial.index + (i - L.initial.index) + 1 = i + 1 := by omega
  by_cases hn : i - L.initial.index < n
  · have hpos := hinv.nonneg _ hn
    have hsum := hinv.sum _ hn
    rw [hi] at hpos hsum
    refine ⟨fun e he => ?_, hsum⟩
    rw [hI.balance]
    exact hpos e he
  · -- past the run no delta is stored
    have hnil := hinv.quiet (i + 1) (by omega)
    rw [StateDelta.sum, hnil]
    exact ⟨fun e he => absurd he List.not_mem_nil, rfl⟩

/-- **The index a replay of the whole run ends with** is that of the last delta it
found, which is the index of the live node if that milestone moved something. -/
theorem ReplayInv.index_eq_iff {n j : ℕ} (hI : ReplayInv L j s) (hinv : LiveInv n L)
    (hj : L.initial.index + n ≤ j) : s.index = L.latest.index ↔ LastMoved L := by
  have hge := hI.lower
  have hupper := hinv.upper
  have hlower := hinv.lower
  -- no delta is stored above the latest milestone, so the replay does not pass it
  have hle : s.index ≤ L.latest.index := by
    rcases hI.counted with hc | hc
    · omega
    · by_contra hne
      exact hc (hinv.quiet _ (by omega))
  constructor
  · intro heq
    rw [LastMoved, ← heq]
    exact hI.counted.imp Eq.symm id
  · rintro (hfirst | hmoved)
    · omega
    · have : L.latest.index ≤ s.index := by
        by_contra hlt
        exact hmoved (hI.last _ (by omega) (by omega))
      omega

/-- **A restart against the run.** The replay returns with the balances of the live
node, and with its index exactly when the last confirmed milestone moved
something or none was confirmed. -/
theorem restart_balances_and_index_iff (sponge : Sponge Hash) (genesis : Hash) (n : ℕ)
    (L : Ledger Hash) (h : Live sponge genesis n L) :
    ∃ L', buildSnapshot (restarted L) = .ok () L' ∧
      (∀ a, L'.latest.state.get a = L.latest.state.get a) ∧
      (L'.latest.index = L.latest.index ↔ LastMoved L) := by
  have hinv := h.inv
  have hupper := hinv.upper
  have hdeltas : ∀ t : Tangle Hash, t.milestones = L.tangle.milestones →
      t.storedDelta = L.tangle.storedDelta := by
    intro t ht
    funext i
    rw [Tangle.storedDelta, Tangle.storedDelta, ht]
  have hstep : ∀ i s s', ReplayInv L i s → ∀ t : Tangle Hash, t.milestones = L.tangle.milestones →
      Applied (i + 1) (t.storedDelta (i + 1)) s s' → ReplayInv L (i + 1) s' := by
    intro i s s' hI t ht happ
    exact hI.next (hdeltas t ht ▸ happ)
  have hcheck : ∀ i s, ReplayInv L i s → ∀ t : Tangle Hash, t.milestones = L.tangle.milestones →
      (∀ e ∈ (t.storedDelta (i + 1)).rows, 0 ≤ s.state.get e.1 + e.2) ∧
        (t.storedDelta (i + 1)).sum = 0 := by
    intro i s hI t ht
    rw [hdeltas t ht]
    exact hI.checked hinv
  have hstart := ReplayInv.start L
  obtain ⟨L', hr⟩ := buildSnapshot_returns (L := restarted L) hstep hcheck hstart rfl
  obtain ⟨⟨j, hj, hI, hend⟩, -⟩ := buildSnapshot_ok (L := restarted L) hstep hstart hr
  -- every milestone of the run has a row, so the replay did not end before it
  have hjn : L.initial.index + n ≤ j := by
    by_contra hlt
    have hj' : L.initial.index ≤ j := hj
    obtain ⟨r, hrow⟩ := hinv.rows (j - L.initial.index) (by omega)
    have hi : L.initial.index + (j - L.initial.index) + 1 = j + 1 := by omega
    rw [hi] at hrow
    cases hrow.symm.trans hend
  refine ⟨L', hr, fun a => ?_, hI.index_eq_iff hinv hjn⟩
  rw [hI.balance a, hinv.balance a]
  exact balanceAt_of_quiet (fun i hi => hinv.quiet i (by omega)) (by omega) a

/-! ## A milestone that moves nothing -/

/-- A milestone that moves nothing. -/
def quietLedger : Ledger (Fin 256) where
  tangle :=
    { transactions := ⟨[plainTx 1 0 0 10 0 0 0], by decide⟩
      milestones := ⟨⟨[⟨⟨1, 1⟩, none⟩], nodup_firstIndex⟩, nodup_firstHash⟩
      faults := fun _ => [] }
  initial := ⟨⟨[(11, 100)], nodup_hundred⟩, 0, 0, 0, Table.empty⟩
  latest := ⟨⟨[(11, 100)], nodup_hundred⟩, 0, 0, 0, Table.empty⟩

/-- **The index is lost.** The live node stands at milestone 1, which moved
nothing; the node that starts over its store stands at 0. -/
theorem restart_loses_index :
    ∃ L L', Live plainSponge 0 1 L ∧ L.latest.index = 1 ∧
      buildSnapshot (restarted L) = .ok () L' ∧ L'.latest.index = 0 := by
  have hrun : returns (updateSnapshot plainSponge 0 ⟨1, 1⟩) quietLedger
      (fun b L => b && decide (L.latest.index = 1) &&
        returns buildSnapshot (restarted L) fun _ L' => decide (L'.latest.index = 0)) = true := by
    decide +kernel
  obtain ⟨b, L, hr, hp⟩ := of_returns hrun
  rw [Bool.and_eq_true, Bool.and_eq_true, decide_eq_true_eq] at hp
  obtain ⟨⟨rfl, hidx⟩, hre⟩ := hp
  obtain ⟨_, L', hr', hidx'⟩ := of_returns hre
  have hlive : Live plainSponge 0 0 quietLedger :=
    .start (fun _ => rfl) rfl fun i _ => storedDelta_of_none (by decide)
  exact ⟨L, L', .update (r := ⟨⟨1, 1⟩, none⟩) hlive rfl hr, hidx, hr', of_decide_eq_true hidx'⟩

/-- A milestone that moves five tokens is found again. -/
theorem restart_finds_index :
    ∃ L L', Live plainSponge 0 1 L ∧ L.latest.index = 1 ∧ L.latest.state.get 10 = 5 ∧
      buildSnapshot (restarted L) = .ok () L' ∧ L'.latest.index = 1 ∧
      L'.latest.state.get 10 = 5 := by
  have hrun : returns (updateSnapshot plainSponge 0 ⟨1, 1⟩) (moveLedger .snapshotWrite)
      (fun b L => b && decide (L.latest.index = 1 ∧ L.latest.state.get 10 = 5 ∧
        (L.tangle.storedDelta 1).rows ≠ [])) = true := by decide +kernel
  obtain ⟨b, L, hr, hp⟩ := of_returns hrun
  rw [Bool.and_eq_true, decide_eq_true_eq] at hp
  obtain ⟨rfl, hidx, hten, hmoved⟩ := hp
  have hlive : Live plainSponge 0 0 (moveLedger .snapshotWrite) :=
    .start (fun _ => rfl) rfl fun i _ => storedDelta_of_none (by decide)
  have hlive' : Live plainSponge 0 1 L := .update (r := ⟨⟨1, 1⟩, none⟩) hlive rfl hr
  obtain ⟨L', hr', hstate, hiff⟩ := restart_balances_and_index_iff plainSponge 0 1 L hlive'
  refine ⟨L, L', hlive', hidx, hten, hr', ?_, (hstate 10).trans hten⟩
  exact (hiff.mpr (.inr (hidx ▸ hmoved))).trans hidx

end Ledger

end Entangled
