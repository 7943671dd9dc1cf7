import Entangled.LocalSnapshot.Service
import Entangled.Ledger.Update
import Mathlib.Algebra.BigOperators.Intervals
import Mathlib.Order.Interval.Finset.Nat
/-!
# What is written to disk

The balances of a snapshot that was persisted, against the ledger at the index it
carries: the initial state and every delta stored up to there. The replay adds
the deltas up to the first milestone that is missing, so what it misses has to
be nothing.
-/

namespace Entangled

open Prog

variable {Hash : Type} [DecidableEq Hash] [HashBytes Hash]

variable {t t' : Tangle Hash} {a : Hash}

/-! ## The replay -/

namespace Tangle

/-- What the deltas stored for the indexes in `(i, j]` do to an address. -/
def deltaSum (t : Tangle Hash) (a : Hash) (i j : ℕ) : ℤ :=
  ∑ k ∈ Finset.Ioc i j, ((t.storedDelta k).get a).toInt

theorem deltaSum_self (i : ℕ) : t.deltaSum a i i = 0 := by
  simp [deltaSum]

theorem deltaSum_add {i j k : ℕ} (hij : i ≤ j) (hjk : j ≤ k) :
    t.deltaSum a i j + t.deltaSum a j k = t.deltaSum a i k :=
  Finset.sum_Ioc_consecutive _ hij hjk

theorem deltaSum_succ (i : ℕ) :
    t.deltaSum a i (i + 1) = ((t.storedDelta (i + 1)).get a).toInt := by
  rw [deltaSum, Nat.Ioc_succ_singleton, Finset.sum_singleton]

theorem deltaSum_congr (h : t'.milestones = t.milestones) (i j : ℕ) :
    t'.deltaSum a i j = t.deltaSum a i j := by
  unfold deltaSum storedDelta
  rw [h]

end Tangle

/-- The index a replay of `n` rounds from `i` gets to: it stops below the first
milestone that is missing. -/
def replayEnd (ms : Milestones Hash) : ℕ → ℕ → ℕ
  | 0, i => i
  | n + 1, i => if (ms.find? (i + 1)).isSome then replayEnd ms n (i + 1) else i

omit [DecidableEq Hash] in
theorem le_replayEnd (ms : Milestones Hash) (n i : ℕ) : i ≤ replayEnd ms n i := by
  induction n generalizing i with
  | zero => exact le_rfl
  | succ n ih =>
    rw [replayEnd]
    split
    · have := ih (i + 1)
      omega
    · exact le_rfl

omit [DecidableEq Hash] in
theorem replayEnd_le (ms : Milestones Hash) (n i : ℕ) : replayEnd ms n i ≤ i + n := by
  induction n generalizing i with
  | zero => exact le_rfl
  | succ n ih =>
    rw [replayEnd]
    split
    · have := ih (i + 1)
      omega
    · omega

/-- **The loop merges the deltas up to the first gap**, in words. -/
theorem replayLoop_ok {n i : ℕ} {r r' : Replay Hash} {x : Hash → ℤ}
    (hget : ∀ a, r.merged.get a = Int64.ofInt (x a))
    (hidle : r.applied = false → ∀ a, r.merged.get a = 0)
    (hr : replayLoop n i r t = .ok r' t') :
    (∀ a, r'.merged.get a =
      Int64.ofInt (x a + t.deltaSum a i (replayEnd t.milestones n i))) ∧
    (r'.applied = false → ∀ a, r'.merged.get a = 0) ∧ Tangle.SameTables t t' := by
  induction n generalizing i r t x with
  | zero =>
    cases hr
    refine ⟨fun a => ?_, hidle, .refl _⟩
    rw [replayEnd, Tangle.deltaSum_self, Int.add_zero, hget]
  | succ n ih =>
    obtain ⟨o, t₁, h₁, h₂⟩ := bind_eq_ok.mp hr
    obtain ⟨rfl, hs₁⟩ := Tangle.milestoneLoadByIndex_ok h₁
    cases hf : t.milestones.find? (i + 1) with
    | none =>
      rw [hf] at h₂
      cases h₂
      refine ⟨fun a => ?_, hidle, hs₁⟩
      rw [replayEnd, hf, Option.isSome_none, if_neg Bool.false_ne_true, Tangle.deltaSum_self,
        Int.add_zero, hget]
    | some row =>
      rw [hf] at h₂
      have hidx : row.milestone.index = i + 1 := Milestones.index_of_find? hf
      have hend : replayEnd t.milestones (n + 1) i = replayEnd t.milestones n (i + 1) := by
        rw [replayEnd, hf, Option.isSome_some, if_pos rfl]
      have hsplit : ∀ a, t.deltaSum a i (replayEnd t.milestones (n + 1) i) =
          ((t.storedDelta (i + 1)).get a).toInt +
            t.deltaSum a (i + 1) (replayEnd t.milestones n (i + 1)) := by
        intro a
        rw [hend, ← Tangle.deltaSum_succ,
          Tangle.deltaSum_add (Nat.le_succ i) (le_replayEnd t.milestones n (i + 1))]
      obtain ⟨d, t₂, h₃, h₄⟩ := bind_eq_ok.mp h₂
      obtain ⟨rfl, hs₂⟩ := Tangle.stateDeltaLoad_ok h₃
      have hd : t₁.storedDelta row.milestone.index = t.storedDelta (i + 1) := by
        rw [hidx, Tangle.storedDelta, hs₁.milestones]
        rfl
      rw [hd] at h₄
      have hs := hs₁.trans hs₂
      split at h₄
      · -- an empty delta is passed over
        rename_i hnil
        obtain ⟨hget', hidle', hs'⟩ :=
          ih (r := ⟨r.merged, row.milestone.index, r.applied⟩) hget hidle h₄
        refine ⟨fun a => ?_, hidle', hs.trans hs'⟩
        rw [hget' a, hsplit a, StateDelta.get_of_rows_nil hnil, hs.milestones,
          Tangle.deltaSum_congr hs.milestones]
        simp
      · -- the sums wrap in the table as they do in a word
        obtain ⟨merged, t₃, h₅, h₆⟩ := bind_eq_ok.mp h₄
        obtain ⟨m, hm, rfl, hs₃⟩ := Tangle.withHeap_ok rfl h₅
        have hmerged : ∀ a, m.state.get a =
            Int64.ofInt (x a + ((t.storedDelta (i + 1)).get a).toInt) := by
          intro a
          rw [StateDelta.get_applyPatch hm]
          dsimp only
          rw [hget a, Word.ofInt_add_word]
        obtain ⟨hget', hidle', hs'⟩ := ih hmerged (fun h => by cases h) h₆
        have hall := hs.trans hs₃
        refine ⟨fun a => ?_, hidle', hall.trans hs'⟩
        rw [hget' a, hsplit a, hall.milestones, Tangle.deltaSum_congr hall.milestones,
          Int.add_assoc]

/-- **A replay adds the deltas up to the first gap** to the snapshot it is given. -/
theorem replayMilestones_ok {s s' : Snapshot Hash} {index : ℕ}
    (hr : replayMilestones s index t = .ok s' t') :
    (∀ a, s'.state.get a = Int64.ofInt ((s.state.get a).toInt +
      t.deltaSum a s.index (replayEnd t.milestones (index - s.index) s.index))) ∧
    Tangle.SameTables t t' := by
  obtain ⟨r, t₁, h₁, h₂⟩ := bind_eq_ok.mp hr
  obtain ⟨hget, hidle, hs₁⟩ := replayLoop_ok (x := fun _ => 0) (fun _ => rfl) (fun _ _ => rfl) h₁
  split at h₂
  · obtain ⟨state, t₂, h₃, h₄⟩ := bind_eq_ok.mp h₂
    obtain ⟨m, hm, rfl, hs₂⟩ := Tangle.withHeap_ok rfl h₃
    cases h₄
    refine ⟨fun a => ?_, hs₁.trans hs₂⟩
    dsimp only
    rw [StateDelta.get_applyPatch hm, hget a, Int.zero_add, Word.word_add_ofInt]
  · rename_i happ
    cases h₂
    refine ⟨fun a => ?_, hs₁⟩
    have hzero := hidle (by simpa using happ) a
    rw [hget a, Int.zero_add] at hzero
    rw [← Word.word_add_ofInt, hzero, Int64.add_zero]

/-! ## The copy of the initial snapshot -/

/-- What `iota_snapshot_copy` makes of the initial snapshot: a copy, or, when an
allocation fails, nothing at index zero. -/
def Ledger.copied (conf : Conf Hash) (L : Ledger Hash) : Snapshot Hash :=
  if true ∈ (L.tangle.faults .copyAlloc).take L.initial.state.rows.length
  then Snapshot.reset conf.genesisHash else L.initial

/-- A copy changes the outcomes of its own allocations and nothing else. -/
theorem Snapshot.copy_ok {src dst s : Snapshot Hash} (hr : Snapshot.copy src dst t = .ok s t') :
    s = (if true ∈ (t.faults .copyAlloc).take src.state.rows.length
      then { dst with state := Table.empty, solidEntryPoints := Table.empty } else src) ∧
    t'.transactions = t.transactions ∧ t'.milestones = t.milestones := by
  obtain ⟨r, t₁, h₁, h₂⟩ := bind_eq_ok.mp hr
  have hiff := StateDelta.copy_ok_iff src.state (t.faults .copyAlloc)
  rcases outcome_eq_ok.mp h₁ with ⟨state, rfl, hx⟩ | ⟨e, rfl, hx⟩
  · cases h₂
    unfold Tangle.withHeap at hx
    split at hx
    · rename_i m hm
      cases hx
      rw [if_neg (hiff.mp ⟨m, hm⟩), StateDelta.rows_copy rfl hm]
      exact ⟨rfl, rfl, rfl⟩
    · cases hx
  · cases h₂
    unfold Tangle.withHeap at hx
    split at hx
    · cases hx
    · rename_i e' m hm
      cases hx
      have hfail : true ∈ (t.faults .copyAlloc).take src.state.rows.length := by
        by_contra hn
        obtain ⟨m', hm'⟩ := hiff.mpr hn
        rw [hm] at hm'
        cases hm'
      rw [if_pos hfail]
      exact ⟨rfl, rfl, rfl⟩

namespace Ledger

variable {L L' : Ledger Hash} {conf : Conf Hash} {uninit : Uninit Hash} {target : Milestone Hash}
  {s s' : Snapshot Hash}

/-- Both snapshots and the tables stay. -/
structure SameTablesAt (L L' : Ledger Hash) : Prop where
  store : Tangle.SameTables L.tangle L'.tangle
  initial : L'.initial = L.initial
  latest : L'.latest = L.latest

omit [DecidableEq Hash] in
theorem determineNewEntryPoint_ok (hr : determineNewEntryPoint conf L = .ok target L') :
    target.index = candidateIndex conf.minDepth L - 1 ∧ SameTablesAt L L' := by
  rw [determineNewEntryPoint, gets_bind] at hr
  split at hr
  · cases hr
  split at hr
  · cases hr
  obtain ⟨o, L₁, h₁, h₂⟩ := bind_eq_ok.mp hr
  obtain ⟨t₁, ht₁, rfl⟩ := zoom_eq_ok.mp h₁
  obtain ⟨rfl, hs₁⟩ := Tangle.milestoneLoadByIndex_ok ht₁
  dsimp only [id] at h₂
  cases hf : L.tangle.milestones.find? (candidateIndex conf.minDepth L - 1) with
  | none => rw [hf] at h₂; cases h₂
  | some row =>
    rw [hf] at h₂
    cases h₂
    exact ⟨Milestones.index_of_find? hf, hs₁, rfl, rfl⟩

/-- **The generated state**: the copy and the deltas up to the first gap. -/
theorem generateSnapshot_ok (hr : generateSnapshot conf target L = .ok s L') :
    L.initial.index < target.index ∧
    (∀ a, s.state.get a = Int64.ofInt (((copied conf L).state.get a).toInt +
      L.tangle.deltaSum a (copied conf L).index
        (replayEnd L.tangle.milestones (target.index - (copied conf L).index)
          (copied conf L).index))) := by
  rw [generateSnapshot, gets_bind] at hr
  split at hr
  · cases hr
  rename_i hlt
  obtain ⟨c, L₁, h₁, h₂⟩ := bind_eq_ok.mp hr
  obtain ⟨t₁, ht₁, rfl⟩ := zoom_eq_ok.mp h₁
  obtain ⟨hc, -, hms⟩ := Snapshot.copy_ok ht₁
  have hcopied : c = copied conf L := hc
  obtain ⟨t₂, ht₂, rfl⟩ := zoom_eq_ok.mp h₂
  obtain ⟨hget, -⟩ := replayMilestones_ok ht₂
  refine ⟨Nat.lt_of_not_le hlt, fun a => ?_⟩
  rw [hget a, hcopied]
  dsimp only
  rw [Tangle.deltaSum_congr hms, hms]

/-- The metadata is that of the target; the state is left alone. -/
theorem generateSnapshotMetadata_ok
    (hr : generateSnapshotMetadata conf uninit target s L = .ok s' L') :
    s'.index = target.index ∧ s'.state = s.state := by
  rw [generateSnapshotMetadata, gets_bind] at hr
  obtain ⟨o, L₁, h₁, h₂⟩ := bind_eq_ok.mp hr
  dsimp only at h₂
  split at h₂
  · obtain ⟨entryPoints, L₂, h₃, h₄⟩ := bind_eq_ok.mp h₂
    cases h₄
    exact ⟨rfl, rfl⟩
  · cases h₂
    exact ⟨rfl, rfl⟩

/-- The index of the target milestone, read off the two snapshots. -/
def targetIndex (conf : Conf Hash) (L : Ledger Hash) : ℕ := candidateIndex conf.minDepth L - 1

/-- The balance of an address in the ledger at an index: the initial state and
every delta stored up to there, in unbounded integers. -/
def ledgerAt (L : Ledger Hash) (i : ℕ) (a : Hash) : ℤ :=
  (L.initial.state.get a).toInt + L.tangle.deltaSum a L.initial.index i

/-- What the replay misses of the ledger at the target: the deltas stored above
the first milestone that is missing, and, when the copy failed, what the initial
snapshot is ahead of an empty one. -/
def missed (conf : Conf Hash) (L : Ledger Hash) (a : Hash) : ℤ :=
  ledgerAt L (targetIndex conf L) a - (((copied conf L).state.get a).toInt +
    L.tangle.deltaSum a (copied conf L).index
      (replayEnd L.tangle.milestones (targetIndex conf L - (copied conf L).index)
        (copied conf L).index))

/-- With memory for the copy, what is missed is what is stored above the gap. -/
theorem missed_of_copied (hlt : L.initial.index ≤ targetIndex conf L)
    (hc : copied conf L = L.initial) (a : Hash) :
    missed conf L a = L.tangle.deltaSum a
      (replayEnd L.tangle.milestones (targetIndex conf L - L.initial.index) L.initial.index)
      (targetIndex conf L) := by
  have hsplit := Tangle.deltaSum_add (t := L.tangle) (a := a)
    (le_replayEnd L.tangle.milestones (targetIndex conf L - L.initial.index) L.initial.index)
    (by
      have := replayEnd_le L.tangle.milestones (targetIndex conf L - L.initial.index)
        L.initial.index
      omega : _ ≤ targetIndex conf L)
  unfold missed ledgerAt
  rw [hc]
  omega

end Ledger

/-- A snapshot is the ledger at the index it carries. -/
def TrueState (L : Ledger Hash) (s : Snapshot Hash) : Prop :=
  ∀ a, (s.state.get a).toInt = L.ledgerAt s.index a

namespace Node

variable {N N' : Node Hash} {conf : Conf Hash} {uninit : Uninit Hash} {s : Snapshot Hash}

/-- Only the ledger differs. -/
structure OnlyLedger (N N' : Node Hash) : Prop where
  persisted : N'.persisted = N.persisted
  pruner : N'.pruner = N.pruner
  spentAddresses : N'.spentAddresses = N.spentAddresses

omit [DecidableEq Hash] in
theorem OnlyLedger.refl (N : Node Hash) : OnlyLedger N N := ⟨rfl, rfl, rfl⟩

omit [DecidableEq Hash] in
theorem OnlyLedger.trans {A B C : Node Hash} (h : OnlyLedger A B) (h' : OnlyLedger B C) :
    OnlyLedger A C :=
  ⟨h'.1.trans h.1, h'.2.trans h.2, h'.3.trans h.3⟩

omit [DecidableEq Hash] in
theorem keeps_onLedger {α : Type} (x : LedgerM Hash α) : Keeps OnlyLedger (onLedger x) :=
  Keeps.zoom (S := fun _ _ => True) (fun _ => trivial) fun _ _ _ => ⟨rfl, rfl, rfl⟩

theorem keeps_nextSnapshot (conf : Conf Hash) (uninit : Uninit Hash) :
    Keeps OnlyLedger (nextSnapshot conf uninit) := by
  refine Keeps.bind OnlyLedger.trans (keeps_onLedger _) fun target => ?_
  refine Keeps.bind OnlyLedger.trans (keeps_onLedger _) fun next => ?_
  refine Keeps.bind OnlyLedger.trans (Keeps.gets OnlyLedger.refl _) fun initialIndex => ?_
  split
  · exact Keeps.bind OnlyLedger.trans (keeps_onLedger _) fun _ => Keeps.pure OnlyLedger.refl _
  · exact Keeps.pure OnlyLedger.refl _

/-- **The snapshot to write**: the target's index on the replayed state. -/
theorem nextSnapshot_ok (hr : nextSnapshot conf uninit N = .ok (some s) N') :
    s.index = N.ledger.targetIndex conf ∧ ∀ a, s.state.get a =
      Int64.ofInt (N.ledger.ledgerAt (N.ledger.targetIndex conf) a - N.ledger.missed conf a) := by
  obtain ⟨target, N₁, h₁, h₂⟩ := bind_eq_ok.mp hr
  obtain ⟨L₁, hL₁, rfl⟩ := zoom_eq_ok.mp h₁
  obtain ⟨htarget, hsame⟩ := Ledger.determineNewEntryPoint_ok hL₁
  have hidx : target.index = N.ledger.targetIndex conf := htarget
  have hcopied : Ledger.copied conf L₁ = Ledger.copied conf N.ledger := by
    unfold Ledger.copied
    rw [hsame.initial, hsame.store.commits .copyAlloc rfl]
  obtain ⟨next, N₂, h₃, h₄⟩ := bind_eq_ok.mp h₂
  obtain ⟨L₂, hL₂, rfl⟩ := zoom_eq_ok.mp h₃
  obtain ⟨-, hget⟩ := Ledger.generateSnapshot_ok hL₂
  rw [gets_bind] at h₄
  split at h₄
  · obtain ⟨stamped, N₃, h₅, h₆⟩ := bind_eq_ok.mp h₄
    cases h₆
    obtain ⟨L₃, hL₃, -⟩ := zoom_eq_ok.mp h₅
    obtain ⟨hi, hstate⟩ := Ledger.generateSnapshotMetadata_ok hL₃
    refine ⟨hi.trans hidx, fun a => ?_⟩
    rw [hstate, hget a]
    dsimp only
    rw [hcopied, hidx, Tangle.deltaSum_congr hsame.store.milestones, hsame.store.milestones,
      Ledger.missed, Int.sub_sub_self]
  · cases h₄

/-- What `persist_snapshot` can do to the disk. -/
theorem persisted_persistSnapshot (s : Snapshot Hash) (N : Node Hash) :
    (final (persistSnapshot s) N).persisted = N.persisted ∨
      (final (persistSnapshot s) N).persisted = s :: N.persisted := by
  cases h₁ : onTangle (Tangle.attemptAs .snapshotWriteFailed .snapshotWrite) N with
  | error e N₁ =>
    left
    rw [persistSnapshot, final_bind_of_error h₁]
    exact ((keeps_onLedger _).of_error h₁).persisted
  | ok u N₁ =>
    right
    have hp : N₁.persisted = N.persisted := ((keeps_onLedger _).of_ok h₁).persisted
    rw [persistSnapshot, final_bind_of_ok h₁, final_update_bind, final_gets_bind, ← hp]
    cases h₂ : onTangle (Snapshot.copy s N₁.ledger.initial)
        { N₁ with persisted := s :: N₁.persisted } with
    | error e N₂ =>
      rw [final_bind_of_error h₂]
      exact ((keeps_onLedger _).of_error h₂).persisted
    | ok initial' N₂ =>
      rw [final_bind_of_ok h₂, final_update]
      exact ((keeps_onLedger _).of_ok h₂).persisted

/-- A call that has written a snapshot has generated it. -/
theorem nextSnapshot_of_persisted
    (h : (final (takeSnapshot conf uninit) N).persisted = s :: N.persisted) :
    ∃ N₁, nextSnapshot conf uninit N = .ok (some s) N₁ := by
  have hne : N.persisted ≠ s :: N.persisted := fun h => by
    have := congrArg List.length h
    simp at this
  cases h₁ : nextSnapshot conf uninit N with
  | error e N₁ =>
    rw [takeSnapshot, final_bind_of_error h₁,
      ((keeps_nextSnapshot conf uninit).of_error h₁).persisted] at h
    exact absurd h hne
  | ok o N₁ =>
    have hp : N₁.persisted = N.persisted := ((keeps_nextSnapshot conf uninit).of_ok h₁).persisted
    rw [takeSnapshot, final_bind_of_ok h₁] at h
    cases o with
    | none =>
      dsimp only at h
      rw [final_pure, hp] at h
      exact absurd h hne
    | some p =>
      obtain ⟨N₂, h₂, hp₂⟩ : ∃ N₂, announce conf p N₁ = .ok () N₂ ∧ N₂.persisted = N.persisted := by
        unfold announce
        split
        · exact ⟨_, rfl, hp⟩
        · exact ⟨_, rfl, hp⟩
      dsimp only at h
      rw [final_bind_of_ok h₂] at h
      rcases persisted_persistSnapshot p N₂ with hlast | hlast
      · rw [hlast, hp₂] at h
        exact absurd h hne
      · rw [hlast, hp₂] at h
        cases (List.cons.inj h).1
        exact ⟨N₁, rfl⟩

/-- Milestones `1` and `3` move five tokens from `11` to `10` and on to `12`; the
milestone between them is there or not. -/
def gapNode (rows : List (MilestoneRow (Fin 256))) (h : (rows.map (·.index)).Nodup)
    (h' : (rows.map (·.milestone.hash)).Nodup) : Node (Fin 256) where
  ledger :=
    { tangle :=
        { transactions := ⟨[plainTx 3 0 0 10 0 0 0], by decide⟩
          milestones := ⟨⟨rows, h⟩, h'⟩
          faults := fun _ => [] }
      initial := ⟨⟨[(11, 100)], nodup_hundred⟩, 0, 0, 0, Table.empty⟩
      latest := ⟨⟨[(11, 95), (12, 5)], by decide⟩, 604, 0, 0, Table.empty⟩ }
  pruner := ⟨0, 0, [], ⟨[], [], 5000⟩⟩
  persisted := []
  spentAddresses := []

/-- The row of milestone `1`. -/
def gapFirst : MilestoneRow (Fin 256) :=
  ⟨⟨1, 1⟩, some (StateDelta.serialize ⟨[(11, -5), (10, 5)], nodup_moved⟩)⟩

/-- The row of milestone `3`, the target. -/
def gapTarget : MilestoneRow (Fin 256) :=
  ⟨⟨3, 3⟩, some (StateDelta.serialize ⟨[(10, -5), (12, 5)], by decide⟩)⟩

/-- Local snapshots a long way behind the latest milestone. -/
def gapConf : Conf (Fin 256) := ⟨0, 600, false⟩

/-- There is one element, and it has the property. -/
def holdsOfOne {α : Type} (p : α → Bool) : List α → Bool
  | [s] => p s
  | _ => false

end Node

end Entangled
