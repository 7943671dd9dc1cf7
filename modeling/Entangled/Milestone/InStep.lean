import Entangled.Milestone.Tracker
/-!
# The tracker and the ledger

The index of the tracker and that of the latest snapshot agree as long as each
milestone the tracker moves past has just been confirmed by the ledger validator.
A milestone that carries a snapshot index already is moved past without the other
index moving: such a milestone is one that an earlier milestone confirmed, or, after
a restart, one that moved nothing and that the replay did not count.

`InStep` is what a call and a start-up keep where there is no such milestone
(`updateLatestSolidMilestone_ok`, `inStep_startUp`); `level_of_reachable` is the
account over whole runs.
-/

namespace Entangled

open Prog

variable {Hash : Type} [DecidableEq Hash] [HashBytes Hash]

/-! ## Links -/

namespace Tangle

/-- What the walks for a milestone read of a row: trunk, branch and snapshot index. -/
def link (t : Tangle Hash) (h : Hash) : Option (Hash × Hash × ℕ) :=
  (t.transactions.find? h).map fun tx => (tx.trunk, tx.branch, tx.snapshotIndex)

/-- Milestones and links are as they were. -/
structure SameLinks (t t' : Tangle Hash) : Prop where
  milestones : t'.milestones = t.milestones
  link : ∀ h, t'.link h = t.link h

variable {t t' u : Tangle Hash} {h : Hash}

theorem SameLinks.refl (t : Tangle Hash) : SameLinks t t := ⟨rfl, fun _ => rfl⟩

theorem SameLinks.trans (h₁ : SameLinks t t') (h₂ : SameLinks t' u) : SameLinks t u :=
  ⟨h₂.milestones.trans h₁.milestones, fun h => (h₂.link h).trans (h₁.link h)⟩

theorem SameCore.sameLinks (hs : SameCore t t') : SameLinks t t' := by
  have hcore : ∀ (t : Tangle Hash) h,
      t.link h = (t.core.find? h).map fun tx => (tx.trunk, tx.branch, tx.snapshotIndex) := by
    intro t h
    rw [find?_core, Option.map_map]
    rfl
  exact ⟨hs.milestones, fun h => by rw [hcore, hcore, hs.core]⟩

theorem SameTables.sameLinks (hs : SameTables t t') : SameLinks t t' := hs.sameCore.sameLinks

theorem sameLinks_withSolidity (t : Tangle Hash) (hashes : List Hash) (b : Bool) :
    SameLinks t (t.withSolidity hashes b) := by
  refine ⟨rfl, fun h => ?_⟩
  rw [link, withSolidity, find?_mapTransactions, Option.map_map, link]
  congr 1
  funext tx
  dsimp only [Function.comp]
  split <;> rfl

/-- The approvees of a transaction no milestone has confirmed. -/
def unconfirmedApprovees (t : Tangle Hash) (h : Hash) : List Hash :=
  match t.link h with
  | some (trunk, branch, 0) => [trunk, branch]
  | _ => []

theorem unconfirmedApprovees_of_find? {tx : Transaction Hash}
    (hf : t.transactions.find? h = some tx) (hz : tx.snapshotIndex = 0) :
    t.unconfirmedApprovees h = [tx.trunk, tx.branch] := by
  simp only [unconfirmedApprovees, link, hf, Option.map_some, hz]

end Tangle

namespace Solidifier

theorem stays_checkSolidity (setup : Setup Hash) (rounds : ℕ) (hash : Hash) (maxAnalyzed : Int32)
    (isSolid : Bool) :
    Process.Stays (fun s s' : Solidifier Hash => Tangle.SameLinks s.tangle s'.tangle)
      (checkSolidity setup rounds hash maxAnalyzed isSolid) := by
  have hread : ∀ {α : Type} {x : TangleM Hash α}, Keeps Tangle.SameTables x →
      Keeps (fun s s' : Solidifier Hash => Tangle.SameLinks s.tangle s'.tangle) (inTangle x) :=
    fun hx => Keeps.zoom hx fun _ _ h => h.sameLinks
  refine Process.Stays.bind (Process.Stays.atomic (hread (Tangle.keeps_read rfl _))) fun o => ?_
  split
  · trivial
  refine Process.Stays.bind (Process.Stays.searching (fun h seen l => hread ?_) _ _ _ _)
    fun r => ?_
  · exact Walk.keeps_apart (Walk.keeps_visitPast Tangle.storeFrame_sameTables
      (keeps_checkSolidityFunc _ _) h seen) l
  dsimp only
  split
  · refine Process.Stays.bind (Process.Stays.attempted (Process.Stays.atomic ?_)) fun ret => ?_
    · refine Keeps.zoom (S := Tangle.SameLinks) ?_ fun _ _ h => h
      refine Keeps.bind Tangle.SameLinks.trans (fun t => ((Tangle.keeps_attempt rfl) t).sameLinks)
        fun _ => Keeps.update fun t => Tangle.sameLinks_withSolidity t _ _
    · refine Process.Stays.bind (Process.Stays.atomic (Keeps.update fun s => .refl _)) fun _ => ?_
      cases ret <;> trivial
  · trivial

end Solidifier

/-! ## The cone of a milestone -/

namespace Ledger

open Search

variable {sponge : Sponge Hash} {genesis : Hash} {m : Milestone Hash} {L L' L₁ : Ledger Hash}
  {t t' : Tangle Hash} {delta : StateDelta Hash}

theorem updateSnapshotMilestoneFunc_verdict {h : Hash} {analyzed : List Hash} {v : Verdict Hash}
    {w w' : Walk Hash (List Hash)} (hr : updateSnapshotMilestoneFunc h analyzed w = .ok v w') :
    ∃ tx, w.pack.model = some tx ∧ w'.pack = w.pack ∧
      v = ⟨decide (tx.snapshotIndex = 0), false, analyzed⟩ := by
  rw [updateSnapshotMilestoneFunc, gets_bind] at hr
  split at hr
  · cases hr
  cases hm : w.pack.model with
  | none => rw [hm] at hr; cases hr
  | some tx =>
    rw [hm] at hr
    dsimp only at hr
    split at hr
    · rename_i hz
      cases hr
      exact ⟨tx, rfl, rfl, by rw [decide_eq_true hz]⟩
    · rename_i hz
      cases hr
      exact ⟨tx, rfl, rfl, by rw [decide_eq_false hz]⟩

/-- That walk never stops before its end. -/
theorem visitPast_not_stop {x : Hash} {seen : List Hash} {r : Visit Hash}
    {w w' : Walk Hash (List Hash)}
    (hr : Walk.visitPast updateSnapshotMilestoneFunc x seen w = .ok r w') : r.stop = false := by
  obtain ⟨_, w₁, h₁, h₂⟩ := bind_eq_ok.mp hr
  obtain ⟨v, w₂, h₃, h₄⟩ := bind_eq_ok.mp h₂
  obtain ⟨tx, -, -, rfl⟩ := updateSnapshotMilestoneFunc_verdict h₃
  obtain ⟨next, w₃, -, h₆⟩ := bind_eq_ok.mp h₄
  cases h₆
  rfl

/-- **The walk of `update_snapshot_milestone` stays in the unconfirmed cone.** -/
theorem hashes_reached {h : Hash} {B seen hashes : List Hash}
    (hr : Walk.run [] (Walk.dfsToPast updateSnapshotMilestoneFunc h genesis B) t =
      .ok (seen, hashes) t') :
    ∀ x ∈ hashes, Reach t.unconfirmedApprovees (hashSetAdd B genesis) h x := by
  obtain ⟨w, hw, rfl, rfl⟩ := Walk.run_eq_ok.mp hr
  let blocked := hashSetAdd B genesis
  let R := Reach t.unconfirmedApprovees blocked h
  -- a stacked hash is blocked or reached, and what is blocked is seen
  have hinv : Invariant (Walk.visitPast updateSnapshotMilestoneFunc) fun stack seen w =>
      w.tangle.transactions = t.transactions ∧ (∀ x ∈ blocked, x ∈ seen) ∧
        (∀ x ∈ stack, x ∈ blocked ∨ R x) ∧ ∀ x ∈ w.data, R x := by
    refine ⟨?_, ?_⟩
    · rintro x stack seen w ⟨ht, hseen, hstack, hdata⟩ -
      exact ⟨ht, hseen, fun y hy => hstack y (List.mem_cons_of_mem _ hy), hdata⟩
    · rintro x stack seen w r w' ⟨ht, hseen, hstack, hdata⟩ hx hv hstop
      -- not seen, so not blocked
      have hxR : R x := (hstack x List.mem_cons_self).resolve_left fun hb => hx (hseen x hb)
      obtain ⟨w₁, v, hload, hfunc, -, hsn, hnext⟩ := Walk.visitPast_ok hv hstop
      obtain ⟨hs, hd, hp⟩ := Walk.loadPack_ok hload
      obtain ⟨hloaded, htan, tx, hm, hd'⟩ := updateSnapshotMilestoneFunc_ok hfunc
      obtain ⟨tx', hm', hpack, rfl⟩ := updateSnapshotMilestoneFunc_verdict hfunc
      obtain rfl : tx = tx' := Option.some.inj (hm.symm.trans hm')
      have hfind : t.transactions.find? x = some tx := by
        rw [hp, ht] at hloaded hm
        cases hf : t.transactions.find? x with
        | none =>
          rw [hf] at hloaded
          cases hloaded
        | some tx₀ =>
          rw [hf] at hm
          exact hm
      refine ⟨by rw [htan, hs.1, ht], fun y hy => ?_, fun y hy => ?_, fun y hy => ?_⟩
      · rw [hsn]
        exact mem_hashSetAdd.mpr (.inl (hseen y hy))
      · rcases List.mem_append.mp hy with hy | hy
        · rcases hnext with ⟨-, hn⟩ | ⟨tx₂, hm₂, hbr, hn⟩
          · rw [hn] at hy
            cases hy
          · obtain rfl : tx = tx₂ := Option.some.inj (hm.symm.trans (hpack ▸ hm₂))
            by_cases hb : y ∈ blocked
            · exact .inl hb
            · refine .inr (.step hxR ?_ hb)
              rw [Tangle.unconfirmedApprovees_of_find? hfind (of_decide_eq_true hbr), ← hn]
              exact hy
        · exact hstack y (List.mem_cons_of_mem _ hy)
      · rw [hd', hd] at hy
        split at hy
        · rcases mem_hashSetAdd.mp hy with hy | rfl
          · exact hdata y hy
          · exact hxR
        · exact hdata y hy
  have hstart : (∀ x ∈ blocked, x ∈ hashSetAdd B genesis) ∧ ∀ x ∈ [h], x ∈ blocked ∨ R x := by
    refine ⟨fun x hx => hx, fun x hx => ?_⟩
    rw [List.mem_singleton.mp hx]
    by_cases hb : h ∈ blocked
    · exact .inl hb
    · exact .inr (.root hb)
  rcases search_run hinv ⟨rfl, hstart.1, hstart.2, fun x hx => by cases hx⟩ hw with
    ⟨-, -, -, hdata⟩ | ⟨x, seen', w₀, r, -, hvisit, hstop, -⟩
  · exact hdata
  · rw [visitPast_not_stop hvisit] at hstop
    cases hstop

/-- **What confirming a milestone does to the links**: hashes of its unconfirmed cone
get its index, and nothing else changes. -/
theorem confirmMilestone_links (hr : confirmMilestone genesis m delta L = .ok () L') :
    ∃ hashes : List Hash, (∀ h ∈ hashes, Reach L.tangle.unconfirmedApprovees (blocked genesis L.initial [])
      m.hash h) ∧ (∀ h ∉ hashes, L'.tangle.link h = L.tangle.link h) ∧
      ∀ h ∈ hashes, ∀ l, L'.tangle.link h = some l → l.2.2 = m.index := by
  rw [confirmMilestone, gets_bind] at hr
  obtain ⟨_, L₁, h₁, h₂⟩ := bind_eq_ok.mp hr
  obtain ⟨t₁, ht₁, rfl⟩ := zoom_eq_ok.mp h₁
  obtain ⟨_, L₂, h₃, h₄⟩ := bind_eq_ok.mp h₂
  obtain ⟨t₂, ht₂, rfl⟩ := zoom_eq_ok.mp h₃
  obtain ⟨htx₂, -, -⟩ := storeDelta_ok ht₂
  obtain ⟨-, -, -, -, htx₃, -⟩ := snapshotApplyPatch_ok h₄
  obtain ⟨⟨seen, hashes⟩, t₃, h₅, h₆⟩ := bind_eq_ok.mp ht₁
  have hs : Tangle.SameTables L.tangle t₃ := (Walk.keeps_run (Walk.keeps_dfsToPast
    Tangle.storeFrame_sameTables keeps_updateSnapshotMilestoneFunc)).of_ok h₅
  obtain ⟨_, t₄, h₇, h₈⟩ := bind_eq_ok.mp h₆
  cases h₈
  obtain ⟨-, rfl⟩ := Tangle.attempt_ok h₇
  have htx : L'.tangle.transactions = (t₃.withSnapshotIndex hashes m.index).transactions :=
    htx₃.trans htx₂
  have hfind : ∀ h, L'.tangle.transactions.find? h = (L.tangle.transactions.find? h).map
      fun tx => if h ∈ hashes then { tx with snapshotIndex := m.index } else tx := by
    intro h
    rw [htx, Tangle.withSnapshotIndex, Tangle.find?_mapTransactions, hs.1]
    cases hf : L.tangle.transactions.find? h with
    | none => rfl
    | some tx =>
      have hkey : tx.hash = h := Table.key_of_find? hf
      simp only [Option.map_some, hkey]
  refine ⟨hashes, hashes_reached h₅, fun h hh => ?_, fun h hh l hl => ?_⟩
  · simp only [Tangle.link, hfind, if_neg hh, Option.map_id']
  · simp only [Tangle.link, hfind, if_pos hh, Option.map_map] at hl
    obtain ⟨tx, -, rfl⟩ := Option.map_eq_some_iff.mp hl
    rfl

/-- A milestone that no milestone has confirmed yet is confirmed by a call that
returns `true`. -/
theorem updateSnapshot_confirms (hr : updateSnapshot sponge genesis m L = .ok true L')
    (hfree : ∀ tx, L.tangle.transactions.find? m.hash = some tx → tx.snapshotIndex = 0) :
    ∃ delta L₁, SameLedger L L₁ ∧ confirmMilestone genesis m delta L₁ = .ok () L' := by
  obtain ⟨r, L₁, h₁, h₂⟩ := bind_eq_ok.mp hr
  have hsame := (keeps_consistentDelta sponge genesis m).of_ok h₁
  rcases consistentDelta_ok h₁ with ⟨delta, rfl, -⟩ | rfl | ⟨-, tx, hf, hne⟩
  · obtain ⟨_, L₂, h₃, h₄⟩ := bind_eq_ok.mp h₂
    cases h₄
    exact ⟨delta, L₁, hsame, h₃⟩
  · cases h₂
  · exact absurd (hfree tx hf) hne

end Ledger

namespace Tracker

open Search Ledger

variable {sponge : Sponge Hash} {setup : Setup Hash} {genesis : Hash} {m : Milestone Hash}
  {T T' T₁ : Tracker Hash} {delta : StateDelta Hash}

/-! ## The invariant -/

/-- **Tracker and ledger agree**: one index, and the balances of the latest snapshot
are those of the initial one with the deltas of the milestones up to that index. -/
structure Level (T : Tracker Hash) : Prop where
  index : T.latestSolidMilestoneIndex = T.ledger.latest.index
  lower : T.ledger.initial.index ≤ T.ledger.latest.index
  balance : ∀ a, T.ledger.latest.state.get a = balanceAt T.ledger.initial
    T.ledger.tangle.storedDelta (T.ledger.latest.index - T.ledger.initial.index) a

/-- What carries the agreement from step to step: every milestone up to the index has
a row, and no delta is stored above it. -/
structure InStep (T : Tracker Hash) : Prop extends Level T where
  rows : ∀ i, T.ledger.initial.index < i → i ≤ T.ledger.latest.index →
    ∃ r, T.ledger.tangle.milestones.find? i = some r
  quiet : ∀ i, T.ledger.latest.index < i → (T.ledger.tangle.storedDelta i).rows = []

/-- The invariant reads the rows and deltas above the initial index only. -/
theorem InStep.congr (h : InStep T) (hinitial : T'.ledger.initial = T.ledger.initial)
    (hlatest : T'.ledger.latest = T.ledger.latest)
    (hindex : T'.latestSolidMilestoneIndex = T.latestSolidMilestoneIndex)
    (hrows : ∀ i, T.ledger.initial.index < i → ∀ r,
      T.ledger.tangle.milestones.find? i = some r →
        ∃ r', T'.ledger.tangle.milestones.find? i = some r')
    (hdeltas : ∀ i, T.ledger.initial.index < i →
      T'.ledger.tangle.storedDelta i = T.ledger.tangle.storedDelta i) : InStep T' := by
  have hlow := h.lower
  refine ⟨⟨?_, ?_, fun a => ?_⟩, fun i h₁ h₂ => ?_, fun i hi => ?_⟩
  · rw [hindex, hlatest]
    exact h.index
  · rw [hinitial, hlatest]
    exact hlow
  · rw [hinitial, hlatest, balanceAt_congr fun i h₁ _ => hdeltas i h₁]
    exact h.balance a
  · rw [hinitial] at h₁
    rw [hlatest] at h₂
    obtain ⟨r, hr⟩ := h.rows i h₁ h₂
    exact hrows i h₁ r hr
  · rw [hlatest] at hi
    rw [hdeltas i (by omega)]
    exact h.quiet i hi

omit [DecidableEq Hash] in
theorem storedDelta_of_milestones {t t' : Tangle Hash} (h : t'.milestones = t.milestones) (i : ℕ) :
    t'.storedDelta i = t.storedDelta i := by
  rw [Tangle.storedDelta, Tangle.storedDelta, h]

theorem InStep.of_milestones (h : InStep T) (hinitial : T'.ledger.initial = T.ledger.initial)
    (hlatest : T'.ledger.latest = T.ledger.latest)
    (hindex : T'.latestSolidMilestoneIndex = T.latestSolidMilestoneIndex)
    (hms : T'.ledger.tangle.milestones = T.ledger.tangle.milestones) : InStep T' :=
  h.congr hinitial hlatest hindex (fun i _ r hr => ⟨r, by rw [hms]; exact hr⟩)
    fun i _ => storedDelta_of_milestones hms i

/-! ## Start-up -/

/-- The index of the tracker was left alone with that of the snapshot, or follows it. -/
def Follows (T T' : Tracker Hash) : Prop :=
  T'.latestSolidMilestoneIndex = T'.ledger.latest.index ∨
    (T'.latestSolidMilestoneIndex = T.latestSolidMilestoneIndex ∧
      T'.ledger.latest.index = T.ledger.latest.index)

omit [DecidableEq Hash] in
theorem Follows.trans (h₁ : Follows T T₁) (h₂ : Follows T₁ T') : Follows T T' := by
  unfold Follows at *
  omega

theorem applyStoredDelta_refines (hr : applyStoredDelta m delta T = .ok () T') :
    Ledger.applyStoredDelta m.index delta T.ledger = .ok () T'.ledger ∧ Follows T T' := by
  unfold applyStoredDelta at hr
  split at hr
  · rename_i hnil
    cases hr
    exact ⟨by rw [Ledger.applyStoredDelta, if_pos hnil]; rfl, .inr ⟨rfl, rfl⟩⟩
  · rename_i hne
    obtain ⟨_, T₁, h₁, h₂⟩ := bind_eq_ok.mp hr
    obtain ⟨L, hL, rfl⟩ := zoom_eq_ok.mp h₁
    cases h₂
    have hidx := (applyStoredDelta_ok hL).1.index
    rw [if_neg hne] at hidx
    exact ⟨hL, .inl hidx.symm⟩

omit [DecidableEq Hash] in
theorem onLedger_ok {α : Type} {x : LedgerM Hash α} {a : α} (hr : onLedger x T = .ok a T') :
    x T.ledger = .ok a T'.ledger ∧ T' = { T with ledger := T'.ledger } := by
  obtain ⟨L, hL, rfl⟩ := zoom_eq_ok.mp hr
  exact ⟨hL, rfl⟩

omit [DecidableEq Hash] in
/-- A program on the store does not move either index. -/
theorem follows_onTangle {α : Type} {x : TangleM Hash α} {a : α}
    (hr : onLedger (Ledger.onTangle x) T = .ok a T') : Follows T T' := by
  obtain ⟨L, hL, rfl⟩ := zoom_eq_ok.mp hr
  obtain ⟨t, -, rfl⟩ := zoom_eq_ok.mp hL
  exact .inr ⟨rfl, rfl⟩

/-- The replay of the tracker is that of the ledger validator. -/
theorem buildSnapshotLoop_refines {n : ℕ} (hr : buildSnapshotLoop n m T = .ok () T') :
    Ledger.buildSnapshotLoop n m T.ledger = .ok () T'.ledger ∧ Follows T T' := by
  induction n generalizing m T with
  | zero => cases hr
  | succ n ih =>
    obtain ⟨d, T₁, h₁, h₂⟩ := bind_eq_ok.mp hr
    obtain ⟨_, T₂, h₃, h₄⟩ := bind_eq_ok.mp h₂
    obtain ⟨o, T₃, h₅, h₆⟩ := bind_eq_ok.mp h₄
    obtain ⟨hd, hf₂⟩ := applyStoredDelta_refines h₃
    have hload := (onLedger_ok h₁).1
    have hnext := (onLedger_ok h₅).1
    have hfollows : Follows T T₃ :=
      ((follows_onTangle h₁).trans hf₂).trans (follows_onTangle h₅)
    rw [Ledger.buildSnapshotLoop, bind_apply_ok hload, bind_apply_ok hd, bind_apply_ok hnext]
    cases o with
    | none =>
      cases h₆
      exact ⟨rfl, hfollows⟩
    | some next =>
      obtain ⟨hr', hf'⟩ := ih h₆
      exact ⟨hr', hfollows.trans hf'⟩

theorem buildSnapshot_refines (hr : buildSnapshot T = .ok () T') :
    Ledger.buildSnapshot T.ledger = .ok () T'.ledger ∧ Follows T T' := by
  rw [buildSnapshot, gets_bind] at hr
  obtain ⟨o, T₁, h₁, h₂⟩ := bind_eq_ok.mp hr
  have hload := (onLedger_ok h₁).1
  rw [Ledger.buildSnapshot, gets_bind]
  dsimp only [id] at hload ⊢
  rw [bind_apply_ok hload]
  cases o with
  | none =>
    cases h₂
    exact ⟨rfl, follows_onTangle h₁⟩
  | some milestone =>
    obtain ⟨hr', hf'⟩ := buildSnapshotLoop_refines h₂
    exact ⟨hr', (follows_onTangle h₁).trans hf'⟩

/-- No delta is stored above a milestone that is missing. -/
def Contiguous (T : Tracker Hash) : Prop :=
  ∀ i, T.ledger.initial.index < i → (T.ledger.tangle.storedDelta i).rows ≠ [] →
    ∀ k, T.ledger.initial.index < k → k ≤ i →
      ∃ r, T.ledger.tangle.milestones.find? k = some r

/-- The index the tracker starts from is that of the initial snapshot, or the replay
will find a delta and set it. -/
def StartsLevel (lastMilestone : ℕ) (T : Tracker Hash) : Prop :=
  lastMilestone ≤ T.ledger.initial.index ∨
    ∃ i, T.ledger.initial.index < i ∧ (T.ledger.tangle.storedDelta i).rows ≠ []

/-- The latest snapshot is a copy of the initial one. -/
structure Fresh (T : Tracker Hash) : Prop where
  state : ∀ a, T.ledger.latest.state.get a = T.ledger.initial.state.get a
  index : T.ledger.latest.index = T.ledger.initial.index

theorem Fresh.replayInv (h : Fresh T) :
    ReplayInv T.ledger T.ledger.initial.index T.ledger.latest := by
  refine ⟨Nat.le_refl _, h.index.ge, fun a => ?_, .inl h.index.symm, fun j h₁ h₂ => ?_⟩
  · rw [Nat.sub_self, balanceAt, h.state]
  · rw [h.index] at h₁
    omega

/-- **Start-up ends in step.** -/
theorem inStep_startUp {lastMilestone : ℕ} (hfresh : Fresh T) (hcont : Contiguous T)
    (hlevel : StartsLevel lastMilestone T) (hr : startUp lastMilestone T = .ok () T') :
    InStep T' := by
  rw [startUp, init, update_bind] at hr
  obtain ⟨hbuild, hfollows⟩ := buildSnapshot_refines hr
  dsimp only at hbuild
  have hstep : ∀ i s s', (ReplayInv T.ledger i s ∧ s.index ≤ i) → ∀ t : Tangle Hash,
      t.milestones = T.ledger.tangle.milestones → Applied (i + 1) (t.storedDelta (i + 1)) s s' →
        ReplayInv T.ledger (i + 1) s' ∧ s'.index ≤ i + 1 := by
    rintro i s s' ⟨hI, hle⟩ t ht happ
    refine ⟨hI.next (storedDelta_of_milestones ht (i + 1) ▸ happ), ?_⟩
    rw [happ.index]
    split <;> omega
  obtain ⟨⟨j, hj, ⟨hI, hle⟩, hend⟩, hini, hms⟩ :=
    Ledger.buildSnapshot_ok hstep ⟨hfresh.replayInv, hfresh.index.le⟩ hbuild
  have hdelta : ∀ i, T'.ledger.tangle.storedDelta i = T.ledger.tangle.storedDelta i :=
    storedDelta_of_milestones hms
  -- the replay has passed every delta there is
  have hquiet : ∀ i, T'.ledger.latest.index < i → (T.ledger.tangle.storedDelta i).rows = [] := by
    intro i hi
    have hlow := hI.lower
    rcases Nat.lt_or_ge j i with hji | hij
    · by_contra hne
      obtain ⟨r, hrow⟩ := hcont i (by omega) hne (j + 1) (by omega) (by omega)
      rw [hend] at hrow
      cases hrow
    · exact hI.last i hi hij
  refine ⟨⟨?_, ?_, fun a => ?_⟩, fun i h₁ h₂ => ?_, fun i hi => ?_⟩
  · rcases hfollows with h | ⟨h₁, h₂⟩
    · exact h
    · dsimp only at h₁ h₂
      rw [hfresh.index] at h₂
      rcases hlevel with hle | ⟨i, hi, hne⟩
      · rw [h₁, h₂]
        omega
      · exact absurd (hquiet i (by omega)) hne
  · rw [hini]
    exact hI.lower
  · have hlow := hI.lower
    rw [hini, balanceAt_congr fun i _ _ => hdelta i, hI.balance a]
    exact balanceAt_of_quiet (fun i hi => hquiet i (by omega)) (by omega) a
  · rw [hini] at h₁
    rw [hms]
    rcases hI.counted with hc | hc
    · omega
    · exact hcont _ (by omega) hc i h₁ h₂
  · rw [hdelta]
    exact hquiet i hi

/-! ## A call -/

/-- **Nothing above the tracker is confirmed, or will be by another milestone**: the
milestones it can come to carry no snapshot index, and none lies in the unconfirmed
cone of a lower one. -/
structure Clear (genesis : Hash) (T : Tracker Hash) : Prop where
  free : ∀ i, T.latestSolidMilestoneIndex < i → i ≤ T.latestMilestoneIndex → ∀ r,
    T.ledger.tangle.milestones.find? i = some r → ∀ l,
      T.ledger.tangle.link r.milestone.hash = some l → l.2.2 = 0
  apart : ∀ j, T.latestSolidMilestoneIndex < j → ∀ i, j < i → i ≤ T.latestMilestoneIndex →
    ∀ r r', T.ledger.tangle.milestones.find? i = some r →
      T.ledger.tangle.milestones.find? j = some r' →
        ¬ Reach T.ledger.tangle.unconfirmedApprovees (blocked genesis T.ledger.initial [])
          r'.milestone.hash r.milestone.hash

theorem Clear.free_find? (h : Clear genesis T) {i : ℕ} (h₁ : T.latestSolidMilestoneIndex < i)
    (h₂ : i ≤ T.latestMilestoneIndex) {r : MilestoneRow Hash}
    (hr : T.ledger.tangle.milestones.find? i = some r) {tx : Transaction Hash}
    (hf : T.ledger.tangle.transactions.find? r.milestone.hash = some tx) :
    tx.snapshotIndex = 0 :=
  h.free i h₁ h₂ r hr (tx.trunk, tx.branch, tx.snapshotIndex) (by rw [Tangle.link, hf]; rfl)

/-- The milestones of one store are those of another, deltas aside. -/
def SameMilestones (t t' : Tangle Hash) : Prop :=
  ∀ i r', t'.milestones.find? i = some r' →
    ∃ r, t.milestones.find? i = some r ∧ r.milestone = r'.milestone

theorem Confirmed.sameMilestones {L L' : Ledger Hash} (h : Confirmed m delta L L') :
    SameMilestones L.tangle L'.tangle := by
  intro i r' hr'
  rw [h.milestones] at hr'
  split at hr'
  · exact ⟨r', hr', rfl⟩
  · rw [Milestones.setDelta, Table.find?_update] at hr'
    obtain ⟨r, hr, rfl⟩ := Option.map_eq_some_iff.mp hr'
    refine ⟨r, hr, ?_⟩
    split <;> rfl

/-- The tracker can be carried on, and no milestone becomes confirmed, when the links
of the milestones above it stay and no unconfirmed link is added. -/
theorem Clear.congr (h : Clear genesis T)
    (hinitial : T'.ledger.initial = T.ledger.initial)
    (hindex : T.latestSolidMilestoneIndex ≤ T'.latestSolidMilestoneIndex)
    (hlatest : T'.latestMilestoneIndex = T.latestMilestoneIndex)
    (hms : SameMilestones T.ledger.tangle T'.ledger.tangle)
    (hlink : ∀ i, T'.latestSolidMilestoneIndex < i → i ≤ T.latestMilestoneIndex → ∀ r,
      T.ledger.tangle.milestones.find? i = some r →
        T'.ledger.tangle.link r.milestone.hash = T.ledger.tangle.link r.milestone.hash)
    (hless : ∀ x y, y ∈ T'.ledger.tangle.unconfirmedApprovees x →
      y ∈ T.ledger.tangle.unconfirmedApprovees x) : Clear genesis T' := by
  refine ⟨fun i h₁ h₂ r' hr' l hl => ?_, fun j h₁ i h₂ h₃ r r' hr hr' hreach => ?_⟩
  · obtain ⟨r, hr, hm⟩ := hms i r' hr'
    rw [hlatest] at h₂
    rw [← hm, hlink i h₁ h₂ r hr] at hl
    exact h.free i (by omega) h₂ r hr l hl
  · obtain ⟨s, hs, hsm⟩ := hms i r hr
    obtain ⟨s', hs', hsm'⟩ := hms j r' hr'
    rw [hlatest] at h₃
    rw [hinitial, ← hsm, ← hsm'] at hreach
    refine h.apart j (by omega) i h₂ h₃ s s' hs hs' ?_
    exact hreach.mono (fun x _ y hy => hless x y hy) fun x hx => hx.not_mem

theorem unconfirmedApprovees_of_link {t t' : Tangle Hash} {x : Hash} (h : t'.link x = t.link x) :
    t'.unconfirmedApprovees x = t.unconfirmedApprovees x := by
  rw [Tangle.unconfirmedApprovees, h, Tangle.unconfirmedApprovees]

theorem Clear.of_sameLinks (h : Clear genesis T)
    (hs : Tangle.SameLinks T.ledger.tangle T'.ledger.tangle)
    (hinitial : T'.ledger.initial = T.ledger.initial)
    (hindex : T'.latestSolidMilestoneIndex = T.latestSolidMilestoneIndex)
    (hlatest : T'.latestMilestoneIndex = T.latestMilestoneIndex) : Clear genesis T' := by
  refine h.congr hinitial hindex.ge hlatest (fun i r hr => ⟨r, ?_, rfl⟩)
    (fun i _ _ r _ => hs.link _) fun x y hy => ?_
  · rw [← hs.milestones]
    exact hr
  · rwa [← unconfirmedApprovees_of_link (hs.link x)]

/-- **The tracker stays in step** when the snapshot moves on by the delta that is stored. -/
theorem InStep.confirmed (h : InStep T) (delta : StateDelta Hash)
    (hinitial : T'.ledger.initial = T.ledger.initial)
    (hindex : T'.latestSolidMilestoneIndex = T.latestSolidMilestoneIndex + 1)
    (hlast : T'.ledger.latest.index = T.latestSolidMilestoneIndex + 1)
    (hget : ∀ a, T'.ledger.latest.state.get a = T.ledger.latest.state.get a + delta.get a)
    (hdelta : ∀ i, T'.ledger.tangle.storedDelta i =
      if i = T.latestSolidMilestoneIndex + 1 then delta else T.ledger.tangle.storedDelta i)
    (hrows : ∀ i, T.ledger.initial.index < i → i ≤ T.latestSolidMilestoneIndex + 1 →
      ∃ r, T'.ledger.tangle.milestones.find? i = some r) : InStep T' := by
  have hlevel := h.index
  have hlow := h.lower
  refine ⟨⟨hindex.trans hlast.symm, ?_, fun a => ?_⟩, fun i h₁ h₂ => ?_, fun i hi => ?_⟩
  · rw [hinitial, hlast]
    omega
  · have hn : T'.ledger.latest.index - T'.ledger.initial.index =
        (T.ledger.latest.index - T.ledger.initial.index) + 1 := by
      rw [hinitial, hlast]
      omega
    have hlastIdx : T.ledger.initial.index +
        (T.ledger.latest.index - T.ledger.initial.index) + 1 =
          T.latestSolidMilestoneIndex + 1 := by omega
    rw [hn, hinitial, balanceAt, hget, h.balance a, hlastIdx, hdelta, if_pos rfl]
    congr 1
    -- the deltas below are as they were
    refine (balanceAt_congr (fun i h₁ h₂ => ?_) a).symm
    rw [hdelta, if_neg (by omega)]
  · rw [hinitial] at h₁
    rw [hlast] at h₂
    exact hrows i h₁ h₂
  · rw [hlast] at hi
    rw [hdelta, if_neg (by omega)]
    exact h.quiet i (by omega)

/-- **The way stays clear**: what the walk marks lies in the cone of the milestone, where no other
milestone is, and is confirmed now. -/
theorem Clear.confirmed (hclear : Clear genesis T) {r : MilestoneRow Hash} (hashes : List Hash)
    (hrow : T.ledger.tangle.milestones.find? (T.latestSolidMilestoneIndex + 1) = some r)
    (hinitial : T'.ledger.initial = T.ledger.initial)
    (hindex : T'.latestSolidMilestoneIndex = T.latestSolidMilestoneIndex + 1)
    (hlatest : T'.latestMilestoneIndex = T.latestMilestoneIndex)
    (hms : SameMilestones T.ledger.tangle T'.ledger.tangle)
    (hreach : ∀ x ∈ hashes, Reach T.ledger.tangle.unconfirmedApprovees
      (blocked genesis T.ledger.initial []) r.milestone.hash x)
    (hkeep : ∀ x ∉ hashes, T'.ledger.tangle.link x = T.ledger.tangle.link x)
    (hmark : ∀ x ∈ hashes, ∀ l, T'.ledger.tangle.link x = some l → l.2.2 ≠ 0) :
    Clear genesis T' := by
  refine hclear.congr hinitial (by omega) hlatest hms (fun i h₁ h₂ s hs => ?_) fun x y hy => ?_
  · rw [hindex] at h₁
    refine hkeep _ fun hmem => ?_
    exact hclear.apart _ (Nat.lt_succ_self _) i h₁ h₂ s r hs hrow (hreach _ hmem)
  · by_cases hx : x ∈ hashes
    · have hnil : T'.ledger.tangle.unconfirmedApprovees x = [] := by
        unfold Tangle.unconfirmedApprovees
        split
        · rename_i trunk branch hl
          exact absurd rfl (hmark x hx _ hl)
        · rfl
      exact absurd (hnil ▸ hy) List.not_mem_nil
    · rwa [← unconfirmedApprovees_of_link (hkeep x hx)]

/-- **Confirming the next milestone** keeps the tracker in step and the way clear. -/
theorem confirm_ok {b : Bool} {r : MilestoneRow Hash} (h : InStep T)
    (hclear : Clear setup.conf.genesisHash T)
    (hrow : T.ledger.tangle.milestones.find? (T.latestSolidMilestoneIndex + 1) = some r)
    (hle : T.latestSolidMilestoneIndex + 1 ≤ T.latestMilestoneIndex)
    (hr : confirm sponge setup r.milestone T = .ok b T') :
    InStep T' ∧ Clear setup.conf.genesisHash T' ∧
      T.latestSolidMilestoneIndex ≤ T'.latestSolidMilestoneIndex := by
  have hidx : r.milestone.index = T.latestSolidMilestoneIndex + 1 := Milestones.index_of_find? hrow
  obtain ⟨has, T₁, h₁, h₂⟩ := bind_eq_ok.mp hr
  obtain ⟨L, hL, rfl⟩ := zoom_eq_ok.mp h₁
  cases has with
  | false =>
    cases h₂
    have hsame := updateSnapshot_ok_false hL
    exact ⟨h.of_milestones hsame.initial hsame.latest rfl hsame.store.milestones,
      hclear.of_sameLinks hsame.store.sameLinks hsame.initial rfl rfl, Nat.le_refl _⟩
  | true =>
    cases h₂
    have hfree : ∀ tx, T.ledger.tangle.transactions.find? r.milestone.hash = some tx →
        tx.snapshotIndex = 0 := fun tx hf => hclear.free_find? (Nat.lt_succ_self _) hle hrow hf
    obtain ⟨delta, L₁, hsame, hconf⟩ := updateSnapshot_confirms hL hfree
    obtain ⟨hashes, hreach, hkeep, hmark⟩ := confirmMilestone_links hconf
    have hconf' := confirmMilestone_ok hconf
    have hini : L.initial = T.ledger.initial := hconf'.initial.trans hsame.initial
    have hms₁ : L₁.tangle.milestones = T.ledger.tangle.milestones := hsame.store.milestones
    have hdelta : ∀ i, L.tangle.storedDelta i =
        if i = T.latestSolidMilestoneIndex + 1 then delta else T.ledger.tangle.storedDelta i := by
      intro i
      have hlevel := h.index
      rw [hconf'.storedDelta_eq (r := r) (by rw [hms₁, hidx]; exact hrow) ?_ i, hidx,
        storedDelta_of_milestones hms₁]
      rw [storedDelta_of_milestones hms₁, hidx]
      exact h.quiet _ (by omega)
    refine ⟨h.confirmed delta hini hidx (hconf'.index.trans hidx) (fun a => ?_) hdelta
      fun i h₁ h₂ => ?_, hclear.confirmed hashes hrow hini hidx rfl (fun i r' hr' => ?_)
        (fun x hx => ?_) (fun x hx => ?_) fun x hx l hl => ?_, ?_⟩
    · exact (hconf'.get a).trans (by rw [hsame.latest])
    · rcases Nat.lt_or_ge i (T.latestSolidMilestoneIndex + 1) with hlt | hge
      · have hlevel := h.index
        obtain ⟨r', hr'⟩ := h.rows i h₁ (by omega)
        exact hconf'.row (by rw [hms₁]; exact hr')
      · obtain rfl : i = T.latestSolidMilestoneIndex + 1 := by omega
        exact hconf'.row (by rw [hms₁]; exact hrow)
    · obtain ⟨r₀, hr₀, hm₀⟩ := Confirmed.sameMilestones hconf' i r' hr'
      exact ⟨r₀, by rw [← hms₁]; exact hr₀, hm₀⟩
    · have hx' := hreach x hx
      rw [hsame.initial] at hx'
      refine hx'.mono (fun y _ z hz => ?_) fun y hy => hy.not_mem
      rwa [← unconfirmedApprovees_of_link (hsame.store.sameLinks.link y)]
    · exact (hkeep x hx).trans (hsame.store.sameLinks.link x)
    · rw [hmark x hx l hl, hidx]
      exact Nat.succ_ne_zero _
    · show T.latestSolidMilestoneIndex ≤ r.milestone.index
      omega

omit [DecidableEq Hash] in
theorem milestoneLoadNext_ok {index : ℕ} {t t' : Tangle Hash} {o : Option (Milestone Hash)}
    (hr : Tangle.milestoneLoadNext index t = .ok o t') :
    o = (t.milestones.next index).map (·.milestone) ∧ Tangle.SameTables t t' :=
  Tangle.read_ok rfl (fun hs => by rw [hs.2]) hr

/-- The milestone a load finds is stored above the index. -/
def Offered (o : Option (Milestone Hash)) (T : Tracker Hash) : Prop :=
  ∀ m, o = some m → T.latestSolidMilestoneIndex < m.index ∧
    ∃ r, T.ledger.tangle.milestones.find? m.index = some r ∧ r.milestone = m

/-- What a round leaves, whatever it did. -/
structure Kept (genesis : Hash) (T T' : Tracker Hash) : Prop where
  inStep : InStep T'
  clear : Clear genesis T'
  rising : T.latestSolidMilestoneIndex ≤ T'.latestSolidMilestoneIndex

theorem loadNext_ok {o : Option (Milestone Hash)} (h : InStep T) (hclear : Clear genesis T)
    (hr : onLedger (Ledger.onTangle
      (Tangle.milestoneLoadNext T.latestSolidMilestoneIndex)) T = .ok o T') :
    Kept genesis T T' ∧ Offered o T' := by
  obtain ⟨L, hL, rfl⟩ := zoom_eq_ok.mp hr
  obtain ⟨t, ht, rfl⟩ := zoom_eq_ok.mp hL
  obtain ⟨rfl, hs⟩ := milestoneLoadNext_ok ht
  refine ⟨⟨h.of_milestones rfl rfl rfl hs.milestones,
    hclear.of_sameLinks hs.sameLinks rfl rfl rfl, Nat.le_refl _⟩, fun m hm => ?_⟩
  obtain ⟨r, hnext, rfl⟩ := Option.map_eq_some_iff.mp hm
  obtain ⟨hlt, hfind⟩ := Milestones.find?_of_next hnext
  refine ⟨hlt, r, ?_, rfl⟩
  show t.milestones.find? r.milestone.index = some r
  rw [hs.milestones]
  exact hfind

theorem checkSolidity_ok {rounds : ℕ} {hash : Hash} {b : Bool} (h : InStep T)
    (hclear : Clear genesis T) (hr : checkSolidity setup rounds hash T = .ok b T') :
    Kept genesis T T' ∧ T'.latestSolidMilestoneIndex = T.latestSolidMilestoneIndex ∧
      T'.latestMilestoneIndex = T.latestMilestoneIndex ∧
      T'.ledger.tangle.milestones = T.ledger.tangle.milestones := by
  rw [checkSolidity, gets_bind] at hr
  obtain ⟨s, hs, rfl⟩ := zoom_eq_ok.mp hr
  have hlinks : Tangle.SameLinks T.ledger.tangle s.tangle :=
    ((Solidifier.stays_checkSolidity _ _ _ _ _).keeps_run (fun s => .refl s.tangle)
      fun h₁ h₂ => h₁.trans h₂).of_ok hs
  exact ⟨⟨h.of_milestones rfl rfl rfl hlinks.milestones, hclear.of_sameLinks hlinks rfl rfl rfl,
    Nat.le_refl _⟩, rfl, rfl, hlinks.milestones⟩

/-- **The loop keeps tracker and ledger in step.** -/
theorem updateLoop_ok {rounds n : ℕ} {o : Option (Milestone Hash)} (h : InStep T)
    (hclear : Clear setup.conf.genesisHash T) (hoff : Offered o T)
    (hr : updateLoop sponge setup rounds n o T = .ok () T') :
    Kept setup.conf.genesisHash T T' := by
  induction n generalizing o T with
  | zero => cases hr
  | succ n ih =>
    cases o with
    | none =>
      cases hr
      exact ⟨h, hclear, Nat.le_refl _⟩
    | some m =>
      obtain ⟨-, r, hrow, rfl⟩ := hoff m rfl
      rw [updateLoop, gets_bind] at hr
      dsimp only [id] at hr
      split at hr
      · rename_i hcond
        obtain ⟨isSolid, T₁, h₁, h₂⟩ := bind_eq_ok.mp hr
        obtain ⟨hk₁, hidx₁, hmax₁, hms₁⟩ := checkSolidity_ok h hclear h₁
        split at h₂
        · cases h₂
          exact hk₁
        · obtain ⟨goesOn, T₂, h₃, h₄⟩ := bind_eq_ok.mp h₂
          -- either the direct successor is confirmed, or the round does nothing
          have hk₂ : Kept setup.conf.genesisHash T₁ T₂ := by
            rw [confirmNext, gets_bind] at h₃
            dsimp only [id] at h₃
            split at h₃
            · rename_i hnext
              obtain ⟨hin, hcl, hle⟩ := confirm_ok hk₁.inStep hk₁.clear
                (by rw [← hnext, hms₁]; exact hrow) (by omega) h₃
              exact ⟨hin, hcl, hle⟩
            · cases h₃
              exact ⟨hk₁.inStep, hk₁.clear, Nat.le_refl _⟩
          have hrise := hk₁.rising.trans hk₂.rising
          split at h₄
          · rw [gets_bind] at h₄
            obtain ⟨next, T₃, h₅, h₆⟩ := bind_eq_ok.mp h₄
            obtain ⟨hk₃, hoff₃⟩ := loadNext_ok hk₂.inStep hk₂.clear h₅
            have hk₄ := ih hk₃.inStep hk₃.clear hoff₃ h₆
            exact ⟨hk₄.inStep, hk₄.clear, hrise.trans (hk₃.rising.trans hk₄.rising)⟩
          · cases h₄
            exact ⟨hk₂.inStep, hk₂.clear, hrise⟩
      · cases hr
        exact ⟨h, hclear, Nat.le_refl _⟩

/-- **A call keeps tracker and ledger in step**, where the way is clear. -/
theorem updateLatestSolidMilestone_ok {rounds n : ℕ} (h : InStep T)
    (hclear : Clear setup.conf.genesisHash T)
    (hr : updateLatestSolidMilestone sponge setup rounds n T = .ok () T') :
    Kept setup.conf.genesisHash T T' := by
  rw [updateLatestSolidMilestone, gets_bind] at hr
  obtain ⟨o, T₁, h₁, h₂⟩ := bind_eq_ok.mp hr
  obtain ⟨hk, hoff⟩ := loadNext_ok h hclear h₁
  have hk' := updateLoop_ok hk.inStep hk.clear hoff h₂
  exact ⟨hk'.inStep, hk'.clear, hk.rising.trans hk'.rising⟩

/-! ## Runs -/

/-- What the rest of the node does between two calls: new milestones and transactions
arrive, transactions are marked solid, and `latest_milestone_index` moves on. -/
structure Elsewhere (T T' : Tracker Hash) : Prop where
  initial : T'.ledger.initial = T.ledger.initial
  latest : T'.ledger.latest = T.ledger.latest
  index : T'.latestSolidMilestoneIndex = T.latestSolidMilestoneIndex
  rows : RowsKept T.ledger.initial.index T.ledger.tangle T'.ledger.tangle

theorem InStep.elsewhere (h : InStep T) (he : Elsewhere T T') : InStep T' :=
  h.congr he.initial he.latest he.index (fun i hi r hr => ⟨r, he.rows.stay i hi r hr⟩)
    fun _ hi => he.rows.storedDelta_eq hi

/-- A node that starts again: the store is as it was left, and the latest snapshot is a
copy of the initial one. -/
structure Restarted (T T' : Tracker Hash) : Prop extends Fresh T' where
  initial : T'.ledger.initial = T.ledger.initial
  rows : RowsKept T.ledger.initial.index T.ledger.tangle T'.ledger.tangle

/-- A tracker in step leaves a store without gaps below its deltas. -/
theorem InStep.contiguous (h : InStep T) (hr : Restarted T T') : Contiguous T' := by
  intro i hi hne k hk hki
  rw [hr.initial] at hi hk
  rw [hr.rows.storedDelta_eq hi] at hne
  have hle : i ≤ T.ledger.latest.index := by
    by_contra hgt
    exact hne (h.quiet i (by omega))
  obtain ⟨r, hrow⟩ := h.rows k hk (by omega)
  exact ⟨r, hr.rows.stay k hk r hrow⟩

/-- What a run is asked: of the store it first starts on, of its start-ups and of its
calls. -/
structure Conditions (Hash : Type) [HashBytes Hash] where
  stores : Tracker Hash → Prop
  starts : ℕ → Tracker Hash → Prop
  calls : Tracker Hash → Prop

/-- **Runs between two starts**, whose calls return. -/
inductive Lives (sponge : Sponge Hash) (setup : Setup Hash) (C : Conditions Hash)
    (T : Tracker Hash) : Tracker Hash → Prop
  | begin : Lives sponge setup C T T
  | elsewhere {T₁ T₂ : Tracker Hash} (hlives : Lives sponge setup C T T₁)
      (he : Elsewhere T₁ T₂) : Lives sponge setup C T T₂
  | call {T₁ T₂ : Tracker Hash} {rounds n : ℕ} (hlives : Lives sponge setup C T T₁)
      (hcall : C.calls T₁)
      (hr : updateLatestSolidMilestone sponge setup rounds n T₁ = .ok () T₂) :
      Lives sponge setup C T T₂

/-- **The states of the tracker between calls**, from a first start on over any
restarts. -/
inductive Reachable (sponge : Sponge Hash) (setup : Setup Hash) (C : Conditions Hash) :
    Tracker Hash → Prop
  | start {T T' : Tracker Hash} {lastMilestone : ℕ} (hfresh : Fresh T)
      (hstore : C.stores T) (hstart : C.starts lastMilestone T) (hr : startUp lastMilestone T = .ok () T') :
      Reachable sponge setup C T'
  | live {T T' : Tracker Hash} (hreach : Reachable sponge setup C T)
      (hlives : Lives sponge setup C T T') : Reachable sponge setup C T'
  | restart {T T₁ T' : Tracker Hash} {lastMilestone : ℕ} (hreach : Reachable sponge setup C T)
      (hrestart : Restarted T T₁) (hstart : C.starts lastMilestone T₁)
      (hr : startUp lastMilestone T₁ = .ok () T') : Reachable sponge setup C T'

/-- The conditions under which tracker and ledger stay level. -/
def levelConditions (setup : Setup Hash) : Conditions Hash where
  stores := Contiguous
  starts := StartsLevel
  calls T := Clear setup.conf.genesisHash T

theorem InStep.lives (h : InStep T) (hl : Lives sponge setup (levelConditions setup) T T') :
    InStep T' ∧ T.latestSolidMilestoneIndex ≤ T'.latestSolidMilestoneIndex := by
  induction hl with
  | begin => exact ⟨h, Nat.le_refl _⟩
  | elsewhere _ he ih => exact ⟨ih.1.elsewhere he, ih.2.trans he.index.ge⟩
  | call _ hcall hr ih =>
    have hk := updateLatestSolidMilestone_ok ih.1 hcall hr
    exact ⟨hk.inStep, ih.2.trans hk.rising⟩

theorem inStep_of_reachable (h : Reachable sponge setup (levelConditions setup) T) :
    InStep T := by
  induction h with
  | start hfresh hstore hstart hr => exact inStep_startUp hfresh hstore hstart hr
  | live _ hlives ih => exact (ih.lives hlives).1
  | restart _ hrestart hstart hr ih =>
    exact inStep_startUp hrestart.toFresh (ih.contiguous hrestart) hstart hr

/-- **Tracker and ledger never drift apart**, over every run whose start-ups and calls
meet the conditions: they agree in every state between calls, and between two starts
neither index goes down. -/
theorem level_of_reachable (sponge : Sponge Hash) (setup : Setup Hash) (T : Tracker Hash)
    (h : Reachable sponge setup (levelConditions setup) T) :
    Level T ∧ ∀ T', Lives sponge setup (levelConditions setup) T T' →
      T.latestSolidMilestoneIndex ≤ T'.latestSolidMilestoneIndex ∧
        T.ledger.latest.index ≤ T'.ledger.latest.index := by
  have hin := inStep_of_reachable h
  refine ⟨hin.toLevel, fun T' hl => ?_⟩
  obtain ⟨hin', hle⟩ := hin.lives hl
  have h₁ := hin.index
  have h₂ := hin'.index
  exact ⟨hle, by omega⟩

/-! ## A drift -/

omit [DecidableEq Hash] in
theorem rowsKept_refl (above : ℕ) (t : Tangle Hash) : RowsKept above t t :=
  ⟨fun _ _ _ h => h, fun _ _ hn r h => by rw [hn] at h; cases h⟩

/-- The genesis is `0`. -/
def plainSetup : Setup (Fin 256) := ⟨⟨0, 0, false⟩, true, ⟨0, 0, false⟩⟩

/-- A tracker about to start over a ledger. -/
def startingTracker (L : Ledger (Fin 256)) : Tracker (Fin 256) where
  ledger := L
  newlySetSolid := []
  tips := ⟨[], [], 5⟩
  solidifierRunning := true
  running := false
  latestMilestoneIndex := 0
  latestSolidMilestoneIndex := 0
  latestSolidMilestone := 0

/-- The tracker's threads run, and milestone 1 is known. -/
def awake (T : Tracker (Fin 256)) : Tracker (Fin 256) :=
  { T with running := true, latestMilestoneIndex := 1 }

/-- The node starts again over its store. -/
def rebooted (T : Tracker (Fin 256)) : Tracker (Fin 256) :=
  startingTracker { T.ledger with latest := T.ledger.initial }

theorem elsewhere_awake (T : Tracker (Fin 256)) : Elsewhere T (awake T) :=
  ⟨rfl, rfl, rfl, rowsKept_refl _ _⟩

theorem restarted_rebooted (T : Tracker (Fin 256)) : Restarted T (rebooted T) :=
  ⟨⟨fun _ => rfl, rfl⟩, rfl, rowsKept_refl _ _⟩

/-- Runs of which nothing is asked. -/
def anyConditions : Conditions (Fin 256) := ⟨fun _ => True, fun _ _ => True, fun _ => True⟩

/-- **A restart lets them drift apart.** Milestone 1 moves nothing. The node confirms it,
starts again at index 0, and moves past it a second time: the tracker stands at 1, the
latest snapshot at 0. -/
theorem tracker_drifts :
    ∃ T, Reachable plainSponge plainSetup anyConditions T ∧
      T.latestSolidMilestoneIndex = 1 ∧ T.ledger.latest.index = 0 ∧ ¬ Level T := by
  have hrun : returns (startUp 0) (startingTracker quietLedger) (fun _ T₁ =>
      returns (updateLatestSolidMilestone plainSponge plainSetup 9 9) (awake T₁) fun _ T₂ =>
        returns (startUp 0) (rebooted T₂) fun _ T₃ =>
          returns (updateLatestSolidMilestone plainSponge plainSetup 9 9) (awake T₃) fun _ T₄ =>
            decide (T₄.latestSolidMilestoneIndex = 1 ∧ T₄.ledger.latest.index = 0)) = true := by
    decide +kernel
  obtain ⟨_, T₁, hstart, h₁⟩ := of_returns hrun
  obtain ⟨_, T₂, hcall, h₂⟩ := of_returns h₁
  obtain ⟨_, T₃, hstart', h₃⟩ := of_returns h₂
  obtain ⟨_, T₄, hcall', h₄⟩ := of_returns h₃
  obtain ⟨hidx, hlast⟩ := of_decide_eq_true h₄
  have hreach₁ : Reachable plainSponge plainSetup anyConditions T₁ :=
    .start ⟨fun _ => rfl, rfl⟩ trivial trivial hstart
  have hreach₂ : Reachable plainSponge plainSetup anyConditions T₂ :=
    hreach₁.live (.call (.elsewhere .begin (elsewhere_awake T₁)) trivial hcall)
  have hreach₃ : Reachable plainSponge plainSetup anyConditions T₃ :=
    hreach₂.restart (restarted_rebooted T₂) trivial hstart'
  refine ⟨T₄, hreach₃.live (.call (.elsewhere .begin (elsewhere_awake T₃)) trivial hcall'),
    hidx, hlast, fun hlevel => ?_⟩
  have hcontra := hlevel.index
  omega

/-- The milestone that moves five tokens, at the first start. -/
def movingTracker : Tracker (Fin 256) := startingTracker (moveLedger .snapshotWrite)

/-- A run that confirms one milestone stays level. -/
theorem tracker_level_after_transfer :
    ∃ T, Reachable plainSponge plainSetup (levelConditions plainSetup) T ∧
      T.latestSolidMilestoneIndex = 1 ∧ T.ledger.latest.state.get 10 = 5 ∧ Level T := by
  have hstart : startUp 0 movingTracker = .ok () movingTracker := by rfl
  have hrun : returns (updateLatestSolidMilestone plainSponge plainSetup 9 9) (awake movingTracker)
      (fun _ T => decide (T.latestSolidMilestoneIndex = 1 ∧ T.ledger.latest.state.get 10 = 5)) =
        true := by decide +kernel
  obtain ⟨_, T, hcall, hT⟩ := of_returns hrun
  obtain ⟨hidx, hten⟩ := of_decide_eq_true hT
  have hone : ∀ i r, movingTracker.ledger.tangle.milestones.find? i = some r → i = 1 := by
    intro i r hr
    have hmem := Table.mem_of_find? hr
    rw [← Table.key_of_find? hr, List.mem_singleton.mp hmem]
    rfl
  have hreach : Reachable plainSponge plainSetup (levelConditions plainSetup) movingTracker := by
    refine .start ⟨fun _ => rfl, rfl⟩ (fun i _ hne => absurd ?_ hne) (.inl (Nat.le_refl _)) hstart
    exact storedDelta_of_none (by decide)
  have hclear : Clear 0 (awake movingTracker) := by
    refine ⟨fun i _ _ r hr l hl => ?_, fun j _ i hji _ r r' hr hr' => ?_⟩
    · have hmem := Table.mem_of_find? hr
      rw [List.mem_singleton.mp hmem] at hl
      cases hl
      rfl
    · have h₁ := hone i r hr
      have h₂ := hone j r' hr'
      omega
  have hreach' : Reachable plainSponge plainSetup (levelConditions plainSetup) T :=
    hreach.live (.call (.elsewhere .begin (elsewhere_awake _)) hclear hcall)
  exact ⟨T, hreach', hidx, hten, (level_of_reachable plainSponge plainSetup T hreach').1⟩

end Tracker

end Entangled
