import Entangled.Pruning.Service
/-!
# What is collected and what is deleted

The walk of a milestone collects its pruning cone: what is reached from it
through transactions that it or a later milestone confirmed. The walks to the
future that are meant to add unconfirmed transactions start at confirmed ones,
and at those they end.

A call that fails anywhere in the collection empties the set, and the deletion
then takes the milestone alone and counts it as pruned.
-/

namespace Entangled

open Prog Search

variable {Hash : Type} [DecidableEq Hash] [HashBytes Hash]

namespace Tangle

variable {t t' : Tangle Hash} {h root genesis x : Hash} {tx : Transaction Hash} {index : ℕ}
  {analyzed : List Hash} {w w' : Walk Hash Unit} {v : Verdict Hash}

/-- **The pruning cone of a milestone**: what is reached from its hash through
transactions confirmed at its index or later. -/
def PruningCone (t : Tangle Hash) (genesis : Hash) (index : ℕ) (root : Hash) : Hash → Prop :=
  Reach (t.confirmedApprovees index) [genesis] root

/-! ## The walk to the future -/

omit [DecidableEq Hash] in
theorem collectUnconfirmedFunc_ok (hr : collectUnconfirmedFunc h analyzed w = .ok v w') :
    w' = w ∧ v.shouldStop = false ∧ v.analyzed = analyzed ∧
      (v.shouldBranch = true → ∃ tx, w.pack.model = some tx ∧ tx.snapshotIndex = 0) := by
  rw [collectUnconfirmedFunc, gets_bind] at hr
  split at hr
  · cases hr
    exact ⟨rfl, rfl, rfl, fun hb => by cases hb⟩
  · cases hm : w.pack.model with
    | none => rw [hm] at hr; cases hr
    | some tx =>
      rw [hm] at hr
      cases hr
      exact ⟨rfl, rfl, rfl, fun hb => ⟨tx, rfl, of_decide_eq_true hb⟩⟩

omit [DecidableEq Hash] in
theorem collectUnconfirmedFunc_error {e : Retcode}
    (hr : collectUnconfirmedFunc h analyzed w = .error e w') : e = .undefinedRead ∧ w' = w := by
  rw [collectUnconfirmedFunc, gets_bind] at hr
  split at hr
  · cases hr
  · cases hm : w.pack.model with
    | none =>
      rw [hm] at hr
      cases hr
      exact ⟨rfl, rfl⟩
    | some tx => rw [hm] at hr; cases hr

omit [DecidableEq Hash] in
theorem keeps_collectUnconfirmedFunc (h : Hash) (analyzed : List Hash) :
    Keeps (Walk.OnTangle SameTables) (collectUnconfirmedFunc h analyzed) := by
  rw [keeps_iff]
  constructor
  · intro w v w' hr
    obtain ⟨rfl, -⟩ := collectUnconfirmedFunc_ok hr
    exact SameTables.refl _
  · intro w e w' hr
    obtain ⟨-, rfl⟩ := collectUnconfirmedFunc_error hr
    exact SameTables.refl _

omit [DecidableEq Hash] in
theorem visitor_collectUnconfirmed : Walk.Visitor (@collectUnconfirmedFunc Hash _) where
  keeps := fun h analyzed w => (keeps_collectUnconfirmedFunc h analyzed w).sameCore
  pack := fun hr => by rw [(collectUnconfirmedFunc_ok hr).1]
  grows := fun hr y hy => by rwa [(collectUnconfirmedFunc_ok hr).2.2.1]
  rounds := fun hr => by cases (collectUnconfirmedFunc_error hr).1

/-- **From a confirmed transaction the walk to the future goes nowhere.** -/
theorem dfsToFuture_of_confirmed (hf : t.transactions.find? h = some tx)
    (hidx : tx.snapshotIndex ≠ 0) (hn : h ∉ analyzed) {seen : List Hash}
    (hr : Walk.run () (Walk.dfsToFuture collectUnconfirmedFunc h analyzed) t = .ok (seen, ()) t') :
    seen = analyzed ++ [h] ∧ SameTables t t' := by
  obtain ⟨w, hw, -, rfl⟩ := Walk.run_eq_ok.mp hr
  rw [Walk.dfsToFuture, Walk.futureRounds, search, if_neg hn] at hw
  obtain ⟨r, w₃, hvisit, hrest⟩ := bind_eq_ok.mp hw
  obtain ⟨w₁, v, w₂, hload, hfunc, hseen, hstop, hnext⟩ := Walk.visitFuture_ok hvisit
  obtain ⟨hs₁, -, hp⟩ := Walk.loadPack_ok hload
  rw [hf] at hp
  obtain ⟨rfl, hv, han, hbr⟩ := collectUnconfirmedFunc_ok hfunc
  have hnb : v.shouldBranch = false := by
    refine Bool.eq_false_iff.mpr fun hb => ?_
    obtain ⟨tx', hm, hz⟩ := hbr hb
    rw [hp] at hm
    exact hidx (Option.some.inj hm ▸ hz)
  have hpush := hnext.resolve_left fun h => by rw [hv] at h; cases h
  obtain ⟨hs₂, -, -, hnil⟩ := Walk.pushApprovers_ok hpush
  rw [hnb] at hnil
  have hrn : r.next = [] := hnil
  rw [hstop, hv, hrn, if_neg Bool.false_ne_true, List.nil_append, search] at hrest
  cases hrest
  rw [hseen, han, hashSetAdd_of_not_mem hn]
  exact ⟨rfl, hs₁.trans hs₂⟩

/-! ## The walk to the past -/

/-- **One transaction of the walk of a milestone**: it is added to the set, and is
walked through when it was confirmed at the milestone's index or later. -/
theorem collectForPruningFunc_ok (hpos : 0 < index) (hn : h ∉ analyzed) {w₁ : Walk Hash Unit}
    (hload : Walk.loadPack h w = .ok () w₁)
    (hr : collectForPruningFunc index h analyzed w₁ = .ok v w') :
    SameTables w.tangle w'.tangle ∧ v.shouldStop = false ∧
      hashSetAdd v.analyzed h = analyzed ++ [h] ∧
      (v.shouldBranch = true → ∃ tx, w'.pack.model = some tx ∧
        w.tangle.transactions.find? h = some tx ∧ index ≤ tx.snapshotIndex) ∧
      (v.shouldBranch = false → w.tangle.confirmedApprovees index h = []) := by
  obtain ⟨hs₁, -, hp⟩ := Walk.loadPack_ok hload
  rw [collectForPruningFunc, gets_bind] at hr
  cases hf : w.tangle.transactions.find? h with
  | none =>
    rw [hf] at hp
    simp only [hp, if_true] at hr
    cases hr
    refine ⟨hs₁, rfl, hashSetAdd_of_not_mem hn, (fun hb => by cases hb), fun _ => ?_⟩
    rw [confirmedApprovees, hf]
  | some tx =>
    rw [hf] at hp
    simp only [hp, Bool.true_eq_false, if_false] at hr
    split at hr
    · rename_i hidx
      obtain ⟨⟨seen, _⟩, w₂, h₁, h₂⟩ := bind_eq_ok.mp hr
      cases h₂
      obtain ⟨t₂, ht₂, rfl⟩ := zoom_eq_ok.mp h₁
      have hf₁ : w₁.tangle.transactions.find? h = some tx := by rw [hs₁.1, hf]
      obtain ⟨rfl, hs₂⟩ := dfsToFuture_of_confirmed hf₁ (by omega) hn ht₂
      refine ⟨hs₁.trans hs₂, rfl, hashSetAdd_of_mem (by simp), fun _ => ?_, fun hb => by cases hb⟩
      exact ⟨tx, by rw [hp], rfl, hidx⟩
    · rename_i hidx
      cases hr
      refine ⟨hs₁, rfl, hashSetAdd_of_not_mem hn, (fun hb => by cases hb), fun _ => ?_⟩
      rw [confirmedApprovees, hf]
      exact if_neg hidx

/-- The walk of a milestone so far. -/
structure Collecting (t : Tangle Hash) (genesis : Hash) (index : ℕ) (root : Hash)
    (order stack : List Hash) (w : Walk Hash Unit) : Prop where
  same : SameTables t w.tangle
  explored : Explored (t.confirmedApprovees index) [genesis] root stack order

theorem confirmedApprovees_of_sameTables (hs : SameTables t t') (index : ℕ) (h : Hash) :
    t'.confirmedApprovees index h = t.confirmedApprovees index h := by
  rw [confirmedApprovees, confirmedApprovees, hs.1]

theorem pruningCone_of_sameTables (hs : SameTables t t') :
    PruningCone t' genesis index root x ↔ PruningCone t genesis index root x := by
  unfold PruningCone
  rw [funext (confirmedApprovees_of_sameTables hs index)]

theorem collecting_invariant (hpos : 0 < index) (t : Tangle Hash) (genesis root : Hash) :
    Invariant (Walk.visitPast (collectForPruningFunc index)) fun stack seen w =>
      ∃ order, seen = [genesis] ++ order ∧ Collecting t genesis index root order stack w where
  skip := by
    rintro h stack seen w ⟨order, rfl, hw⟩ hmem
    exact ⟨order, rfl, hw.same, hw.explored.skip hmem⟩
  push := by
    rintro h stack seen w r w' ⟨order, rfl, hw⟩ hfresh hr hstop
    obtain ⟨w₁, v, hload, hfunc, -, hseen, hnext⟩ := Walk.visitPast_ok hr hstop
    obtain ⟨hs, -, han, hbr, hnobr⟩ := collectForPruningFunc_ok hpos hfresh hload hfunc
    have hsucc : r.next = t.confirmedApprovees index h := by
      rw [← confirmedApprovees_of_sameTables hw.same]
      rcases hnext with ⟨hb, hn⟩ | ⟨tx, hm, hb, hn⟩
      · rw [hn, hnobr hb]
      · obtain ⟨tx', hm', hf, hk⟩ := hbr hb
        rw [hm] at hm'
        obtain rfl : tx = tx' := Option.some.inj hm'
        rw [hn, confirmedApprovees, hf]
        exact (if_pos hk).symm
    refine ⟨order ++ [h], ?_, hw.same.trans hs, ?_⟩
    · rw [hseen, han, List.append_assoc]
    · exact hw.explored.push hfresh (fun y hy => hsucc ▸ hy) fun y hy => ⟨h, by simp, hsucc ▸ hy⟩

/-- **A walk that returns has collected the pruning cone**, and nothing else. -/
theorem dfsToPast_collects (hpos : 0 < index) {seen : List Hash}
    (hr : Walk.run () (Walk.dfsToPast (collectForPruningFunc index) root genesis []) t =
      .ok (seen, ()) t') :
    SameTables t t' ∧
      ∀ x, x ∈ hashSetRemove seen genesis ↔ PruningCone t genesis index root x := by
  obtain ⟨w, hw, -, rfl⟩ := Walk.run_eq_ok.mp hr
  have hinv := collecting_invariant hpos t genesis root
  have hstart : ∃ order, hashSetAdd [] genesis = [genesis] ++ order ∧
      Collecting t genesis index root order [root] ⟨t, ⟨none, false⟩, ()⟩ :=
    ⟨[], by simp [hashSetAdd], .refl t, .start⟩
  rcases search_run hinv hstart hw with ⟨order, rfl, hend⟩ |
    ⟨x, seen', w₀, v, ⟨stack, -, hx⟩, hv, hstop, -⟩
  · refine ⟨hend.same, fun x => ?_⟩
    have hne : PruningCone t genesis index root x → x ≠ genesis := fun hx he =>
      hx.not_mem (List.mem_singleton.mpr he)
    rw [mem_hashSetRemove, List.mem_append, List.mem_singleton, hend.explored.mem_iff]
    exact ⟨fun ⟨hx, hg⟩ => hx.resolve_left hg, fun hx => ⟨.inr hx, hne hx⟩⟩
  · -- no transaction stops the walk
    exfalso
    obtain ⟨_, w₁, hload, h₂⟩ := bind_eq_ok.mp hv
    obtain ⟨v', w₂, hfunc, h₄⟩ := bind_eq_ok.mp h₂
    rw [(collectForPruningFunc_ok hpos hx hload hfunc).2.1, if_neg Bool.false_ne_true] at h₄
    obtain ⟨next, w₃, -, h₆⟩ := bind_eq_ok.mp h₄
    cases h₆
    cases hstop

theorem keeps_collectForPruningFunc (index : ℕ) (h : Hash) (analyzed : List Hash) :
    Keeps (Walk.OnTangle SameTables) (collectForPruningFunc index h analyzed) := by
  have hR := @storeFrame_sameTables Hash _
  refine Keeps.bind (Walk.OnTangle.trans hR) (fun w => SameTables.refl _) fun p => ?_
  split
  · exact fun w => SameTables.refl _
  · split
    · exact fun w => SameTables.refl _
    · split
      · refine Keeps.bind (Walk.OnTangle.trans hR) (Walk.keeps_onTangle (Walk.keeps_run ?_))
          fun _ => fun w => SameTables.refl _
        exact Walk.keeps_dfsToFuture hR keeps_collectUnconfirmedFunc
      · exact fun w => SameTables.refl _

/-- What the walk of a milestone does at a transaction, in any store. -/
theorem collectForPruningFunc_cases (index : ℕ) (h : Hash) (analyzed : List Hash)
    (w : Walk Hash Unit) :
    collectForPruningFunc index h analyzed w = .ok ⟨false, false, analyzed⟩ w ∨
    (w.pack.loaded = true ∧ w.pack.model = none ∧
      collectForPruningFunc index h analyzed w = .error .undefinedRead w) ∨
    (w.pack.model ≠ none ∧
      ((∃ seen t', Walk.run () (Walk.dfsToFuture collectUnconfirmedFunc h analyzed) w.tangle =
          .ok (seen, ()) t' ∧
        collectForPruningFunc index h analyzed w =
          .ok ⟨true, false, seen⟩ { w with tangle := t' }) ∨
       ∃ e t', Walk.run () (Walk.dfsToFuture collectUnconfirmedFunc h analyzed) w.tangle =
          .error e t' ∧
        collectForPruningFunc index h analyzed w = .error e { w with tangle := t' })) := by
  rw [collectForPruningFunc, gets_bind]
  split
  · exact .inl rfl
  · rename_i hl
    cases hm : w.pack.model with
    | none => exact .inr (.inl ⟨by simpa using hl, rfl, rfl⟩)
    | some tx =>
      dsimp only
      split
      · refine .inr (.inr ⟨by simp, ?_⟩)
        cases hr : Walk.run () (Walk.dfsToFuture collectUnconfirmedFunc h analyzed) w.tangle with
        | ok r t' =>
          have hrun : Walk.onTangle
              (Walk.run () (Walk.dfsToFuture collectUnconfirmedFunc h analyzed))
              w = .ok r { w with tangle := t' } := zoom_eq_ok.mpr ⟨t', hr, rfl⟩
          exact .inl ⟨r.1, t', rfl, by rw [bind_apply_ok hrun]; rfl⟩
        | error e t' =>
          have hrun : Walk.onTangle
              (Walk.run () (Walk.dfsToFuture collectUnconfirmedFunc h analyzed))
              w = .error e { w with tangle := t' } := zoom_eq_error.mpr ⟨t', hr, rfl⟩
          exact .inr ⟨e, t', rfl, by rw [bind_apply_error hrun]⟩
      · exact .inl rfl

/-- The set of a walk to the future grows. -/
theorem mem_dfsToFuture {seen : List Hash} (hx : x ∈ analyzed)
    (hr : Walk.run () (Walk.dfsToFuture collectUnconfirmedFunc h analyzed) t = .ok (seen, ()) t') :
    x ∈ seen := by
  obtain ⟨w, hw, -, -⟩ := Walk.run_eq_ok.mp hr
  have hinv : Invariant (Walk.visitFuture (@collectUnconfirmedFunc Hash _))
      fun _ seen _ => x ∈ seen := by
    refine ⟨fun hx _ => hx, fun hx _ hv _ => ?_⟩
    obtain ⟨w₁, v, w₂, -, hfunc, hseen, -⟩ := Walk.visitFuture_ok hv
    rw [hseen, mem_hashSetAdd]
    exact .inl (visitor_collectUnconfirmed.grows hfunc x hx)
  rcases search_run hinv hx hw with hx | ⟨y, seen', w₀, v, ⟨_, hx, -⟩, hv, -, rfl⟩
  · exact hx
  · obtain ⟨w₁, v', w₂, -, hfunc, hseen, -⟩ := Walk.visitFuture_ok hv
    rw [hseen, mem_hashSetAdd]
    exact .inl (visitor_collectUnconfirmed.grows hfunc x hx)

theorem visitor_collectForPruning (index : ℕ) :
    Walk.Visitor (@collectForPruningFunc Hash _ _ index) where
  keeps := fun h analyzed w => (keeps_collectForPruningFunc index h analyzed w).sameCore
  pack := by
    intro h analyzed w v w' hv
    obtain hr | ⟨-, -, hr⟩ | ⟨-, ⟨_, _, -, hr⟩ | ⟨_, _, -, hr⟩⟩ :=
      collectForPruningFunc_cases index h analyzed w <;> rw [hr] at hv <;> cases hv <;> rfl
  grows := by
    intro h analyzed w v w' hv y hy
    obtain hr | ⟨-, -, hr⟩ | ⟨-, ⟨_, _, hrun, hr⟩ | ⟨_, _, -, hr⟩⟩ :=
      collectForPruningFunc_cases index h analyzed w <;> rw [hr] at hv <;> cases hv
    · exact hy
    · exact mem_dfsToFuture hy hrun
  rounds := by
    intro h analyzed w w' hv
    obtain hr | ⟨-, -, hr⟩ | ⟨-, ⟨_, _, -, hr⟩ | ⟨_, _, hrun, hr⟩⟩ :=
      collectForPruningFunc_cases index h analyzed w <;> rw [hr] at hv <;> cases hv
    obtain ⟨w₁, hw₁, -⟩ := Walk.run_eq_error.mp hrun
    exact Walk.dfsToFuture_ne_outOfRounds visitor_collectUnconfirmed hw₁

omit [DecidableEq Hash] in
theorem answers_collectUnconfirmed : Walk.Answers (@collectUnconfirmedFunc Hash _) := by
  intro h analyzed w hw
  rw [collectUnconfirmedFunc, gets_bind]
  split
  · exact ⟨_, w, rfl, hw, fun hb => by cases hb⟩
  · rename_i hl
    obtain ⟨tx, hm⟩ := Option.ne_none_iff_exists'.mp (hw.loaded (by simpa using hl))
    rw [hm]
    exact ⟨_, w, rfl, hw, fun _ => by rw [hm]; simp⟩

theorem answers_collectForPruning (index : ℕ) :
    Walk.Answers (@collectForPruningFunc Hash _ _ index) := by
  intro h analyzed w hw
  obtain ⟨seen₁, w₁, h₁, hw₁⟩ := Walk.dfsToFuture_returns h analyzed
    visitor_collectUnconfirmed answers_collectUnconfirmed (Walk.ready_start hw.quiet ())
  have hrun₁ := Walk.run_eq_ok.mpr ⟨w₁, h₁, rfl, rfl⟩
  obtain hr | ⟨hl, hm, -⟩ | ⟨hm, ⟨seen, t', hrun, hr⟩ | ⟨e, t', hrun, hr⟩⟩ :=
    collectForPruningFunc_cases index h analyzed w
  · exact ⟨_, w, hr, hw, fun hb => by cases hb⟩
  · exact absurd hm (hw.loaded hl)
  · rw [hrun₁] at hrun
    cases hrun
    exact ⟨_, _, hr, ⟨hw₁.quiet, hw.loaded⟩, fun _ => hm⟩
  · rw [hrun₁] at hrun
    cases hrun

end Tangle

namespace Node

variable {N N' N₁ : Node Hash} {conf : Conf Hash} {uninit : Uninit Hash} {sponge : Sponge Hash}
  {hash : Hash} {toPrune : List Hash}

/-! ## The frame of a collection -/

/-- A node on another state of its store. -/
def withTangle (N : Node Hash) (t : Tangle Hash) : Node Hash :=
  { N with ledger := { N.ledger with tangle := t } }

omit [DecidableEq Hash] in
theorem onTangle_eq_ok {α : Type} {x : TangleM Hash α} {a : α} :
    onTangle x N = .ok a N' ↔ ∃ t, x N.ledger.tangle = .ok a t ∧ N' = N.withTangle t := by
  rw [onTangle, onLedger, zoom_eq_ok]
  constructor
  · rintro ⟨L, hL, rfl⟩
    obtain ⟨t, ht, rfl⟩ := zoom_eq_ok.mp hL
    exact ⟨t, ht, rfl⟩
  · rintro ⟨t, ht, rfl⟩
    exact ⟨_, zoom_eq_ok.mpr ⟨t, ht, rfl⟩, rfl⟩

omit [DecidableEq Hash] in
theorem onTangle_eq_error {α : Type} {x : TangleM Hash α} {e : Retcode} :
    onTangle x N = .error e N' ↔ ∃ t, x N.ledger.tangle = .error e t ∧ N' = N.withTangle t := by
  rw [onTangle, onLedger, zoom_eq_error]
  constructor
  · rintro ⟨L, hL, rfl⟩
    obtain ⟨t, ht, rfl⟩ := zoom_eq_error.mp hL
    exact ⟨t, ht, rfl⟩
  · rintro ⟨t, ht, rfl⟩
    exact ⟨_, zoom_eq_error.mpr ⟨t, ht, rfl⟩, rfl⟩

/-- **What collecting leaves alone**: the tables up to validities, the snapshots,
and the indexes and entry points of the service. Spent addresses are added. -/
structure CollectFrame (sponge : Sponge Hash) (N N' : Node Hash) : Prop where
  tangle : Tangle.NoNewValid sponge N.ledger.tangle N'.ledger.tangle
  initial : N'.ledger.initial = N.ledger.initial
  latest : N'.ledger.latest = N.ledger.latest
  persisted : N'.persisted = N.persisted
  lastPruned : N'.pruner.lastPrunedSnapshotIndex = N.pruner.lastPrunedSnapshotIndex
  lastToPrune : N'.pruner.lastSnapshotIndexToPrune = N.pruner.lastSnapshotIndexToPrune
  entryPoints : N'.pruner.solidEntryPoints = N.pruner.solidEntryPoints
  spent : ∀ a ∈ N.spentAddresses, a ∈ N'.spentAddresses

theorem CollectFrame.refl (N : Node Hash) : CollectFrame sponge N N :=
  ⟨(Tangle.storeFrame_noNewValid sponge).refl _, rfl, rfl, rfl, rfl, rfl, rfl, fun _ h => h⟩

theorem CollectFrame.trans {A B C : Node Hash} (h : CollectFrame sponge A B)
    (h' : CollectFrame sponge B C) : CollectFrame sponge A C where
  tangle := (Tangle.storeFrame_noNewValid sponge).trans h.tangle h'.tangle
  initial := h'.initial.trans h.initial
  latest := h'.latest.trans h.latest
  persisted := h'.persisted.trans h.persisted
  lastPruned := h'.lastPruned.trans h.lastPruned
  lastToPrune := h'.lastToPrune.trans h.lastToPrune
  entryPoints := h'.entryPoints.trans h.entryPoints
  spent := fun a ha => h'.spent a (h.spent a ha)

theorem keeps_collectFrame_onTangle {α : Type} {x : TangleM Hash α}
    (hx : Keeps (Tangle.NoNewValid sponge) x) : Keeps (CollectFrame sponge) (onTangle x) := by
  rw [keeps_iff]
  constructor
  · intro N a N' hr
    obtain ⟨t, ht, rfl⟩ := onTangle_eq_ok.mp hr
    exact ⟨hx.of_ok ht, rfl, rfl, rfl, rfl, rfl, rfl, fun _ h => h⟩
  · intro N e N' hr
    obtain ⟨t, ht, rfl⟩ := onTangle_eq_error.mp hr
    exact ⟨hx.of_error ht, rfl, rfl, rfl, rfl, rfl, rfl, fun _ h => h⟩

theorem keeps_collectFrame_read (sponge : Sponge Hash) {α : Type} {x : TangleM Hash α}
    (hx : Keeps Tangle.SameTables x) : Keeps (CollectFrame sponge) (onTangle x) :=
  keeps_collectFrame_onTangle fun t => (Tangle.storeFrame_noNewValid sponge).ofSameTables (hx t)

theorem keeps_storeSpentAddress (address : Hash) :
    Keeps (CollectFrame sponge) (storeSpentAddress address) := by
  refine Keeps.bind CollectFrame.trans (keeps_collectFrame_read _ (Tangle.keeps_attempt rfl))
    fun _ => Keeps.update fun N => ?_
  exact ⟨(Tangle.storeFrame_noNewValid sponge).refl _, rfl, rfl, rfl, rfl, rfl, rfl,
    fun a ha => mem_hashSetAdd.mpr (.inl ha)⟩

theorem keeps_removeTip (h : Hash) : Keeps (CollectFrame sponge) (removeTip h) :=
  Keeps.update fun _ => ⟨(Tangle.storeFrame_noNewValid sponge).refl _, rfl, rfl, rfl, rfl, rfl, rfl,
    fun _ ha => ha⟩

theorem keeps_recordSpent (sponge : Sponge Hash) (hashes : List Hash) :
    Keeps (CollectFrame sponge) (recordSpent sponge hashes) := by
  induction hashes with
  | nil => exact Keeps.pure CollectFrame.refl _
  | cons h rest ih =>
    refine Keeps.bind CollectFrame.trans (keeps_collectFrame_read _ (Tangle.keeps_read rfl _))
      fun o => ?_
    refine Keeps.bind CollectFrame.trans (keeps_removeTip h) fun _ => ?_
    cases o with
    | none => exact ih
    | some tx =>
      refine Keeps.bind CollectFrame.trans
        (keeps_collectFrame_onTangle (Tangle.keeps_wasTxSpentFrom sponge tx h)) fun spent => ?_
      split
      · exact Keeps.bind CollectFrame.trans (keeps_storeSpentAddress _) fun _ => ih
      · exact ih

theorem keeps_collectOrFail (conf : Conf Hash) (sponge : Sponge Hash) (entryPoint : Hash) :
    Keeps (CollectFrame sponge) (collectOrFail conf sponge entryPoint) := by
  refine Keeps.bind CollectFrame.trans (Keeps.gets CollectFrame.refl _) fun index => ?_
  refine Keeps.bind CollectFrame.trans (keeps_collectFrame_read _ (Walk.keeps_run
    (Walk.keeps_dfsToPast Tangle.storeFrame_sameTables
      (Tangle.keeps_collectForPruningFunc index)))) fun r => ?_
  refine Keeps.bind CollectFrame.trans (Keeps.gets CollectFrame.refl _) fun entryPoints => ?_
  split
  · exact Keeps.pure CollectFrame.refl _
  · exact Keeps.bind CollectFrame.trans (keeps_recordSpent sponge _)
      fun _ => Keeps.pure CollectFrame.refl _

/-! ## What a collection returns -/

/-- **Every spending transaction is recorded** once the loop has returned. -/
theorem recordSpent_ok {hashes : List Hash} (hr : recordSpent sponge hashes N = .ok () N') :
    ∀ h ∈ hashes, ∀ tx, N'.ledger.tangle.transactions.find? h = some tx →
      Tangle.SpendsFrom sponge N'.ledger.tangle tx h → tx.address ∈ N'.spentAddresses := by
  induction hashes generalizing N with
  | nil => intro h hh; cases hh
  | cons x rest ih =>
    rw [recordSpent] at hr
    obtain ⟨o, N₁, h₁, h₂⟩ := bind_eq_ok.mp hr
    obtain ⟨t₁, ht₁, rfl⟩ := onTangle_eq_ok.mp h₁
    obtain ⟨rfl, hs₁⟩ := Tangle.transactionLoadPartial_ok ht₁
    obtain ⟨_, N₂, h₃, h₄⟩ := bind_eq_ok.mp h₂
    cases h₃
    have hload := (keeps_collectFrame_read sponge (Tangle.keeps_read rfl _)).of_ok h₁
    intro h hh tx hf hspends
    cases hx : N.ledger.tangle.transactions.find? x with
    | none =>
      rw [hx] at h₄
      rcases List.mem_cons.mp hh with rfl | hh
      · -- a hash without a row has none later
        exfalso
        have hsame := hload.trans ((keeps_removeTip h _).trans
          ((keeps_recordSpent sponge rest).of_ok h₄))
        rw [(Tangle.find?_none_iff_of_sameCore hsame.tangle.same).mpr hx] at hf
        cases hf
      · exact ih h₄ h hh tx hf hspends
    | some tx₀ =>
      rw [hx] at h₄
      obtain ⟨b, N₃, h₅, h₆⟩ := bind_eq_ok.mp h₄
      obtain ⟨t₃, ht₃, rfl⟩ := onTangle_eq_ok.mp h₅
      have hb := Tangle.wasTxSpentFrom_ok ht₃
      have hask := (keeps_collectFrame_onTangle
        (Tangle.keeps_wasTxSpentFrom sponge tx₀ x)).of_ok h₅
      cases b with
      | true =>
        rw [if_pos rfl] at h₆
        obtain ⟨_, N₄, h₇, h₈⟩ := bind_eq_ok.mp h₆
        rcases List.mem_cons.mp hh with rfl | hh
        · have hrest := (keeps_recordSpent sponge rest).of_ok h₈
          have hsame := hload.trans ((keeps_removeTip h _).trans (hask.trans
            (((keeps_storeSpentAddress tx₀.address).of_ok h₇).trans hrest)))
          -- the address that was stored is that of the transaction found in the end
          obtain ⟨tx', hf', hcore⟩ := Tangle.find?_some_of_sameCore hsame.tangle.same hx
          rw [hf] at hf'
          obtain rfl := Option.some.inj hf'
          obtain ⟨_, N₅, -, h₁₀⟩ := bind_eq_ok.mp h₇
          cases h₁₀
          have haddr : tx.address = tx₀.address := congrArg (fun tx => tx.address) hcore
          rw [haddr]
          exact hrest.spent _ (mem_hashSetAdd.mpr (.inr rfl))
        · exact ih h₈ h hh tx hf hspends
      | false =>
        rw [if_neg Bool.false_ne_true] at h₆
        rcases List.mem_cons.mp hh with rfl | hh
        · -- what spends now spent when it was asked for
          exfalso
          have hlater := hask.trans ((keeps_recordSpent sponge rest).of_ok h₆)
          have hsame := hload.trans ((keeps_removeTip h _).trans hlater)
          obtain ⟨tx', hf', hcore⟩ := Tangle.find?_some_of_sameCore hsame.tangle.same hx
          rw [hf] at hf'
          obtain rfl := Option.some.inj hf'
          exact Bool.false_ne_true (hb.mpr ((hspends.of_noNewValid hlater.tangle).of_core hcore))
        · exact ih h₆ h hh tx hf hspends

/-- A collection with nothing to wait for: the set is the pruning cone, no entry
point is in it, and what spends is recorded. -/
structure Collected (conf : Conf Hash) (sponge : Sponge Hash) (root : Hash) (N N' : Node Hash)
    (toPrune : List Hash) : Prop where
  mem_iff : ∀ x, x ∈ toPrune ↔ N.ledger.tangle.PruningCone conf.genesisHash
    (N.pruner.lastPrunedSnapshotIndex + 1) root x
  entryPoints : ∀ x ∈ toPrune, x ∉ N.pruner.solidEntryPoints
  recorded : ∀ x ∈ toPrune, ∀ tx, N'.ledger.tangle.transactions.find? x = some tx →
    Tangle.SpendsFrom sponge N'.ledger.tangle tx x → tx.address ∈ N'.spentAddresses

/-- **What a collection that does not fail returns.** -/
theorem collectOrFail_ok {root : Hash} {wait : Bool}
    (hr : collectOrFail conf sponge root N = .ok (toPrune, wait) N') :
    (wait = true ∧ ∃ x ∈ N.pruner.solidEntryPoints, N.ledger.tangle.PruningCone conf.genesisHash
        (N.pruner.lastPrunedSnapshotIndex + 1) root x) ∨
      (wait = false ∧ Collected conf sponge root N N' toPrune) := by
  rw [collectOrFail, gets_bind] at hr
  obtain ⟨⟨seen, _⟩, N₁, h₁, h₂⟩ := bind_eq_ok.mp hr
  obtain ⟨t₁, ht₁, rfl⟩ := onTangle_eq_ok.mp h₁
  obtain ⟨hs, hmem⟩ := Tangle.dfsToPast_collects (Nat.succ_pos _) ht₁
  dsimp only at h₂
  rw [gets_bind] at h₂
  split at h₂
  · rename_i hany
    cases h₂
    obtain ⟨x, hx, hsep⟩ := List.any_eq_true.mp hany
    exact .inl ⟨rfl, x, of_decide_eq_true hsep, (hmem x).mp hx⟩
  · rename_i hnone
    obtain ⟨_, N₂, h₃, h₄⟩ := bind_eq_ok.mp h₂
    cases h₄
    refine .inr ⟨rfl, hmem, fun x hx hsep => hnone ?_, recordSpent_ok h₃⟩
    exact List.any_eq_true.mpr ⟨x, hx, decide_eq_true hsep⟩

/-- The hash `prune_transactions` works on. -/
def nextHash (uninit : Uninit Hash) (N : Node Hash) : Hash :=
  ((N.ledger.tangle.milestones.find? (N.pruner.lastPrunedSnapshotIndex + 1)).map
    (·.milestone.hash)).getD uninit.hash

/-- The pruning cone of the next milestone. -/
def nextCone (conf : Conf Hash) (uninit : Uninit Hash) (N : Node Hash) : Hash → Prop :=
  N.ledger.tangle.PruningCone conf.genesisHash (N.pruner.lastPrunedSnapshotIndex + 1)
    (nextHash uninit N)

/-- A call fails while the next milestone is collected. -/
def Interrupted (conf : Conf Hash) (uninit : Uninit Hash) (sponge : Sponge Hash) (N : Node Hash) :
    Prop :=
  ∃ o N₀ e N₁, onTangle (Tangle.milestoneLoadByIndex (N.pruner.lastPrunedSnapshotIndex + 1)) N =
    .ok o N₀ ∧ collectOrFail conf sponge (nextHash uninit N) N₀ = .error e N₁

omit [DecidableEq Hash] in
/-- Loading the next milestone gives its hash, or leaves what the buffer held. -/
theorem nextHash_of_load (uninit : Uninit Hash) {o : Option (Milestone Hash)}
    (hr : onTangle (Tangle.milestoneLoadByIndex (N.pruner.lastPrunedSnapshotIndex + 1)) N =
      .ok o N') :
    (o.map (·.hash)).getD uninit.hash = nextHash uninit N ∧
      ∃ t, N' = N.withTangle t ∧ Tangle.SameTables N.ledger.tangle t := by
  obtain ⟨t, ht, rfl⟩ := onTangle_eq_ok.mp hr
  obtain ⟨rfl, hs⟩ := Tangle.milestoneLoadByIndex_ok ht
  refine ⟨?_, t, rfl, hs⟩
  rw [nextHash, Option.map_map]
  rfl

omit [DecidableEq Hash] in
theorem succeeds_of_load {o : Option (Milestone Hash)} {index : ℕ}
    (hr : onTangle (Tangle.milestoneLoadByIndex index) N = .ok o N') :
    N.ledger.tangle.succeeds .milestoneLoad = true := by
  obtain ⟨t, ht, -⟩ := onTangle_eq_ok.mp hr
  obtain ⟨_, t', ha, -⟩ := bind_eq_ok.mp ht
  rw [Tangle.attempt_eq] at ha
  split at ha
  · assumption
  · cases ha

theorem succeeds_of_interrupted (h : Interrupted conf uninit sponge N) :
    N.ledger.tangle.succeeds .milestoneLoad = true := by
  obtain ⟨o, N₀, e, N₁, hload, -⟩ := h
  exact succeeds_of_load hload

theorem succeeds_of_collectNext {r : Hash × List Hash × Bool}
    (hr : collectNext conf uninit sponge N = .ok r N') :
    N.ledger.tangle.succeeds .milestoneLoad = true := by
  rw [collectNext, gets_bind] at hr
  obtain ⟨o, N₀, hload, -⟩ := bind_eq_ok.mp hr
  exact succeeds_of_load hload

/-- **How the collection of the next milestone can end**: interrupted with an empty
set, waiting for the next snapshot, or with the pruning cone collected. -/
theorem collectNext_ok {wait : Bool}
    (hr : collectNext conf uninit sponge N = .ok (hash, toPrune, wait) N₁) :
    hash = nextHash uninit N ∧ CollectFrame sponge N N₁ ∧
      ((Interrupted conf uninit sponge N ∧ wait = false ∧ toPrune = []) ∨
       (¬ Interrupted conf uninit sponge N ∧
        ((wait = true ∧ ∃ x ∈ N.pruner.solidEntryPoints, nextCone conf uninit N x) ∨
         (wait = false ∧ Collected conf sponge hash N N₁ toPrune)))) := by
  rw [collectNext, gets_bind] at hr
  obtain ⟨o, N₀, h₁, h₂⟩ := bind_eq_ok.mp hr
  obtain ⟨hhash, t, rfl, hs⟩ := nextHash_of_load uninit h₁
  have hload := (keeps_collectFrame_read sponge (Tangle.keeps_read rfl _)).of_ok h₁
  rw [hhash, collectTransactionsToPrune] at h₂
  obtain ⟨⟨S, b⟩, N₂, h₃, h₄⟩ := bind_eq_ok.mp h₂
  cases h₄
  obtain ⟨r, N₃, h₅, h₆⟩ := bind_eq_ok.mp h₃
  rcases outcome_eq_ok.mp h₅ with ⟨⟨S', b'⟩, rfl, hc⟩ | ⟨e, rfl, hc⟩
  · cases h₆
    refine ⟨rfl, hload.trans ((keeps_collectOrFail conf sponge _).of_ok hc), .inr ⟨?_, ?_⟩⟩
    · rintro ⟨o', N₀', e, N₁', h₁', hc'⟩
      rw [h₁] at h₁'
      cases h₁'
      rw [hc] at hc'
      cases hc'
    · rcases collectOrFail_ok hc with ⟨rfl, x, hx, hcone⟩ | ⟨rfl, hcol⟩
      · exact .inl ⟨rfl, x, hx, (Tangle.pruningCone_of_sameTables hs).mp hcone⟩
      · refine .inr ⟨rfl, fun x => ?_, hcol.entryPoints, hcol.recorded⟩
        rw [hcol.mem_iff x]
        exact Tangle.pruningCone_of_sameTables hs
  · cases h₆
    exact ⟨rfl, hload.trans ((keeps_collectOrFail conf sponge _).of_error hc),
      .inl ⟨⟨o, _, e, _, h₁, hc⟩, rfl, rfl⟩⟩

/-- The collection of the next milestone fails only when the milestone cannot be
loaded. -/
theorem collectNext_error {e : Retcode} (hr : collectNext conf uninit sponge N = .error e N₁) :
    CollectFrame sponge N N₁ ∧ ¬ Interrupted conf uninit sponge N ∧
      N.ledger.tangle.succeeds .milestoneLoad = false := by
  rw [collectNext, gets_bind] at hr
  rcases bind_eq_error.mp hr with h₁ | ⟨o, N₀, -, h₂⟩
  · refine ⟨(keeps_collectFrame_read _ (Tangle.keeps_read rfl _)).of_error h₁, ?_, ?_⟩
    swap
    · obtain ⟨t, ht, -⟩ := onTangle_eq_error.mp h₁
      rcases bind_eq_error.mp ht with ha | ⟨_, t', -, hg⟩
      · rw [Tangle.attempt_eq] at ha
        split at ha
        · cases ha
        · rename_i hs
          exact Bool.eq_false_iff.mpr hs
      · cases hg
    rintro ⟨o, N₀, e', N₁', h₁', -⟩
    rw [h₁] at h₁'
    cases h₁'
  · exfalso
    rcases bind_eq_error.mp h₂ with h₃ | ⟨r, N₂, -, h₄⟩
    · rcases bind_eq_error.mp h₃ with h₅ | ⟨r, N₂, -, h₆⟩
      · exact outcome_ne_error h₅
      · cases r <;> cases h₆
    · cases h₄

/-! ## Only a failure interrupts -/

theorem succeeds_recordSpent (sponge : Sponge Hash) (hashes : List Hash) :
    Succeeds (fun N : Node Hash => N.ledger.tangle.Quiet) (recordSpent sponge hashes) := by
  have honTangle : ∀ {α : Type} {x : TangleM Hash α}, Succeeds Tangle.Quiet x →
      Succeeds (fun N : Node Hash => N.ledger.tangle.Quiet) (onTangle x) := fun hx =>
    Succeeds.zoom (Q := fun L : Ledger Hash => L.tangle.Quiet)
      (Succeeds.zoom hx (fun _ h => h) fun _ _ _ h => h) (fun _ h => h) fun _ _ _ h => h
  induction hashes with
  | nil => exact Succeeds.pure _
  | cons h rest ih =>
    refine Succeeds.bind (honTangle (Tangle.succeeds_read _ _)) fun o => ?_
    refine Succeeds.bind (Succeeds.update fun N hN => hN) fun _ => ?_
    cases o with
    | none => exact ih
    | some tx =>
      refine Succeeds.bind (honTangle (Tangle.succeeds_wasTxSpentFrom sponge tx h)) fun spent => ?_
      split
      · refine Succeeds.bind (Succeeds.bind (honTangle (Tangle.succeeds_attempt _)) fun _ => ?_)
          fun _ => ih
        exact Succeeds.update fun N hN => hN
      · exact ih

/-- **A collection is interrupted only by a call that fails.** -/
theorem not_interrupted_of_quiet (hq : N.ledger.tangle.Quiet) :
    ¬ Interrupted conf uninit sponge N := by
  rintro ⟨o, N₀, e, N₁, hload, hcol⟩
  obtain ⟨t, ht, rfl⟩ := onTangle_eq_ok.mp hload
  have hqt : t.Quiet := by
    obtain ⟨_, t', hrun, hq'⟩ := Tangle.succeeds_read .milestoneLoad
      (fun t => (t.milestones.find? (N.pruner.lastPrunedSnapshotIndex + 1)).map (·.milestone)) _ hq
    rw [Tangle.milestoneLoadByIndex, hrun] at ht
    cases ht
    exact hq'
  rw [collectOrFail, gets_bind] at hcol
  obtain ⟨seen, w, hwalk, hw⟩ := Walk.dfsToPast_returns (nextHash uninit N)
    conf.genesisHash [] (Tangle.visitor_collectForPruning
      (N.pruner.lastPrunedSnapshotIndex + 1)) (Tangle.answers_collectForPruning _)
    (Walk.ready_start hqt ()) rfl
  have hrun : onTangle (Walk.run () (Walk.dfsToPast (Tangle.collectForPruningFunc
      ((N.withTangle t).pruner.lastPrunedSnapshotIndex + 1)) (nextHash uninit N)
      conf.genesisHash []))
      (N.withTangle t) = .ok (seen, ()) ((N.withTangle t).withTangle w.tangle) :=
    onTangle_eq_ok.mpr ⟨_, Walk.run_eq_ok.mpr ⟨w, hwalk, rfl, rfl⟩, rfl⟩
  rw [bind_apply_ok hrun] at hcol
  dsimp only at hcol
  rw [gets_bind] at hcol
  split at hcol
  · cases hcol
  · rcases bind_eq_error.mp hcol with h₁ | ⟨_, N₂, -, h₂⟩
    · obtain ⟨_, _, hr, -⟩ := succeeds_recordSpent sponge
        (hashSetRemove seen conf.genesisHash) ((N.withTangle t).withTangle w.tangle) hw.quiet
      rw [hr] at h₁
      cases h₁
    · cases h₂

end Node

end Entangled
