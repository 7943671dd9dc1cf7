import Entangled.TipSelection.ExitMass
/-!
# Tips that are not valid

Before the exit probabilities are computed, the tips are judged, and those that are not valid are to
be left out. A tip is left out of a sub-tangle when no approver set names it. The code takes it out
of one set only, its own, which is empty.

`InvalidTipsOut` is what leaving them out comes to. `invalidTipsOut_iff` says when it holds: when
there are none.
-/

namespace Entangled

open Prog

variable {Hash σ : Type} [DecidableEq Hash]

theorem hash_foldl_remove (out : List Hash) (e : IndexedHashSet Hash) :
    (out.foldl IndexedHashSet.remove e).hash = e.hash := by
  induction out generalizing e with
  | nil => rfl
  | cons h out ih => exact ih (e.remove h)

/-- The sub-tangle without some of its transactions. -/
def CwCalcResult.without (cw : CwCalcResult Hash) (out : List Hash) : CwCalcResult Hash :=
  { cw with
    txToApprovers := (cw.txToApprovers.delete fun e => decide (e.hash ∈ out)).update
      (fun e => out.foldl IndexedHashSet.remove e) (hash_foldl_remove out) }

namespace ExitMap

variable (E : Exponential) (alpha : ℚ) (W : WalkWorld Hash σ)

/-- The tips that the validator does not accept, when it is asked about one after the other. -/
def rejectedTips : List Hash → σ → List Hash
  | [], _ => []
  | tip :: tips, w =>
    match W.isValid tip w with
    | .ok true w' => rejectedTips tips w'
    | .ok false w' => tip :: rejectedTips tips w'
    | .error _ _ => []

/-- The tips that `iota_consensus_exit_prob_map_calculate_probs` gets a rejection for, once it has
asked about the entry point. -/
def rejected (ep : Hash) (s : WalkState Hash σ) : List Hash :=
  match W.isValid ep s.world with
  | .ok _ w => rejectedTips W (extractTips s.cw) w
  | .error _ _ => []

/-- What the removal is for. The rejected tips have no weight and are not selected, and the weights
of the others are in the proportions of the sub-tangle without these. -/
structure InvalidTipsOut (before after : CwCalcResult Hash) (ep : Hash) (rejected : List Hash)
    (m : ProbMap Hash) : Prop where
  weight : ∀ t ∈ rejected, ¬0 < m.value t
  selected : ∀ p : Probability, ∀ t ∈ rejected, selectTip after m p ≠ .ok (some t)
  relative : ∀ t ∈ extractTips (before.without rejected),
    ∀ u ∈ extractTips (before.without rejected),
      m.value t * Paths.pathSum (before.without rejected).approversOf
          (transition E alpha (before.without rejected)) ep u =
        m.value u * Paths.pathSum (before.without rejected).approversOf
          (transition E alpha (before.without rejected)) ep t

variable {E alpha W} {cw : CwCalcResult Hash} {ep t : Hash} {m : ProbMap Hash}
  {s s' : WalkState Hash σ} {w : σ}

theorem without_nil : cw.without [] = cw := by
  have htable : (cw.without []).txToApprovers = cw.txToApprovers := by
    refine Table.ext ?_
    refine (List.map_id _).trans (List.filter_eq_self.mpr fun e _ => ?_)
    rfl
  unfold CwCalcResult.without at htable ⊢
  cases cw
  simp_all

omit [DecidableEq Hash] in
theorem mem_of_mem_rejectedTips {tips : List Hash} (h : t ∈ rejectedTips W tips w) : t ∈ tips := by
  induction tips generalizing w with
  | nil => cases h
  | cons tip tips ih =>
    rw [rejectedTips] at h
    split at h
    · exact List.mem_cons_of_mem _ (ih h)
    · rcases List.mem_cons.mp h with rfl | h
      · exact List.mem_cons_self
      · exact List.mem_cons_of_mem _ (ih h)
    · cases h

theorem mem_extractTips_of_mem_rejected (h : t ∈ rejected W ep s) : t ∈ extractTips s.cw := by
  unfold rejected at h
  split at h
  · exact mem_of_mem_rejectedTips h
  · cases h

/-- A tip that is reached has some weight, valid or not. -/
theorem Exits.pos (hd : ApproverDag cw ep) (hm : Exits E alpha cw ep m) (ht : t ∈ extractTips cw)
    (hreach : Relation.ReflTransGen (fun a b => b ∈ cw.approversOf a) ep t) : 0 < m.value t := by
  rw [hm.tip t ht]
  exact Paths.pathSum_pos (wellFounded_approvers hd) (fun _ => CwCalcResult.nodup_approversOf)
    (transition_pos hd) hreach

/-! ## What can be selected -/

/-- The entry behind a weight. -/
theorem find?_of_pos (h : 0 < m.value t) : (m.find? t).map (·.2) = some (m.value t) := by
  unfold ProbMap.value at h ⊢
  cases hf : m.find? t with
  | none =>
    rw [hf] at h
    exact absurd h (lt_irrefl 0)
  | some r => rfl

/-- A weight between the sum of those before a tip and that of those up to it selects the tip. -/
theorem selectLoop_append {before after : List Hash} {curr : Option ℚ} {v : ℚ}
    (hpos : ∀ x ∈ before ++ t :: after, 0 < m.value x) (hv : 0 < v) (hle : v ≤ m.value t) :
    selectLoop m curr ((before.map m.value).sum + v) (before ++ t :: after) = .ok (some t) := by
  induction before generalizing curr with
  | nil =>
    rw [List.nil_append, selectLoop, find?_of_pos (hpos t List.mem_cons_self), List.map_nil,
      List.sum_nil, zero_add]
    exact if_pos (by linarith)
  | cons x before ih =>
    have hrest : ∀ y ∈ before ++ t :: after, 0 < m.value y :=
      fun y hy => hpos y (List.mem_cons_of_mem _ hy)
    have hsum : 0 ≤ (before.map m.value).sum := by
      refine List.sum_nonneg fun q hq => ?_
      obtain ⟨y, hy, rfl⟩ := List.mem_map.mp hq
      exact (hrest y (List.mem_append_left _ hy)).le
    have hleft : m.value x + (before.map m.value).sum + v - m.value x =
        (before.map m.value).sum + v := by ring
    -- what is left of the weight after `x` is still positive, so `x` is passed by
    rw [List.cons_append, selectLoop, find?_of_pos (hpos x List.mem_cons_self), List.map_cons,
      List.sum_cons]
    refine (if_neg (by rw [hleft]; linarith)).trans ?_
    rw [hleft]
    exact ih hrest

/-- **Whatever has some weight can be selected.** -/
theorem exists_selectTip (hm : Exits E alpha cw ep m) (hpos : ∀ x ∈ extractTips cw, 0 < m.value x)
    (ht : t ∈ extractTips cw) : ∃ p : Probability, selectTip cw m p = .ok (some t) := by
  obtain ⟨before, after, htips⟩ := List.append_of_mem ht
  have hnonneg : ∀ l : List Hash, (∀ x ∈ l, x ∈ extractTips cw) → 0 ≤ (l.map m.value).sum := by
    intro l hl
    refine List.sum_nonneg fun q hq => ?_
    obtain ⟨y, hy, rfl⟩ := List.mem_map.mp hq
    exact (hpos y (hl y hy)).le
  have hbefore := hnonneg before fun x hx => by
    rw [htips]
    exact List.mem_append_left _ hx
  have hafter := hnonneg after fun x hx => by
    rw [htips]
    exact List.mem_append_right _ (List.mem_cons_of_mem _ hx)
  have htotal := hm.total
  rw [htips, List.map_append, List.sum_append, List.map_cons, List.sum_cons] at htotal
  -- half way through the weight of the tip
  have hval := hpos t ht
  refine ⟨⟨(before.map m.value).sum + m.value t / 2, by linarith, by linarith⟩, ?_⟩
  rw [selectTip, htips]
  exact selectLoop_append (fun x hx => hpos x (htips ▸ hx)) (by linarith) (by linarith)

theorem drawTip_eq_ok {tip : Option Hash} {probs probs' : ExitProbs Hash} :
    drawTip W probs s = .ok (tip, probs') s' ↔
      probs = probs' ∧ selectTip s.cw probs.exitProbs (W.probability s.world).1 = .ok tip ∧
        s' = { s with world := (W.probability s.world).2 } := by
  unfold drawTip
  cases selectTip s.cw probs.exitProbs (W.probability s.world).1 with
  | error e => simp
  | ok tip' =>
    simp only [EStateM.Result.ok.injEq, Prod.mk.injEq, Except.ok.injEq]
    constructor
    · rintro ⟨⟨htip, hprobs⟩, hs⟩
      exact ⟨hprobs, htip, hs.symm⟩
    · rintro ⟨hprobs, htip, hs⟩
      exact ⟨⟨htip, hprobs⟩, hs.symm⟩

/-- **What a call returns**: a tip selected by the maps that were there or have been computed. -/
theorem exitProbMapRandomize_eq_ok {rounds : ℕ} {left : Option (ExitProbs Hash)}
    {tip : Option Hash} {probs : ExitProbs Hash} :
    exitProbMapRandomize E alpha W rounds ep left s = .ok (tip, probs) s' ↔
      ∃ s₁, (left = some probs ∧ s₁ = s ∨
          left = none ∧ calculateProbs E alpha W rounds ep s = .ok probs s₁) ∧
        selectTip s₁.cw probs.exitProbs (W.probability s₁.world).1 = .ok tip ∧
        s' = { s₁ with world := (W.probability s₁.world).2 } := by
  cases left with
  | some m =>
    constructor
    · intro h
      obtain ⟨m', s₁, hm, hdraw⟩ := bind_eq_ok.mp h
      cases hm
      obtain ⟨rfl, hsel⟩ := drawTip_eq_ok.mp hdraw
      exact ⟨s, .inl ⟨rfl, rfl⟩, hsel⟩
    · rintro ⟨s₁, (⟨hm, rfl⟩ | ⟨hm, -⟩), hsel⟩
      · cases hm
        exact bind_eq_ok.mpr ⟨_, s₁, rfl, drawTip_eq_ok.mpr ⟨rfl, hsel⟩⟩
      · cases hm
  | none =>
    constructor
    · intro h
      obtain ⟨m, s₁, hm, hdraw⟩ := bind_eq_ok.mp h
      obtain ⟨rfl, hsel⟩ := drawTip_eq_ok.mp hdraw
      exact ⟨s₁, .inr ⟨rfl, hm⟩, hsel⟩
    · rintro ⟨s₁, (⟨hm, -⟩ | ⟨-, hm⟩), hsel⟩
      · cases hm
      · exact bind_eq_ok.mpr ⟨probs, s₁, hm, drawTip_eq_ok.mpr ⟨rfl, hsel⟩⟩

/-! ## When the invalid tips are out -/

/-- **A rejected tip has some weight, and can be selected.** -/
theorem rejected_selected {rounds : ℕ} {probs : ExitProbs Hash} (hd : ApproverDag s.cw ep)
    (hreach : ∀ x ∈ s.cw.txToApprovers.keys,
      Relation.ReflTransGen (fun a b => b ∈ s.cw.approversOf a) ep x)
    (h : calculateProbs E alpha W rounds ep s = .ok probs s')
    (ht : t ∈ rejected W ep s) :
    0 < probs.exitProbs.value t ∧
      ∃ p : Probability, selectTip s'.cw probs.exitProbs p = .ok (some t) := by
  obtain ⟨hexits, hcw⟩ := calculateProbs_exits hd h
  have hpos : ∀ x ∈ extractTips s.cw, 0 < probs.exitProbs.value x := fun x hx =>
    hexits.pos hd hx (hreach x (mem_extractTips.mp hx).1)
  have htip := mem_extractTips_of_mem_rejected ht
  refine ⟨hpos t htip, ?_⟩
  rw [hcw]
  exact exists_selectTip hexits hpos htip

/-- **When invalid tips are out**: the validator rejects none. -/
theorem invalidTipsOut_iff {rounds : ℕ} {probs : ExitProbs Hash} (hd : ApproverDag s.cw ep)
    (hreach : ∀ x ∈ s.cw.txToApprovers.keys,
      Relation.ReflTransGen (fun a b => b ∈ s.cw.approversOf a) ep x)
    (h : calculateProbs E alpha W rounds ep s = .ok probs s') :
    InvalidTipsOut E alpha s.cw s'.cw ep (rejected W ep s) probs.exitProbs ↔
      rejected W ep s = [] := by
  constructor
  · intro hout
    by_contra hne
    -- a rejected tip keeps its weight
    obtain ⟨t, ht⟩ := List.exists_mem_of_ne_nil _ hne
    exact hout.weight t ht (rejected_selected hd hreach h ht).1
  · intro hnil
    obtain ⟨hexits, -⟩ := calculateProbs_exits hd h
    rw [hnil]
    refine ⟨fun t ht => ?_, fun p t ht => ?_, fun t ht u hu => ?_⟩
    · cases ht
    · cases ht
    · rw [without_nil] at ht hu ⊢
      rw [hexits.tip t ht, hexits.tip u hu, mul_comm]

/-! ## A tip that is not solid -/

theorem nodup_unsolidTip : ([plainTx 1 0 0 10 0 0 0, plainTx 2 1 1 10 0 0 0,
    { plainTx 3 1 1 10 0 0 0 with solid := false }].map (·.hash)).Nodup := by decide

/-- Two tips over the entry point 1, of which 3 is not solid. -/
def unsolidTip : Tangle (Fin 256) where
  transactions := ⟨[plainTx 1 0 0 10 0 0 0, plainTx 2 1 1 10 0 0 0,
    { plainTx 3 1 1 10 0 0 0 with solid := false }], nodup_unsolidTip⟩
  milestones := ⟨Table.empty, nodup_noHash⟩
  faults := fun _ => []

theorem nodup_unsolidRatings :
    ([((1 : Fin 256), (3 : ℤ)), (2, 1), (3, 1)].map fun r => r.1).Nodup := by decide

theorem nodup_unsolidApprovers :
    ([.ofList 1 0 [2, 3], .ofList 2 1 [], .ofList 3 2 []].map
      fun e : IndexedHashSet (Fin 256) => e.hash).Nodup := by decide

/-- The ratings and approvers of these. -/
def unsolidState : WalkState (Fin 256) (ExitProbValidator (Fin 256) × Unit) where
  world := (ExitProbValidator.freshValidator unsolidTip, ())
  cw := ⟨⟨[(1, 3), (2, 1), (3, 1)], nodup_unsolidRatings⟩,
    ⟨[.ofList 1 0 [2, 3], .ofList 2 1 [], .ofList 3 2 []], nodup_unsolidApprovers⟩⟩

theorem three_quarters : (0 : ℚ) ≤ 3 / 4 ∧ (3 / 4 : ℚ) < 1 := by norm_num

/-- The world of a node in which the random weight is 3/4. -/
def unsolidNode : WalkWorld (Fin 256) (ExitProbValidator (Fin 256) × Unit) :=
  node ExitProbValidator.plainTipConf plainSponge Ledger.quietLedger.initial
    Ledger.quietLedger.latest 1 fun u => (⟨3 / 4, three_quarters⟩, u)

theorem approverDag_unsolid : ApproverDag unsolidState.cw 1 :=
  approverDag_of_rank Fin.val (by decide) (by decide +kernel)

theorem reached_unsolid : ∀ x ∈ unsolidState.cw.txToApprovers.keys,
    Relation.ReflTransGen (fun a b => b ∈ unsolidState.cw.approversOf a) 1 x := by
  have hcases : ∀ x ∈ unsolidState.cw.txToApprovers.keys,
      x = 1 ∨ x ∈ unsolidState.cw.approversOf 1 := by decide +kernel
  intro x hx
  rcases hcases x hx with rfl | ha
  · exact .refl
  · exact .single ha

theorem rejected_unsolid : rejected unsolidNode 1 unsolidState = [3] := by decide +kernel

theorem calculateProbs_unsolid : ∃ probs s',
    calculateProbs WalkWorld.flatExponential (1 / 1000) unsolidNode 9 1 unsolidState =
      .ok probs s' ∧
    probs.exitProbs.value 3 = 1 / 2 ∧ selectTip s'.cw probs.exitProbs (3 / 4) = .ok (some 3) := by
  have hrun : returns (calculateProbs WalkWorld.flatExponential (1 / 1000) unsolidNode 9 1)
      unsolidState (fun probs s' => decide (probs.exitProbs.value 3 = 1 / 2) &&
        match selectTip s'.cw probs.exitProbs (3 / 4) with
        | .ok tip => decide (tip = some 3)
        | .error _ => false) = true := by decide +kernel
  obtain ⟨probs, s', hx, hcheck⟩ := of_returns hrun
  rw [Bool.and_eq_true, decide_eq_true_eq] at hcheck
  refine ⟨probs, s', hx, hcheck.1, ?_⟩
  cases hsel : selectTip s'.cw probs.exitProbs (3 / 4) with
  | error e =>
    rw [hsel] at hcheck
    cases hcheck.2
  | ok tip =>
    rw [hsel] at hcheck
    rw [of_decide_eq_true hcheck.2]

/-- The criterion on these tips. -/
theorem invalidTipsOut_unsolid : ∃ probs s',
    calculateProbs WalkWorld.flatExponential (1 / 1000) unsolidNode 9 1 unsolidState =
      .ok probs s' ∧
    (InvalidTipsOut WalkWorld.flatExponential (1 / 1000) unsolidState.cw s'.cw 1
        (rejected unsolidNode 1 unsolidState) probs.exitProbs ↔
      rejected unsolidNode 1 unsolidState = []) := by
  obtain ⟨probs, s', hrun, -⟩ := calculateProbs_unsolid
  exact ⟨probs, s', hrun, invalidTipsOut_iff approverDag_unsolid reached_unsolid hrun⟩

/-- **An invalid tip is selected as often as a valid one.** The tip 3 is rejected, keeps half of the
weight, and is returned for a random weight of 3/4. -/
theorem unsolidTip_selected : ∃ probs s',
    calculateProbs WalkWorld.flatExponential (1 / 1000) unsolidNode 9 1 unsolidState =
      .ok probs s' ∧
    rejected unsolidNode 1 unsolidState = [3] ∧ probs.exitProbs.value 3 = 1 / 2 ∧
    (∃ s'', exitProbMapRandomize WalkWorld.flatExponential (1 / 1000) unsolidNode 9 1 none
      unsolidState = .ok (some 3, probs) s'') ∧
    ¬InvalidTipsOut WalkWorld.flatExponential (1 / 1000) unsolidState.cw s'.cw 1
      (rejected unsolidNode 1 unsolidState) probs.exitProbs := by
  obtain ⟨probs, s', hrun, hvalue, hselect⟩ := calculateProbs_unsolid
  have hreturn := exitProbMapRandomize_eq_ok.mpr ⟨s', .inr ⟨rfl, hrun⟩, hselect, rfl⟩
  refine ⟨probs, s', hrun, rejected_unsolid, hvalue, ⟨_, hreturn⟩, fun hout => ?_⟩
  have hmem : (3 : Fin 256) ∈ rejected unsolidNode 1 unsolidState := by
    rw [rejected_unsolid]
    exact List.mem_singleton.mpr rfl
  refine hout.weight 3 hmem ?_
  rw [hvalue]
  norm_num

end ExitMap

end Entangled
