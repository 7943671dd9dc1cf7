import Entangled.Common.Paths
import Entangled.TipSelection.Walker
import Mathlib.Algebra.BigOperators.Finprod
import Mathlib.Order.WellFoundedSet
/-!
# The exit probability map

`exit_prob_map.c`: the probability 1 of the entry point is handed on from approvee to approvers
along a queue, each time in the proportions of the transition probabilities, until all of it lies on
tips. A transaction is queued again whenever something was handed to it, however little.

Doubles are read as rationals.
-/

namespace Entangled

open Prog

variable {Hash σ : Type} [DecidableEq Hash]

/-- `hash_to_double_map_t`. -/
abbrev ProbMap (Hash : Type) [DecidableEq Hash] := Table fun r : Hash × ℚ => r.1

/-- The two maps of `ep_prob_map_randomizer_t`. -/
structure ExitProbs (Hash : Type) [DecidableEq Hash] where
  exitProbs : ProbMap Hash
  transitionProbs : ProbMap Hash

namespace ProbMap

/-- The value of a hash, 0 where it has no entry. -/
def value (m : ProbMap Hash) (h : Hash) : ℚ := ((m.find? h).map (·.2)).getD 0

/-- `iota_consensus_exit_prob_map_add_exit_probs`. -/
def addExitProbs (m : ProbMap Hash) (h : Hash) (v : ℚ) : ProbMap Hash :=
  if h ∈ m.keys then
    m.update (fun r => if r.1 = h then (r.1, r.2 + v) else r) fun r => by split <;> rfl
  else m.insert (h, v)

/-- Set the value of an entry to 0. -/
def clear (m : ProbMap Hash) (h : Hash) : ProbMap Hash :=
  m.update (fun r => if r.1 = h then (r.1, 0) else r) fun r => by split <;> rfl

/-- `iota_consensus_exit_prob_map_sum_probs`. -/
def sumProbs (m : ProbMap Hash) : ℚ := (m.keys.map m.value).sum

/-- The values of a map, each weighted by a function of its hash. -/
def weighted (m : ProbMap Hash) (h : Hash → ℚ) : ℚ := (m.rows.map fun r => r.2 * h r.1).sum

end ProbMap

/-- `iota_consensus_exit_prob_map_eps_extract_tips`. -/
def extractTips (cw : CwCalcResult Hash) : List Hash :=
  cw.txToApprovers.keys.filter fun h => isTxATip cw h

namespace ExitMap

variable (E : Exponential) (alpha : ℚ) (W : WalkWorld Hash σ)

/-- The loop of `iota_consensus_exit_prob_remove_invalid_tip_candidates`. A tip that is not valid is
taken out of its own approver set. -/
def removeInvalidLoop : List Hash → RandomWalkM Hash σ Unit
  | [] => pure ()
  | tip :: tips => do
    let hasValidTail ← WalkWorld.onWorld (W.isValid tip)
    if hasValidTail then removeInvalidLoop tips
    else do
      update fun s => { s with cw := s.cw.removeApprover tip tip }
      removeInvalidLoop tips

/-- `iota_consensus_exit_prob_remove_invalid_tip_candidates`. -/
def removeInvalidTipCandidates : RandomWalkM Hash σ Unit := do
  let s ← gets id
  removeInvalidLoop W (extractTips s.cw)

/-- Hand on to one approver. The value is read from the map each time. -/
def handOn (curr : Hash) (s : ExitProbs Hash) (r : Hash × ℚ) : ExitProbs Hash :=
  let exitProbs := s.exitProbs.addExitProbs r.1 (r.2 * s.exitProbs.value curr)
  ⟨exitProbs, s.transitionProbs.addExitProbs r.1 (r.2 * exitProbs.value curr)⟩

/-- One turn of the loop of `iota_consensus_exit_prob_map_calculate_probs`. Without ratings the
probabilities are what the memory held, and without an entry the approvers are those of another
transaction or of none. -/
def probTurn (cw : CwCalcResult Hash) (queue : List Hash) :
    EStateM TipRetcode (ExitProbs Hash) (Loop.Turn (List Hash) Unit) :=
  match queue with
  | [] => pure (.done ())
  | curr :: rest =>
    if curr ∈ cw.txToApprovers.keys then
      match mapTransitionProbabilities E alpha cw (cw.approversOf curr) with
      | .error _ => fail (.of .undefinedRead)
      | .ok probs => do
        update fun s => ((cw.approversOf curr).zip probs).foldl (handOn curr) s
        update fun s =>
          if isTxATip cw curr then s else { s with exitProbs := s.exitProbs.clear curr }
        pure (.again (rest ++ cw.approversOf curr))
    else fail (.of .undefinedRead)

/-- The maps before the loop. -/
def startProbs (ep : Hash) : ExitProbs Hash := ⟨Table.empty.insert (ep, 1), Table.empty.insert (ep, 1)⟩

/-- `iota_consensus_exit_prob_map_calculate_probs`. -/
def calculateProbs (rounds : ℕ) (ep : Hash) : RandomWalkM Hash σ (ExitProbs Hash) := do
  let epIsValid ← WalkWorld.onWorld (W.isValid ep)
  if epIsValid then do
    removeInvalidTipCandidates W
    fun s =>
      match Loop.run (probTurn E alpha s.cw) (.of .outOfRounds) rounds [ep] (startProbs ep) with
      | .ok _ probs => .ok probs s
      | .error e _ => .error e s
  else fail .exitProbabilitiesInvalidEntrypoint

/-- The loop of `iota_consensus_exit_prob_map_randomize`. `curr_ep` stays where it was for a tip
without an entry. -/
def selectLoop (exitProbs : ProbMap Hash) : Option ℚ → ℚ → List Hash → Except TipRetcode (Option Hash)
  | _, _, [] => .ok none
  | currEp, randWeight, tip :: tips =>
    match (exitProbs.find? tip).map (·.2) <|> currEp with
    | none => .error (.of .undefinedRead)
    | some v =>
      if randWeight - v ≤ 0 then .ok (some tip)
      else selectLoop exitProbs (some v) (randWeight - v) tips

/-- What `iota_consensus_exit_prob_map_randomize` returns for a random weight. -/
def selectTip (cw : CwCalcResult Hash) (exitProbs : ProbMap Hash) (randWeight : ℚ) :
    Except TipRetcode (Option Hash) :=
  selectLoop exitProbs none randWeight (extractTips cw)

/-- The draw of `iota_consensus_exit_prob_map_randomize`. -/
def drawTip (probs : ExitProbs Hash) : RandomWalkM Hash σ (Option Hash × ExitProbs Hash) := fun s =>
  match selectTip s.cw probs.exitProbs (W.probability s.world).1 with
  | .ok tip => .ok (tip, probs) { s with world := (W.probability s.world).2 }
  | .error e => .error e { s with world := (W.probability s.world).2 }

/-- `iota_consensus_exit_prob_map_randomize`, with the maps that an earlier call has left. -/
def exitProbMapRandomize (rounds : ℕ) (ep : Hash) (left : Option (ExitProbs Hash)) :
    RandomWalkM Hash σ (Option Hash × ExitProbs Hash) := do
  let probs ← match left with
    | some probs => pure probs
    | none => calculateProbs E alpha W rounds ep
  drawTip W probs

end ExitMap

/-! ## Maps of probabilities -/

namespace ProbMap

variable {m : ProbMap Hash} {a k : Hash} {v : ℚ} {h : Hash → ℚ}

theorem value_of_not_mem (hk : k ∉ m.keys) : m.value k = 0 := by
  rw [value, Table.find?_eq_none_iff.mpr hk]
  rfl

theorem value_addExitProbs :
    (m.addExitProbs a v).value k = m.value k + if k = a then v else 0 := by
  unfold addExitProbs
  by_cases ha : a ∈ m.keys
  · rw [if_pos ha, value, Table.find?_update, value]
    cases hf : m.find? k with
    | none =>
      have hne : k ≠ a := fun he => Table.find?_eq_none_iff.mp hf (he ▸ ha)
      simp [hne]
    | some r =>
      have hr : r.1 = k := Table.key_of_find? hf
      by_cases hka : k = a
      · simp [hr, hka]
      · simp [hr, hka]
  · rw [if_neg ha, value, Table.find?_insert ha]
    by_cases hka : k = a
    · subst hka
      rw [if_pos rfl, if_pos rfl, value_of_not_mem ha, zero_add]
      rfl
    · rw [if_neg fun he => hka he.symm, if_neg hka, add_zero, value]

theorem value_clear : (m.clear a).value k = if k = a then 0 else m.value k := by
  rw [value, clear, Table.find?_update, value]
  cases hf : m.find? k with
  | none => simp
  | some r =>
    have hr : r.1 = k := Table.key_of_find? hf
    by_cases hka : k = a
    · simp [hr, hka]
    · simp [hr, hka]

theorem mem_keys_addExitProbs : k ∈ (m.addExitProbs a v).keys ↔ k ∈ m.keys ∨ k = a := by
  unfold addExitProbs
  by_cases ha : a ∈ m.keys
  · rw [if_pos ha, Table.keys_update]
    exact ⟨.inl, fun hk => hk.elim id fun he => he ▸ ha⟩
  · rw [if_neg ha, Table.mem_keys_insert]

theorem keys_clear : (m.clear a).keys = m.keys := Table.keys_update

theorem weighted_eq_finsum (m : ProbMap Hash) (h : Hash → ℚ) :
    m.weighted h = ∑ᶠ k, m.value k * h k := by
  rw [weighted, Table.sum_rows_eq_finsum]
  refine finsum_congr fun k => ?_
  rw [value]
  cases hf : m.find? k with
  | none => simp
  | some r => simp [show r.1 = k from Table.key_of_find? hf]

theorem finite_support (m : ProbMap Hash) (h : Hash → ℚ) :
    (Function.support fun k => m.value k * h k).Finite := by
  refine (List.finite_toSet m.keys).subset fun k hk => ?_
  by_contra hn
  refine hk ?_
  dsimp only
  rw [value_of_not_mem hn, zero_mul]

/-- What is added at one hash. -/
theorem finite_support_ite (a : Hash) (v : ℚ) (h : Hash → ℚ) :
    (Function.support fun k => (if k = a then v else 0) * h k).Finite := by
  refine (Set.finite_singleton a).subset fun k hk => ?_
  by_contra hn
  refine hk ?_
  dsimp only
  rw [if_neg fun he : k = a => hn he, zero_mul]

theorem finsum_ite (a : Hash) (v : ℚ) (h : Hash → ℚ) :
    (∑ᶠ k, (if k = a then v else 0) * h k) = v * h a := by
  rw [finsum_eq_single _ a fun k hk => by rw [if_neg hk, zero_mul], if_pos rfl]

theorem weighted_addExitProbs (m : ProbMap Hash) (a : Hash) (v : ℚ) (h : Hash → ℚ) :
    (m.addExitProbs a v).weighted h = m.weighted h + v * h a := by
  have hfun : (fun k => (m.addExitProbs a v).value k * h k) =
      fun k => m.value k * h k + (if k = a then v else 0) * h k :=
    funext fun k => by rw [value_addExitProbs, add_mul]
  rw [weighted_eq_finsum, hfun, finsum_add_distrib (finite_support m h)
    (finite_support_ite a v h), finsum_ite, ← weighted_eq_finsum]

theorem weighted_clear (m : ProbMap Hash) (a : Hash) (h : Hash → ℚ) :
    (m.clear a).weighted h = m.weighted h - m.value a * h a := by
  have hfun : (fun k => (m.clear a).value k * h k) =
      fun k => m.value k * h k + (if k = a then -m.value a else 0) * h k := by
    funext k
    rw [value_clear]
    by_cases hk : k = a
    · rw [if_pos hk, if_pos hk, hk]
      ring
    · rw [if_neg hk, if_neg hk, zero_mul, add_zero]
  rw [weighted_eq_finsum, hfun, finsum_add_distrib (finite_support m h)
    (finite_support_ite a _ h), finsum_ite, ← weighted_eq_finsum]
  ring

theorem sumProbs_eq (m : ProbMap Hash) : m.sumProbs = m.weighted fun _ => 1 := by
  rw [sumProbs, weighted, Table.keys, List.map_map]
  congr 1
  refine List.map_congr_left fun r hr => ?_
  rw [Function.comp_apply, value, Table.find?_key hr, mul_one]
  rfl

end ProbMap

/-! ## Handing on -/

namespace ExitMap

variable {curr k : Hash} {s : ExitProbs Hash} {items : List (Hash × ℚ)}

/-- What a transaction hands on to others leaves its own value alone, so that each of them gets its
share of the same value. -/
theorem foldl_handOn (hcurr : curr ∉ items.map Prod.fst) :
    (∀ h, (items.foldl (handOn curr) s).exitProbs.weighted h =
      s.exitProbs.weighted h + s.exitProbs.value curr * (items.map fun r => r.2 * h r.1).sum) ∧
    (∀ k, k ∉ items.map Prod.fst →
      (items.foldl (handOn curr) s).exitProbs.value k = s.exitProbs.value k) ∧
    ∀ k, k ∈ (items.foldl (handOn curr) s).exitProbs.keys ↔
      k ∈ s.exitProbs.keys ∨ k ∈ items.map Prod.fst := by
  induction items generalizing s with
  | nil => simp
  | cons r items ih =>
    rw [List.map_cons, List.mem_cons, not_or] at hcurr
    -- the approver is another transaction, so the value handed on is still that of before
    obtain ⟨hweighted, hvalue, hkeys⟩ := ih (s := handOn curr s r) hcurr.2
    have hother : ∀ k, k ≠ r.1 →
        (handOn curr s r).exitProbs.value k = s.exitProbs.value k := fun k hk => by
      rw [handOn, ProbMap.value_addExitProbs, if_neg hk, add_zero]
    refine ⟨fun h => ?_, fun k hk => ?_, fun k => ?_⟩
    · rw [List.foldl_cons, hweighted, hother curr hcurr.1, handOn,
        ProbMap.weighted_addExitProbs, List.map_cons, List.sum_cons]
      ring
    · rw [List.map_cons, List.mem_cons, not_or] at hk
      rw [List.foldl_cons, hvalue k hk.2, hother k hk.1]
    · rw [List.foldl_cons, hkeys, handOn, ProbMap.mem_keys_addExitProbs, List.map_cons,
        List.mem_cons, or_assoc]

/-! ## The removal -/

variable {W : WalkWorld Hash σ} {cw : CwCalcResult Hash} {s s' : WalkState Hash σ}

/-- A tip has nothing in its approver set to take out. -/
theorem removeApprover_of_tip (h : cw.approversOf k = []) : cw.removeApprover k k = cw := by
  have hrows : (cw.removeApprover k k).txToApprovers = cw.txToApprovers := by
    refine Table.ext ?_
    refine (List.map_congr_left fun e he => ?_).trans (List.map_id _)
    -- the entry of the tip holds no approvers, and no other entry is touched
    by_cases hk : e.hash = k
    · have hnil : e.approvers = [] := by
        have hfind : cw.txToApprovers.find? k = some e := hk ▸ Table.find?_key he
        rw [CwCalcResult.approversOf, hfind] at h
        exact h
      obtain ⟨hash, idx, approvers, hnodup⟩ := e
      obtain rfl : approvers = [] := hnil
      rw [if_pos hk]
      rfl
    · rw [if_neg hk]
      rfl
  rw [CwCalcResult.removeApprover] at hrows ⊢
  cases cw
  simp_all

/-- **Removing the invalid tips removes nothing.** -/
theorem removeInvalidLoop_cw {tips : List Hash} (htips : ∀ t ∈ tips, s.cw.approversOf t = [])
    (h : removeInvalidLoop W tips s = .ok () s') : s'.cw = s.cw := by
  induction tips generalizing s with
  | nil =>
    cases h
    rfl
  | cons tip tips ih =>
    rw [removeInvalidLoop] at h
    obtain ⟨b, s₁, hvalid, hrest⟩ := bind_eq_ok.mp h
    obtain ⟨w, -, rfl⟩ := zoom_eq_ok.mp hvalid
    have hrec : ∀ t ∈ tips, s.cw.approversOf t = [] := fun t ht => htips t (List.mem_cons_of_mem _ ht)
    cases b with
    | true => exact ih (s := { s with world := w }) hrec hrest
    | false =>
      have hsame : s.cw.removeApprover tip tip = s.cw :=
        removeApprover_of_tip (htips tip List.mem_cons_self)
      have hrest' : removeInvalidLoop W tips { s with world := w } = .ok () s' := by
        rw [if_neg Bool.false_ne_true, update_bind] at hrest
        dsimp only at hrest
        rwa [hsame] at hrest
      exact ih (s := { s with world := w }) hrec hrest'

theorem mem_extractTips : k ∈ extractTips cw ↔ k ∈ cw.txToApprovers.keys ∧ cw.approversOf k = [] := by
  rw [extractTips, List.mem_filter, isTxATip, decide_eq_true_iff]

theorem removeInvalidTipCandidates_cw (h : removeInvalidTipCandidates W s = .ok () s') :
    s'.cw = s.cw :=
  removeInvalidLoop_cw (fun _ ht => (mem_extractTips.mp ht).2) h

end ExitMap

end Entangled
