import Entangled.TipSelection.Validator
import Mathlib.Algebra.Order.BigOperators.Group.List
import Mathlib.Tactic.Linarith
/-!
# Transition probabilities

What the two exit randomizers share: the result of the cumulative weights, the probabilities of
stepping from a transaction to each of its approvers (`global_calcs.c`), and the draw that picks one
of them.

Doubles are read as rationals, and the exponential is any function that is positive.
-/

namespace Entangled

variable {Hash : Type} [DecidableEq Hash]

/-- The codes of tip selection. Those of what it calls are handed on. -/
inductive TipRetcode
  | of (e : Retcode)
  | nullParam
  | exitProbabilitiesInvalidEntrypoint
  | exitProbabilitiesMissingRating
  | tipSelectorReferenceTooOld
  | tipSelectorTipsNotConsistent
  | cwFailedInDfsFromDb
  | cwFailedInLightDfs
  deriving DecidableEq, Repr

/-- `hash_to_indexed_hash_set_entry_t`. The approvers are a set. -/
structure IndexedHashSet (Hash : Type) where
  hash : Hash
  idx : ℕ
  approvers : List Hash
  nodup : approvers.Nodup
  deriving DecidableEq

namespace IndexedHashSet

/-- The entry of a hash, its approvers added one after the other. -/
def ofList (hash : Hash) (idx : ℕ) (approvers : List Hash) : IndexedHashSet Hash :=
  ⟨hash, idx, hashSetAppend [] approvers, nodup_hashSetAppend List.nodup_nil⟩

/-- `hash243_set_remove` on the approvers. -/
def remove (e : IndexedHashSet Hash) (h : Hash) : IndexedHashSet Hash :=
  { e with approvers := hashSetRemove e.approvers h, nodup := nodup_hashSetRemove e.nodup }

end IndexedHashSet

/-- `cw_calc_result`. -/
structure CwCalcResult (Hash : Type) where
  cwRatings : Table (fun r : Hash × ℤ => r.1)
  txToApprovers : Table (fun e : IndexedHashSet Hash => e.hash)

namespace CwCalcResult

/-- The rating of a transaction. -/
def rating (cw : CwCalcResult Hash) (h : Hash) : Option ℤ := (cw.cwRatings.find? h).map (·.2)

/-- The approver set of a transaction, empty where it has no entry. -/
def approversOf (cw : CwCalcResult Hash) (h : Hash) : List Hash :=
  ((cw.txToApprovers.find? h).map (·.approvers)).getD []

/-- `hash243_set_remove` on the approver set of `key`. -/
def removeApprover (cw : CwCalcResult Hash) (key h : Hash) : CwCalcResult Hash :=
  { cw with
    txToApprovers := cw.txToApprovers.update (fun e => if e.hash = key then e.remove h else e)
      fun e => by split <;> rfl }

variable {cw : CwCalcResult Hash} {key h x : Hash}

theorem approversOf_removeApprover :
    (cw.removeApprover key h).approversOf key = hashSetRemove (cw.approversOf key) h := by
  unfold approversOf removeApprover
  dsimp only
  rw [Table.find?_update]
  cases hf : cw.txToApprovers.find? key with
  | none => rfl
  | some e => simp [Table.key_of_find? hf, IndexedHashSet.remove]

theorem nodup_approversOf : (cw.approversOf x).Nodup := by
  unfold approversOf
  cases cw.txToApprovers.find? x with
  | none => exact List.nodup_nil
  | some e => exact e.nodup

end CwCalcResult

/-- The exponential as far as it matters here. -/
structure Exponential where
  exp : ℚ → ℚ
  pos : ∀ x, 0 < exp x

/-- What `rand_handle_probability` gives: `rand() / (RAND_MAX + 1)`. -/
abbrev Probability := { p : ℚ // 0 ≤ p ∧ p < 1 }

theorem probability_zero : (0 : ℚ) ≤ 0 ∧ (0 : ℚ) < 1 := ⟨le_refl 0, one_pos⟩

/-- The first item whose weight the target does not outlast. -/
def draw {κ : Type} : ℚ → List (κ × ℚ) → Option κ
  | _, [] => none
  | target, (k, w) :: rest => if target - w ≤ 0 then some k else draw (target - w) rest

/-- `map_transition_probabilities`, in the order of the approvers. -/
def mapTransitionProbabilities (E : Exponential) (alpha : ℚ) (cw : CwCalcResult Hash)
    (approvers : List Hash) : Except TipRetcode (List ℚ) :=
  match approvers.mapM cw.rating with
  | none => .error .exitProbabilitiesMissingRating
  | some ratings =>
    let maxWeight : ℤ := ratings.foldl max 0
    let weights := ratings.map fun r : ℤ => E.exp (((r - maxWeight : ℤ) : ℚ) * alpha)
    .ok (weights.map (· / weights.sum))

/-- `iota_consensus_is_tx_a_tip`, for a transaction with an entry. -/
def isTxATip (cw : CwCalcResult Hash) (tx : Hash) : Bool := decide (cw.approversOf tx = [])

/-! ## What is drawn -/

section

variable {κ : Type} {target : ℚ} {items : List (κ × ℚ)} {k : κ}

theorem draw_mem (h : draw target items = some k) : k ∈ items.map Prod.fst := by
  induction items generalizing target with
  | nil => cases h
  | cons item rest ih =>
    obtain ⟨k', w⟩ := item
    rw [draw] at h
    split at h
    · rw [Option.some.inj h]
      exact List.mem_cons_self
    · exact List.mem_cons_of_mem _ (ih h)

/-- A target within the sum of the weights is not outlasted by all of them. -/
theorem draw_isSome (hne : items ≠ []) (hsum : target ≤ (items.map Prod.snd).sum) :
    ∃ k, draw target items = some k := by
  induction items generalizing target with
  | nil => exact absurd rfl hne
  | cons item rest ih =>
    obtain ⟨k, w⟩ := item
    rw [draw]
    split
    · exact ⟨k, rfl⟩
    · rename_i hlt
      rw [List.map_cons, List.sum_cons] at hsum
      refine ih (fun he => ?_) (by linarith)
      subst he
      rw [List.map_nil, List.sum_nil] at hsum
      exact hlt (by linarith)

end

/-! ## The probabilities -/

variable {E : Exponential} {alpha : ℚ} {cw : CwCalcResult Hash} {approvers : List Hash}
  {probs : List ℚ}

theorem sum_map_div (c : ℚ) (l : List ℚ) : (l.map (· / c)).sum = l.sum / c := by
  induction l with
  | nil => simp
  | cons w l ih => rw [List.map_cons, List.sum_cons, List.sum_cons, ih, add_div]

theorem length_of_mapM {α β : Type} {f : α → Option β} {l : List α} {r : List β}
    (h : l.mapM f = some r) : r.length = l.length := by
  induction l generalizing r with
  | nil =>
    cases h
    rfl
  | cons a l ih =>
    rw [List.mapM_cons] at h
    obtain ⟨b, -, h⟩ := Option.bind_eq_some_iff.mp h
    obtain ⟨r', hr', h⟩ := Option.bind_eq_some_iff.mp h
    cases h
    rw [List.length_cons, List.length_cons, ih hr']

/-- **One probability for each approver, adding up to 1.** -/
theorem mapTransitionProbabilities_ok
    (h : mapTransitionProbabilities E alpha cw approvers = .ok probs) :
    probs.length = approvers.length ∧ (∀ q ∈ probs, 0 < q) ∧ (approvers ≠ [] → probs.sum = 1) := by
  unfold mapTransitionProbabilities at h
  cases hm : approvers.mapM cw.rating with
  | none =>
    rw [hm] at h
    cases h
  | some ratings =>
    rw [hm] at h
    have hlen := length_of_mapM hm
    obtain ⟨weights, hw⟩ : ∃ weights, weights = ratings.map fun r : ℤ =>
      E.exp (((r - ratings.foldl max 0 : ℤ) : ℚ) * alpha) := ⟨_, rfl⟩
    have hprobs : probs = weights.map (· / weights.sum) := by
      rw [hw]
      exact (Except.ok.inj h).symm
    have hpos : ∀ w ∈ weights, 0 < w := by
      intro w hmem
      rw [hw] at hmem
      obtain ⟨r, -, rfl⟩ := List.mem_map.mp hmem
      exact E.pos _
    -- every exponential is positive, so there is something to divide by
    have hsum : weights ≠ [] → 0 < weights.sum := fun hne => List.sum_pos weights hpos hne
    refine ⟨by rw [hprobs, hw, List.length_map, List.length_map, hlen], fun q hq => ?_,
      fun hne => ?_⟩
    · rw [hprobs] at hq
      obtain ⟨w, hmem, rfl⟩ := List.mem_map.mp hq
      exact div_pos (hpos w hmem) (hsum (List.ne_nil_of_mem hmem))
    · have hwne : weights ≠ [] := by
        intro he
        have hzero : ratings.length = 0 := by rw [← List.length_map, ← hw, he, List.length_nil]
        exact hne (List.length_eq_zero_iff.mp (by omega))
      rw [hprobs, sum_map_div]
      exact div_self (hsum hwne).ne'

/-- **A draw among approvers picks one of them.** -/
theorem draw_approver (hne : approvers ≠ [])
    (h : mapTransitionProbabilities E alpha cw approvers = .ok probs) (p : Probability) :
    ∃ a ∈ approvers, draw (p * probs.sum) (approvers.zip probs) = some a := by
  obtain ⟨hlen, -, hsum⟩ := mapTransitionProbabilities_ok h
  have hfst : (approvers.zip probs).map Prod.fst = approvers := List.map_fst_zip hlen.ge
  have hsnd : (approvers.zip probs).map Prod.snd = probs := List.map_snd_zip hlen.le
  have hitems : approvers.zip probs ≠ [] := by
    intro he
    rw [he, List.map_nil] at hfst
    exact hne hfst.symm
  -- the target is below the total, which the weights together come to
  have hle : p * probs.sum ≤ ((approvers.zip probs).map Prod.snd).sum := by
    rw [hsnd, hsum hne, mul_one]
    exact p.2.2.le
  obtain ⟨a, ha⟩ := draw_isSome hitems hle
  refine ⟨a, ?_, ha⟩
  have hmem := draw_mem ha
  rwa [hfst] at hmem

end Entangled
