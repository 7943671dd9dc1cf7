import Entangled.Tangle.Store
/-!
# Bundles

Loading a bundle from its tail along the trunk, validating it, and the
validator that caches the outcome in the `validity` column. The hash of a
bundle and the address a signature belongs to come from the sponge, which is
taken as given.

Every reader below depends on the store only up to validity. What a validator
reports does depend on the cache, and the last section says that reporting one
bundle valid does not make another one valid.
-/

namespace Entangled

open Prog

variable {Hash : Type} [DecidableEq Hash] [HashBytes Hash]

/-- The part of a transaction that the hash of its bundle absorbs. -/
structure Essence (Hash : Type) where
  address : Hash
  value : Int64
  obsoleteTag : List Int8
  timestamp : UInt64
  currentIndex : ℕ
  lastIndex : ℕ

/-- What the validator computes with the sponge: the hash of the essences of a
bundle, the address that a bundle hash and signature fragments digest to, and
the last trit of an address. -/
structure Sponge (Hash : Type) where
  bundleHash : List (Essence Hash) → Hash
  signatureAddress : Hash → List (List Int8) → Hash
  lastTrit : Hash → Int8

/-- The essence of a transaction. -/
def Transaction.essence (tx : Transaction Hash) : Essence Hash :=
  ⟨tx.address, tx.value, tx.obsoleteTag, tx.timestamp, tx.currentIndex, tx.lastIndex⟩

/-- `llabs`, which has no value to give for the least word and returns it. -/
def llabs (v : Int64) : Int64 := if v < 0 then -v else v

/-- `MAX_IOTA_SUPPLY`. -/
def maxIotaSupply : Int64 := 2779530283277761

/-- `validate_signatures`. The fragments that follow an input have value zero,
so the loop passes over them when it comes to them. -/
def validateSignatures (sponge : Sponge Hash) (bundleHash : Hash) :
    List (Transaction Hash) → Bool
  | [] => true
  | tx :: rest =>
    if 0 ≤ tx.value then validateSignatures sponge bundleHash rest
    else
      let fragments := rest.takeWhile fun t => decide (t.address = tx.address ∧ t.value = 0)
      if sponge.signatureAddress bundleHash ((tx :: fragments).map (·.signature)) ≠ tx.address
      then false
      else validateSignatures sponge bundleHash rest

/-- The loop of `bundle_validate` over the transactions still to check, at
position `i` with the value so far. -/
def bundleValidateLoop (sponge : Sponge Hash) (bundle : List (Transaction Hash))
    (bundleHash : Hash) (lastIndex : ℕ) :
    List (Transaction Hash) → ℕ → Int64 → BundleStatus → BundleStatus
  | [], _, _, status => status
  | tx :: rest, i, bundleValue, _ =>
    if maxIotaSupply < llabs tx.value then .invalidValue
    else if maxIotaSupply < llabs (bundleValue + tx.value) then .invalidValue
    else if tx.currentIndex ≠ i ∨ tx.lastIndex ≠ lastIndex then .invalidTx
    else if tx.value ≠ 0 ∧ sponge.lastTrit tx.address ≠ 0 then .invalidInputAddress
    else if tx.currentIndex = lastIndex then
      if bundleValue + tx.value ≠ 0 then .invalidValue
      else if bundleHash ≠ sponge.bundleHash (bundle.map (·.essence)) then .invalidHash
      else if validateSignatures sponge bundleHash bundle = false then .invalidSignature
      else bundleValidateLoop sponge bundle bundleHash lastIndex rest (i + 1)
        (bundleValue + tx.value) .valid
    else bundleValidateLoop sponge bundle bundleHash lastIndex rest (i + 1)
      (bundleValue + tx.value) .valid

/-- `bundle_validate`, of a bundle that is not empty. -/
def bundleValidate (sponge : Sponge Hash) (bundle : List (Transaction Hash)) : BundleStatus :=
  match bundle with
  | [] => .notInitialized
  | tx :: _ =>
    if bundle.length ≠ tx.lastIndex + 1 then .incomplete
    else bundleValidateLoop sponge bundle tx.bundle tx.lastIndex bundle 0 0 .notInitialized

namespace Tangle

/-- The loop of `iota_tangle_bundle_load`, with `n` transactions still to take.
The hash it compares each transaction's bundle with lives in the buffer that
the transaction was just loaded into, so the comparison always holds. -/
def bundleLoadLoop : ℕ → Transaction Hash → TangleM Hash (List (Transaction Hash))
  | 0, _ => pure []
  | n + 1, tx => do
    match ← transactionLoad tx.trunk with
    | none => pure [tx]
    | some next => do
      let rest ← bundleLoadLoop n next
      pure (tx :: rest)

/-- `iota_tangle_bundle_load`. -/
def bundleLoad (tail : Hash) : TangleM Hash (List (Transaction Hash)) := do
  match ← transactionLoad tail with
  | none => fail .tangleTailNotFound
  | some tx =>
    if tx.currentIndex ≠ 0 then fail .tangleNotATail
    else bundleLoadLoop (tx.lastIndex + 1) tx

/-- `iota_consensus_bundle_validator_validate`: the bundle and its status, from
the cache when there is one. -/
def bundleValidatorValidate (sponge : Sponge Hash) (tail : Hash) :
    TangleM Hash (List (Transaction Hash) × BundleStatus) := do
  let bundle ← bundleLoad tail
  if bundle.isEmpty then pure (bundle, .empty)
  else do
    match ← transactionLoadPartial tail with
    | none => fail .undefinedRead
    | some tx =>
      if tx.validity ≠ .notInitialized then pure (bundle, tx.validity)
      else
        let status := bundleValidate sponge bundle
        if status ≠ .incomplete then do
          bundleUpdateValidity bundle status
          pure (bundle, status)
        else pure (bundle, status)

end Tangle

/-! ## The bundle of a tail -/

/-- The transactions along the trunk from `tx`, at most `n` of them. -/
def trunkChain (txs : Table (fun tx : Transaction Hash => tx.hash)) :
    ℕ → Transaction Hash → List (Transaction Hash)
  | 0, _ => []
  | n + 1, tx =>
    match txs.find? tx.trunk with
    | none => [tx]
    | some next => tx :: trunkChain txs n next

/-- The bundle of a tail, nothing for a hash that is not one. -/
def bundleOf (txs : Table (fun tx : Transaction Hash => tx.hash)) (tail : Hash) :
    List (Transaction Hash) :=
  match txs.find? tail with
  | none => []
  | some tx => if tx.currentIndex ≠ 0 then [] else trunkChain txs (tx.lastIndex + 1) tx

namespace Tangle

variable {t t' : Tangle Hash} {tail h : Hash} {tx : Transaction Hash}
  {bundle : List (Transaction Hash)} {status : BundleStatus} {sponge : Sponge Hash}

theorem bundleLoadLoop_ok {n : ℕ} (hr : bundleLoadLoop n tx t = .ok bundle t') :
    bundle = trunkChain t.transactions n tx ∧ SameTables t t' := by
  induction n generalizing tx t bundle with
  | zero =>
    cases hr
    exact ⟨rfl, .refl _⟩
  | succ n ih =>
    rw [bundleLoadLoop] at hr
    obtain ⟨o, t₁, h₁, h₂⟩ := bind_eq_ok.mp hr
    obtain ⟨rfl, hs⟩ := transactionLoad_ok h₁
    rw [trunkChain]
    cases hf : t.transactions.find? tx.trunk with
    | none =>
      rw [hf] at h₂
      cases h₂
      exact ⟨rfl, hs⟩
    | some next =>
      rw [hf] at h₂
      obtain ⟨rest, t₂, h₃, h₄⟩ := bind_eq_ok.mp h₂
      cases h₄
      obtain ⟨rfl, hs'⟩ := ih h₃
      exact ⟨by rw [hs.1], hs.trans hs'⟩

/-- **What a loaded bundle is**: the bundle of a tail that is stored. -/
theorem bundleLoad_ok (hr : bundleLoad tail t = .ok bundle t') :
    (∃ tx, t.transactions.find? tail = some tx ∧ tx.currentIndex = 0) ∧
      bundle = bundleOf t.transactions tail ∧ SameTables t t' := by
  obtain ⟨o, t₁, h₁, h₂⟩ := bind_eq_ok.mp hr
  obtain ⟨rfl, hs⟩ := transactionLoad_ok h₁
  unfold bundleOf
  cases hf : t.transactions.find? tail with
  | none => rw [hf] at h₂; cases h₂
  | some tx =>
    rw [hf] at h₂
    by_cases hc : tx.currentIndex = 0
    · simp only [hc, ne_eq, not_true_eq_false, if_false] at h₂ ⊢
      obtain ⟨rfl, hs'⟩ := bundleLoadLoop_ok h₂
      exact ⟨⟨tx, rfl, hc⟩, by rw [hs.1], hs.trans hs'⟩
    · simp only [ne_eq, hc, not_false_eq_true, if_true] at h₂
      cases h₂

theorem keeps_bundleLoadLoop (n : ℕ) (tx : Transaction Hash) :
    Keeps SameTables (bundleLoadLoop n tx) := by
  induction n generalizing tx with
  | zero => exact Keeps.pure .refl _
  | succ n ih =>
    refine Keeps.bind SameTables.trans (keeps_read rfl _) fun o => ?_
    cases o with
    | none => exact Keeps.pure .refl _
    | some next =>
      exact Keeps.bind SameTables.trans (ih next) fun _ => Keeps.pure .refl _

theorem keeps_bundleLoad (tail : Hash) : Keeps SameTables (bundleLoad tail) := by
  refine Keeps.bind SameTables.trans (keeps_read rfl _) fun o => ?_
  cases o with
  | none => exact Keeps.fail .refl _
  | some tx =>
    dsimp only
    split
    · exact Keeps.fail .refl _
    · exact keeps_bundleLoadLoop _ tx

theorem succeeds_bundleLoadLoop (n : ℕ) (tx : Transaction Hash) :
    Succeeds Quiet (bundleLoadLoop n tx) := by
  induction n generalizing tx with
  | zero => exact Succeeds.pure _
  | succ n ih =>
    refine Succeeds.bind (succeeds_read _ _) fun o => ?_
    cases o with
    | none => exact Succeeds.pure _
    | some next => exact Succeeds.bind (ih next) fun _ => Succeeds.pure _

/-- Validating a bundle writes validities only. -/
theorem keeps_bundleValidatorValidate (sponge : Sponge Hash) (tail : Hash) :
    Keeps SameCore (bundleValidatorValidate sponge tail) := by
  refine Keeps.bind SameCore.trans (keepsCore_of_keeps (keeps_bundleLoad tail)) fun bundle => ?_
  split
  · exact Keeps.pure .refl _
  · refine Keeps.bind SameCore.trans (keepsCore_of_keeps (keeps_read rfl _)) fun o => ?_
    cases o with
    | none => exact Keeps.fail .refl _
    | some tx =>
      dsimp only
      split
      · exact Keeps.pure .refl _
      · split
        · exact Keeps.bind SameCore.trans (keeps_bundleUpdateValidity _ _)
            fun _ => Keeps.pure .refl _
        · exact Keeps.pure .refl _

/-- The status the validator reports for a tail: the cached one, or that of the
bundle. -/
def reportedStatus (sponge : Sponge Hash) (t : Tangle Hash) (tail : Hash) : BundleStatus :=
  match t.transactions.find? tail with
  | none => .notInitialized
  | some tx =>
    if tx.validity ≠ .notInitialized then tx.validity
    else bundleValidate sponge (bundleOf t.transactions tail)

theorem bundleOf_ne_nil (hf : t.transactions.find? tail = some tx) (hc : tx.currentIndex = 0) :
    bundleOf t.transactions tail ≠ [] := by
  unfold bundleOf
  rw [hf]
  simp only [hc, ne_eq, not_true_eq_false, if_false]
  rw [trunkChain]
  split <;> simp

/-- **What the validator returns.** The bundle of a stored tail with its
reported status; a status that was computed, other than incomplete, is written
to the transactions of the bundle. -/
theorem bundleValidatorValidate_ok
    (hr : bundleValidatorValidate sponge tail t = .ok (bundle, status) t') :
    (∃ tx, t.transactions.find? tail = some tx ∧ tx.currentIndex = 0) ∧
      bundle = bundleOf t.transactions tail ∧ status = reportedStatus sponge t tail ∧
      (SameTables t t' ∨ (status = bundleValidate sponge bundle ∧
        SameTables (t.withValidity (bundle.map (·.hash)) status) t')) := by
  obtain ⟨b, t₁, h₁, h₂⟩ := bind_eq_ok.mp hr
  obtain ⟨⟨tx, hf, hc⟩, rfl, hs⟩ := bundleLoad_ok h₁
  have hne := bundleOf_ne_nil hf hc
  have hemp : (bundleOf t.transactions tail).isEmpty = false := by simpa using hne
  simp only [hemp, Bool.false_eq_true, if_false] at h₂
  obtain ⟨o, t₂, h₃, h₄⟩ := bind_eq_ok.mp h₂
  obtain ⟨rfl, hs'⟩ := transactionLoadPartial_ok h₃
  have hs₂ := hs.trans hs'
  rw [hs.1, hf] at h₄
  refine ⟨⟨tx, hf, hc⟩, ?_⟩
  unfold reportedStatus
  rw [hf]
  by_cases hv : tx.validity = .notInitialized
  · simp only [hv, ne_eq, not_true_eq_false, if_false] at h₄ ⊢
    split at h₄
    · obtain ⟨_, t₃, h₅, h₆⟩ := bind_eq_ok.mp h₄
      cases h₆
      obtain ⟨_, t₄, h₇, h₈⟩ := bind_eq_ok.mp h₅
      cases h₈
      have hs₄ := hs₂.trans ((keeps_attempt rfl).of_ok h₇)
      refine ⟨rfl, rfl, .inr ⟨rfl, ?_, hs₄.2, hs₄.3⟩⟩
      simp only [withValidity, mapTransactions, hs₄.1]
    · cases h₄
      exact ⟨rfl, rfl, .inl hs₂⟩
  · simp only [ne_eq, hv, not_false_eq_true, if_true] at h₄ ⊢
    cases h₄
    exact ⟨rfl, rfl, .inl hs₂⟩

/-- When nothing fails the bundle of a stored tail is validated. -/
theorem bundleValidatorValidate_of_quiet (sponge : Sponge Hash) (hq : t.Quiet)
    (hf : t.transactions.find? tail = some tx) (hc : tx.currentIndex = 0) :
    ∃ r t', bundleValidatorValidate sponge tail t = .ok r t' ∧ t'.Quiet := by
  obtain ⟨bundle, t₁, h₁, hq₁⟩ : ∃ b t₁, bundleLoad tail t = .ok b t₁ ∧ t₁.Quiet := by
    obtain ⟨o, t₀, h₀, hq₀⟩ :=
      succeeds_read .transactionLoad (fun t => t.transactions.find? tail) t hq
    obtain ⟨rfl, -⟩ := transactionLoad_ok h₀
    obtain ⟨b, t₁, h₁, hq₁⟩ := succeeds_bundleLoadLoop (tx.lastIndex + 1) tx t₀ hq₀
    refine ⟨b, t₁, ?_, hq₁⟩
    rw [bundleLoad, transactionLoad, bind_apply_ok h₀, hf]
    simp only [hc, ne_eq, not_true_eq_false, if_false]
    exact h₁
  obtain ⟨-, rfl, hs⟩ := bundleLoad_ok h₁
  have hne : (bundleOf t.transactions tail).isEmpty = false := by simpa using bundleOf_ne_nil hf hc
  obtain ⟨o, t₂, h₂, hq₂⟩ :=
    succeeds_read .transactionLoadPartial (fun t => t.transactions.find? tail) t₁ hq₁
  obtain ⟨rfl, -⟩ := transactionLoadPartial_ok h₂
  rw [hs.1, hf] at h₂
  have hrest : Succeeds Quiet (if tx.validity ≠ .notInitialized then
      pure (bundleOf t.transactions tail, tx.validity)
    else if bundleValidate sponge (bundleOf t.transactions tail) ≠ .incomplete then do
      bundleUpdateValidity (bundleOf t.transactions tail)
        (bundleValidate sponge (bundleOf t.transactions tail))
      pure (bundleOf t.transactions tail, bundleValidate sponge (bundleOf t.transactions tail))
    else pure (bundleOf t.transactions tail,
      bundleValidate sponge (bundleOf t.transactions tail)) :
      TangleM Hash (List (Transaction Hash) × BundleStatus)) := by
    split
    · exact Succeeds.pure _
    · split
      · refine Succeeds.bind (Succeeds.bind (succeeds_attempt _) fun _ => ?_)
          fun _ => Succeeds.pure _
        exact Succeeds.update fun t ht => ht
      · exact Succeeds.pure _
  obtain ⟨r, t₃, h₃, hq₃⟩ := hrest t₂ hq₂
  refine ⟨r, t₃, ?_, hq₃⟩
  rw [bundleValidatorValidate, bind_apply_ok h₁]
  simp only [hne, Bool.false_eq_true, if_false]
  rw [transactionLoadPartial, bind_apply_ok h₂]
  exact h₃

/-! ## Up to validity -/

theorem trunkChain_core (t : Tangle Hash) (n : ℕ) (tx : Transaction Hash) :
    trunkChain t.core n tx.core = (trunkChain t.transactions n tx).map Transaction.core := by
  induction n generalizing tx with
  | zero => rfl
  | succ n ih =>
    rw [trunkChain, trunkChain, find?_core]
    cases hf : t.transactions.find? tx.trunk with
    | none => simp [Transaction.core, hf]
    | some next =>
      have : t.transactions.find? tx.core.trunk = some next := hf
      simp only [this, Option.map_some, List.map_cons, ih]

theorem bundleOf_core (t : Tangle Hash) (tail : Hash) :
    bundleOf t.core tail = (bundleOf t.transactions tail).map Transaction.core := by
  unfold bundleOf
  rw [find?_core]
  cases hf : t.transactions.find? tail with
  | none => rfl
  | some tx =>
    simp only [Option.map_some]
    by_cases hc : tx.currentIndex = 0
    · have hc' : tx.core.currentIndex = 0 := hc
      simp only [hc, hc', ne_eq, not_true_eq_false, if_false]
      exact trunkChain_core t (tx.lastIndex + 1) tx
    · have hc' : ¬ tx.core.currentIndex = 0 := hc
      simp only [hc, hc', ne_eq, not_false_eq_true, if_true, List.map_nil]

end Tangle

omit [HashBytes Hash] in
theorem validateSignatures_core (sponge : Sponge Hash) (bundleHash : Hash)
    (b : List (Transaction Hash)) :
    validateSignatures sponge bundleHash (b.map Transaction.core) =
      validateSignatures sponge bundleHash b := by
  induction b with
  | nil => rfl
  | cons tx rest ih =>
    rw [List.map_cons, validateSignatures, validateSignatures, ih, List.takeWhile_map]
    simp only [List.map_cons, List.map_map]
    rfl

omit [HashBytes Hash] in
theorem bundleValidateLoop_core (sponge : Sponge Hash) (bundle b : List (Transaction Hash))
    (bundleHash : Hash) (lastIndex i : ℕ) (v : Int64) (status : BundleStatus) :
    bundleValidateLoop sponge (bundle.map Transaction.core) bundleHash lastIndex
        (b.map Transaction.core) i v status =
      bundleValidateLoop sponge bundle bundleHash lastIndex b i v status := by
  have hess : (bundle.map Transaction.core).map (·.essence) = bundle.map (·.essence) := by
    rw [List.map_map]
    rfl
  induction b generalizing i v status with
  | nil => rfl
  | cons tx rest ih =>
    rw [List.map_cons, bundleValidateLoop, bundleValidateLoop, hess, validateSignatures_core, ih]
    rfl

omit [HashBytes Hash] in
/-- **Validating looks at no cached validity.** -/
theorem bundleValidate_core (sponge : Sponge Hash) (b : List (Transaction Hash)) :
    bundleValidate sponge (b.map Transaction.core) = bundleValidate sponge b := by
  cases b with
  | nil => rfl
  | cons tx rest =>
    have := bundleValidateLoop_core sponge (tx :: rest) (tx :: rest) tx.bundle tx.lastIndex 0 0
      .notInitialized
    rw [List.map_cons] at this
    rw [List.map_cons, bundleValidate, bundleValidate, List.length_cons, List.length_map,
      List.length_cons]
    exact congrArg _ this

omit [HashBytes Hash] in
theorem bundleValidateLoop_ne_notInitialized (sponge : Sponge Hash)
    (bundle b : List (Transaction Hash)) (bundleHash : Hash) (lastIndex i : ℕ) (v : Int64) :
    bundleValidateLoop sponge bundle bundleHash lastIndex b i v .valid ≠ .notInitialized := by
  induction b generalizing i v with
  | nil => simp [bundleValidateLoop]
  | cons tx rest ih =>
    rw [bundleValidateLoop]
    repeat' split
    all_goals first | exact ih _ _ | simp

omit [HashBytes Hash] in
/-- A bundle that was validated has a status. -/
theorem bundleValidate_ne_notInitialized (sponge : Sponge Hash) {b : List (Transaction Hash)}
    (hb : b ≠ []) : bundleValidate sponge b ≠ .notInitialized := by
  cases b with
  | nil => exact absurd rfl hb
  | cons tx rest =>
    rw [bundleValidate]
    split
    · simp
    · -- after one transaction the status is an error or valid
      rw [bundleValidateLoop]
      repeat' split
      all_goals first | exact bundleValidateLoop_ne_notInitialized _ _ _ _ _ _ _ | simp

omit [HashBytes Hash] in
/-- Positions of a bundle that passed the loop are its indexes. -/
theorem currentIndex_of_validateLoop {sponge : Sponge Hash} {bundle b : List (Transaction Hash)}
    {bundleHash : Hash} {lastIndex i : ℕ} {v : Int64} {status : BundleStatus}
    (h : bundleValidateLoop sponge bundle bundleHash lastIndex b i v status = .valid) :
    ∀ k (hk : k < b.length), b[k].currentIndex = i + k := by
  induction b generalizing i v status with
  | nil => intro k hk; cases hk
  | cons tx rest ih =>
    rw [bundleValidateLoop] at h
    have hcur : tx.currentIndex = i ∧ ∃ v', bundleValidateLoop sponge bundle bundleHash lastIndex
        rest (i + 1) v' .valid = .valid := by
      split at h
      · cases h
      split at h
      · cases h
      split at h
      · cases h
      rename_i hidx
      rw [not_or, not_not] at hidx
      refine ⟨hidx.1, v + tx.value, ?_⟩
      split at h
      · cases h
      split at h
      · split at h
        · cases h
        split at h
        · cases h
        split at h
        · cases h
        exact h
      · exact h
    obtain ⟨hi, v', hrest⟩ := hcur
    intro k hk
    cases k with
    | zero => simpa using hi
    | succ k =>
      have := ih hrest k (by simpa using hk)
      simp only [List.getElem_cons_succ, this]
      omega

omit [HashBytes Hash] in
/-- **Only the first transaction of a valid bundle is a tail.** -/
theorem eq_head_of_bundleValidate {sponge : Sponge Hash} {tx₀ : Transaction Hash}
    {rest : List (Transaction Hash)} (h : bundleValidate sponge (tx₀ :: rest) = .valid)
    {tx : Transaction Hash} (hm : tx ∈ tx₀ :: rest) (hc : tx.currentIndex = 0) : tx = tx₀ := by
  rw [bundleValidate] at h
  split at h
  · cases h
  · obtain ⟨k, hk, rfl⟩ := List.mem_iff_getElem.mp hm
    have := currentIndex_of_validateLoop h k hk
    have hk0 : k = 0 := by omega
    subst hk0
    rfl

namespace Tangle

variable {t t' : Tangle Hash} {tail h : Hash} {tx : Transaction Hash}
  {bundle : List (Transaction Hash)} {status : BundleStatus} {sponge : Sponge Hash}

/-- The exact sum of the values of a bundle. -/
def bundleValue (b : List (Transaction Hash)) : ℤ := (b.map fun tx => tx.value.toInt).sum

/-- Every bundle that the validator reports valid has value sum zero. -/
def ValidZeroSum (sponge : Sponge Hash) (t : Tangle Hash) : Prop :=
  ∀ tail tx, t.transactions.find? tail = some tx → tx.currentIndex = 0 →
    reportedStatus sponge t tail = .valid → bundleValue (bundleOf t.transactions tail) = 0

/-- Enough that every bundle of the store adds up to zero. -/
theorem validZeroSum_of_rows (h : ∀ tx ∈ t.transactions.rows, tx.currentIndex = 0 →
    bundleValue (bundleOf t.transactions tx.hash) = 0) : ValidZeroSum sponge t := by
  intro tail tx hf hc _
  have hkey : tx.hash = tail := Table.key_of_find? hf
  exact hkey ▸ h tx (Table.mem_of_find? hf) hc

omit [DecidableEq Hash] [HashBytes Hash] in
theorem bundleValue_core (b : List (Transaction Hash)) :
    bundleValue (b.map Transaction.core) = bundleValue b := by
  rw [bundleValue, List.map_map]
  rfl

theorem bundleValue_of_sameCore (h : SameCore t t') (tail : Hash) :
    bundleValue (bundleOf t'.transactions tail) = bundleValue (bundleOf t.transactions tail) := by
  rw [← bundleValue_core, ← bundleOf_core, h.1, bundleOf_core, bundleValue_core]

theorem ValidZeroSum.of_sameTables (hz : ValidZeroSum sponge t) (h : SameTables t t') :
    ValidZeroSum sponge t' := by
  intro tail tx hf hc hs
  unfold reportedStatus at hs
  rw [h.1] at hf hs ⊢
  exact hz tail tx hf hc hs

theorem head_bundleOf (hf : t.transactions.find? tail = some tx) (hc : tx.currentIndex = 0) :
    ∃ rest, bundleOf t.transactions tail = tx :: rest := by
  unfold bundleOf
  rw [hf]
  simp only [hc, ne_eq, not_true_eq_false, if_false]
  rw [trunkChain]
  split <;> simp

theorem find?_withValidity (hashes : List Hash) (status : BundleStatus) (x : Hash) :
    (t.withValidity hashes status).transactions.find? x =
      (t.transactions.find? x).map fun tx =>
        if tx.hash ∈ hashes then { tx with validity := status } else tx := by
  rw [withValidity, find?_mapTransactions]

/-- A row of a chain is stored under its hash. -/
theorem find?_of_mem_trunkChain {n : ℕ} {tx₀ : Transaction Hash}
    (h₀ : t.transactions.find? tx₀.hash = some tx₀) (hm : tx ∈ trunkChain t.transactions n tx₀) :
    t.transactions.find? tx.hash = some tx := by
  induction n generalizing tx₀ with
  | zero => cases hm
  | succ n ih =>
    rw [trunkChain] at hm
    cases hf : t.transactions.find? tx₀.trunk with
    | none =>
      rw [hf, List.mem_singleton] at hm
      exact hm ▸ h₀
    | some next =>
      rw [hf, List.mem_cons] at hm
      rcases hm with rfl | hm
      · exact h₀
      · have hk : next.hash = tx₀.trunk := Table.key_of_find? hf
        exact ih (hk ▸ hf) hm

/-- The transactions of a bundle are stored. -/
theorem find?_of_mem_bundleOf (hm : tx ∈ bundleOf t.transactions tail) :
    t.transactions.find? tx.hash = some tx := by
  unfold bundleOf at hm
  cases hf : t.transactions.find? tail with
  | none => rw [hf] at hm; cases hm
  | some tx₀ =>
    have hk : tx₀.hash = tail := Table.key_of_find? hf
    simp only [hf] at hm
    split at hm
    · cases hm
    · exact find?_of_mem_trunkChain (hk ▸ hf) hm

theorem reportedStatus_of_sameTables (h : SameTables t t') (x : Hash) :
    reportedStatus sponge t' x = reportedStatus sponge t x := by
  rw [reportedStatus, reportedStatus, h.1]

/-- Where a status is written it is the one reported, and elsewhere nothing
changes. -/
theorem reportedStatus_withValidity (hf : t.transactions.find? h = some tx) (hashes : List Hash)
    (hs : status ≠ .notInitialized) :
    reportedStatus sponge (t.withValidity hashes status) h =
      if h ∈ hashes then status else reportedStatus sponge t h := by
  have hk : tx.hash = h := Table.key_of_find? hf
  have hcore := withValidity_sameCore t hashes status
  unfold reportedStatus
  rw [find?_withValidity, hf, Option.map_some, hk]
  by_cases hm : h ∈ hashes
  · simp only [if_pos hm, if_pos hs]
  · simp only [if_neg hm]
    rw [← bundleValidate_core, ← bundleOf_core, hcore.1, bundleOf_core, bundleValidate_core]

/-- **Validating one bundle makes no other valid.** A tail reported valid
afterwards was reported valid before: what a valid bundle writes reaches no
other tail, and any other status it writes is not valid. -/
theorem reportedStatus_of_validate
    (hr : bundleValidatorValidate sponge tail t = .ok (bundle, status) t')
    (hf : t.transactions.find? h = some tx) (hc : tx.currentIndex = 0)
    (hx : reportedStatus sponge t' h = .valid) : reportedStatus sponge t h = .valid := by
  obtain ⟨⟨tx₀, hf₀, hc₀⟩, rfl, hst, hs | ⟨hv, hs⟩⟩ := bundleValidatorValidate_ok hr
  · rwa [reportedStatus_of_sameTables hs] at hx
  have hne : status ≠ .notInitialized :=
    hv ▸ bundleValidate_ne_notInitialized sponge (bundleOf_ne_nil hf₀ hc₀)
  rw [reportedStatus_of_sameTables hs, reportedStatus_withValidity hf _ hne] at hx
  split at hx
  · -- a tail inside a valid bundle is the tail of the bundle
    rename_i hm
    subst hx
    obtain ⟨rest, hb⟩ := head_bundleOf hf₀ hc₀
    obtain ⟨tx₁, hm₁, hh⟩ := List.mem_map.mp hm
    have hf₁ := find?_of_mem_bundleOf hm₁
    rw [hh, hf] at hf₁
    obtain rfl : tx = tx₁ := Option.some.inj hf₁
    rw [hb] at hv hm₁
    obtain rfl : tx = tx₀ := eq_head_of_bundleValidate hv.symm hm₁ hc
    have hk : tx.hash = tail := Table.key_of_find? hf₀
    rw [← hh, hk]
    exact hst.symm
  · exact hx

/-- **Caching the status of a bundle vouches for no other.** -/
theorem ValidZeroSum.validate (hz : ValidZeroSum sponge t)
    (hr : bundleValidatorValidate sponge tail t = .ok (bundle, status) t') :
    ValidZeroSum sponge t' := by
  have hcore := (keeps_bundleValidatorValidate sponge tail).of_ok hr
  intro x tx' hf' hc' hx
  rw [bundleValue_of_sameCore hcore]
  have hmap : (t.transactions.find? x).map Transaction.core = some tx'.core := by
    rw [← find?_core, ← hcore.1, find?_core, hf', Option.map_some]
  obtain ⟨tx, hf, htx⟩ := Option.map_eq_some_iff.mp hmap
  have hc : tx.currentIndex = 0 := (congrArg Transaction.currentIndex htx).trans hc'
  exact hz x tx hf hc (reportedStatus_of_validate hr hf hc hx)

end Tangle

/-! ## Concrete data -/

/-- A solid transaction in a bundle that was found valid, no milestone having
confirmed it. -/
def plainTx (hash trunk branch address : Fin 256) (value : Int64) (currentIndex lastIndex : ℕ) :
    Transaction (Fin 256) where
  address := address
  value := value
  obsoleteTag := []
  timestamp := 0
  currentIndex := currentIndex
  lastIndex := lastIndex
  bundle := 0
  trunk := trunk
  branch := branch
  attachmentTimestamp := 0
  hash := hash
  signature := []
  snapshotIndex := 0
  solid := true
  validity := .valid

/-- A sponge for runs in which every bundle has its status cached. -/
def plainSponge : Sponge (Fin 256) := ⟨fun _ => 0, fun _ _ => 0, fun _ => 0⟩

end Entangled
