import Entangled.Tangle.Bundle
/-!
# What a valid bundle is

`bundle_validate` against a description of valid bundles that mentions neither
words nor the order of the checks. The loop adds `int64_t` values, takes `llabs`
of them, and compares only the bundle field of the first transaction with the
hash of the essences; `bundleValidate_valid_iff` says which bundles that lets
through. They are the exact ones, and besides those the ones that carry the
value `-2 ^ 63` or a foreign bundle field.
-/

namespace Entangled

variable {Hash : Type} [DecidableEq Hash]

/-! ## The description -/

/-- The exact sum of the first `k` values. -/
def prefixSum (b : List (Transaction Hash)) (k : ℕ) : ℤ := Tangle.bundleValue (b.take k)

/-- Every spending transaction has the address that its signature fragments digest
to: its own, and those of the transactions of value zero on its address that
follow it. -/
def SignaturesCheck (sponge : Sponge Hash) (bundleHash : Hash) (b : List (Transaction Hash)) :
    Prop :=
  ∀ tx rest, (tx :: rest) <:+ b → tx.value < 0 →
    sponge.signatureAddress bundleHash
      ((tx :: rest.takeWhile fun t => decide (t.address = tx.address ∧ t.value = 0)).map
        (·.signature)) = tx.address

/-- The hash of the essences of a bundle. -/
def essenceHash (sponge : Sponge Hash) (b : List (Transaction Hash)) : Hash :=
  sponge.bundleHash (b.map (·.essence))

/-- **The bundles to accept.** -/
structure ExactBundle (sponge : Sponge Hash) (b : List (Transaction Hash)) : Prop where
  nonempty : b ≠ []
  indexed : ∀ (i : ℕ) (tx : Transaction Hash), b[i]? = some tx →
    tx.currentIndex = i ∧ tx.lastIndex + 1 = b.length
  value : ∀ tx ∈ b, |tx.value.toInt| ≤ iotaSupply
  partialSum : ∀ k, |prefixSum b k| ≤ iotaSupply
  total : Tangle.bundleValue b = 0
  address : ∀ tx ∈ b, tx.value ≠ 0 → sponge.lastTrit tx.address = 0
  bundle : ∀ tx ∈ b, tx.bundle = essenceHash sponge b
  signatures : SignaturesCheck sponge (essenceHash sponge b) b

/-- A word that passes `llabs(…) > MAX_IOTA_SUPPLY`. -/
def Tolerated (v : Int64) : Prop := v = Int64.minValue ∨ |v.toInt| ≤ iotaSupply

/-- The requirements that the two gaps leave: values and sums are looked at as
words, where the least one has no absolute value, and of the bundle fields only
the first. -/
structure PassesRest (sponge : Sponge Hash) (b : List (Transaction Hash)) : Prop where
  nonempty : b ≠ []
  indexed : ∀ (i : ℕ) (tx : Transaction Hash), b[i]? = some tx →
    tx.currentIndex = i ∧ tx.lastIndex + 1 = b.length
  value : ∀ tx ∈ b, Tolerated tx.value
  partialSum : ∀ k, Tolerated (Int64.ofInt (prefixSum b k))
  total : (2 ^ 64 : ℤ) ∣ Tangle.bundleValue b
  address : ∀ tx ∈ b, tx.value ≠ 0 → sponge.lastTrit tx.address = 0
  bundle : ∀ tx : Transaction Hash, b[0]? = some tx → tx.bundle = essenceHash sponge b
  signatures : SignaturesCheck sponge (essenceHash sponge b) b

/-- No value is `-2 ^ 63`, and every bundle field is that of the first transaction. -/
def Genuine (b : List (Transaction Hash)) : Prop :=
  ∀ tx ∈ b, tx.value ≠ Int64.minValue ∧
    ∀ tx₀ : Transaction Hash, b[0]? = some tx₀ → tx.bundle = tx₀.bundle

/-! ## Words and sums -/

theorem toInt_minValue : (Int64.minValue).toInt = -2 ^ 63 := by decide

theorem not_lt_llabs_iff (v : Int64) : ¬ maxIotaSupply < llabs v ↔ Tolerated v := by
  have hmax : maxIotaSupply.toInt = iotaSupply := by decide
  have hfit := Word.fits_toInt v
  unfold Word.Fits at hfit
  unfold Tolerated llabs
  rw [Int64.lt_iff_toInt_lt, hmax]
  by_cases hmin : v = Int64.minValue
  · subst hmin
    have : ¬ iotaSupply < (if Int64.minValue < 0 then -Int64.minValue else Int64.minValue).toInt := by
      decide
    exact ⟨fun _ => .inl rfl, fun _ => this⟩
  · have hne : v.toInt ≠ -2 ^ 63 := fun h => hmin (Int64.toInt_inj.mp (h.trans toInt_minValue.symm))
    have hzero : (0 : Int64).toInt = 0 := by decide
    have habs : (if v < 0 then -v else v).toInt = |v.toInt| := by
      split
      · rename_i hneg
        rw [Int64.lt_iff_toInt_lt, hzero] at hneg
        rw [Int64.toInt_neg, abs_of_neg hneg]
        exact Int.bmod_eq_of_le (by omega) (by omega)
      · rename_i hpos
        rw [Int64.lt_iff_toInt_lt, hzero, not_lt] at hpos
        rw [abs_of_nonneg hpos]
    rw [habs, not_lt]
    exact ⟨.inr, fun h => h.resolve_left hmin⟩

omit [DecidableEq Hash] in
theorem prefixSum_zero (b : List (Transaction Hash)) : prefixSum b 0 = 0 := rfl

omit [DecidableEq Hash] in
theorem prefixSum_cons (tx : Transaction Hash) (b : List (Transaction Hash)) (k : ℕ) :
    prefixSum (tx :: b) (k + 1) = tx.value.toInt + prefixSum b k := by
  simp [prefixSum, Tangle.bundleValue]

omit [DecidableEq Hash] in
theorem prefixSum_of_length_le {b : List (Transaction Hash)} {k : ℕ} (h : b.length ≤ k) :
    prefixSum b k = Tangle.bundleValue b := by
  rw [prefixSum, List.take_of_length_le h]

omit [DecidableEq Hash] in
theorem prefixSum_succ {b : List (Transaction Hash)} {k : ℕ} {tx : Transaction Hash}
    (h : b[k]? = some tx) : prefixSum b (k + 1) = prefixSum b k + tx.value.toInt := by
  rw [prefixSum, List.take_add_one, h, prefixSum, Tangle.bundleValue, Tangle.bundleValue]
  simp

/-! ## What the loop lets through -/

variable {sponge : Sponge Hash} {bundle b rest : List (Transaction Hash)} {bundleHash : Hash}
  {tx : Transaction Hash}

theorem validateSignatures_iff :
    validateSignatures sponge bundleHash b = true ↔ SignaturesCheck sponge bundleHash b := by
  induction b with
  | nil => simp [validateSignatures, SignaturesCheck]
  | cons tx rest ih =>
    have hsuffix : SignaturesCheck sponge bundleHash (tx :: rest) ↔
        (tx.value < 0 → sponge.signatureAddress bundleHash
          ((tx :: rest.takeWhile fun t => decide (t.address = tx.address ∧ t.value = 0)).map
            (·.signature)) = tx.address) ∧ SignaturesCheck sponge bundleHash rest := by
      constructor
      · intro h
        exact ⟨h tx rest List.suffix_rfl, fun tx' rest' hs => h tx' rest' (hs.trans
          (List.suffix_cons tx rest))⟩
      · rintro ⟨hhead, htail⟩ tx' rest' hs hneg
        rcases List.suffix_cons_iff.mp hs with heq | hs'
        · cases heq
          exact hhead hneg
        · exact htail tx' rest' hs' hneg
    rw [hsuffix, ← ih, validateSignatures]
    by_cases hpos : 0 ≤ tx.value
    · rw [if_pos hpos]
      exact ⟨fun h => ⟨fun hneg => absurd hpos (by rwa [Int64.not_le]), h⟩, fun h => h.2⟩
    · rw [if_neg hpos]
      rw [Int64.not_le] at hpos
      simp only [ne_eq, ite_not, Bool.if_false_right, Bool.and_eq_true, decide_eq_true_eq]
      exact ⟨fun h => ⟨fun _ => h.1, h.2⟩, fun h => ⟨h.1 hpos, h.2⟩⟩

/-- The checks the loop makes at position `i`, where the sum has come to `v`. -/
structure StepPasses (sponge : Sponge Hash) (bundle : List (Transaction Hash)) (bundleHash : Hash)
    (lastIndex i : ℕ) (v : Int64) (tx : Transaction Hash) : Prop where
  value : Tolerated tx.value
  sum : Tolerated v
  index : tx.currentIndex = i ∧ tx.lastIndex = lastIndex
  address : tx.value ≠ 0 → sponge.lastTrit tx.address = 0
  last : i = lastIndex → v = 0 ∧ bundleHash = essenceHash sponge bundle ∧
    SignaturesCheck sponge bundleHash bundle

theorem bundleValidateLoop_cons (lastIndex i : ℕ) (v : Int64) (status : BundleStatus) :
    bundleValidateLoop sponge bundle bundleHash lastIndex (tx :: rest) i v status = .valid ↔
      StepPasses sponge bundle bundleHash lastIndex i (v + tx.value) tx ∧
        bundleValidateLoop sponge bundle bundleHash lastIndex rest (i + 1) (v + tx.value) .valid =
          .valid := by
  rw [bundleValidateLoop]
  -- each failed check returns a status that is not valid
  by_cases hvalue : maxIotaSupply < llabs tx.value
  · rw [if_pos hvalue]
    refine ⟨fun h => (by cases h), fun h => absurd hvalue ((not_lt_llabs_iff _).mpr h.1.value)⟩
  rw [if_neg hvalue]
  by_cases hsum : maxIotaSupply < llabs (v + tx.value)
  · rw [if_pos hsum]
    refine ⟨fun h => (by cases h), fun h => absurd hsum ((not_lt_llabs_iff _).mpr h.1.sum)⟩
  rw [if_neg hsum]
  by_cases hindex : tx.currentIndex ≠ i ∨ tx.lastIndex ≠ lastIndex
  · rw [if_pos hindex]
    refine ⟨fun h => (by cases h), fun h => ?_⟩
    obtain ⟨hi, hl⟩ := h.1.index
    exact absurd hindex (not_or.mpr ⟨not_not.mpr hi, not_not.mpr hl⟩)
  rw [if_neg hindex]
  rw [not_or, not_not, not_not] at hindex
  by_cases haddress : tx.value ≠ 0 ∧ sponge.lastTrit tx.address ≠ 0
  · rw [if_pos haddress]
    exact ⟨fun h => (by cases h), fun h => absurd (h.1.address haddress.1) haddress.2⟩
  rw [if_neg haddress]
  rw [not_and, not_not] at haddress
  have hpass : StepPasses sponge bundle bundleHash lastIndex i (v + tx.value) tx ↔
      (i = lastIndex → v + tx.value = 0 ∧ bundleHash = essenceHash sponge bundle ∧
        SignaturesCheck sponge bundleHash bundle) :=
    ⟨fun h => h.last, fun h => ⟨(not_lt_llabs_iff _).mp hvalue, (not_lt_llabs_iff _).mp hsum,
      hindex, haddress, h⟩⟩
  rw [hpass, hindex.1]
  by_cases hlast : i = lastIndex
  · rw [if_pos hlast]
    simp only [hlast, true_imp_iff]
    by_cases hzero : v + tx.value = 0
    · rw [if_neg (not_not.mpr hzero)]
      by_cases hhash : bundleHash = sponge.bundleHash (bundle.map (·.essence))
      · rw [if_neg (not_not.mpr hhash)]
        by_cases hsig : validateSignatures sponge bundleHash bundle = false
        · rw [if_pos hsig]
          refine ⟨fun h => (by cases h), fun h => ?_⟩
          rw [validateSignatures_iff.mpr h.1.2.2] at hsig
          cases hsig
        · rw [if_neg hsig]
          rw [Bool.not_eq_false, validateSignatures_iff] at hsig
          exact ⟨fun h => ⟨⟨hzero, hhash, hsig⟩, h⟩, fun h => h.2⟩
      · rw [if_pos hhash]
        exact ⟨fun h => (by cases h), fun h => absurd h.1.2.1 hhash⟩
    · rw [if_pos hzero]
      exact ⟨fun h => (by cases h), fun h => absurd h.1.1 hzero⟩
  · rw [if_neg hlast]
    exact ⟨fun h => ⟨fun hc => absurd hc hlast, h⟩, fun h => h.2⟩

/-- **The loop passes position by position**, with the sums of the word arithmetic. -/
theorem bundleValidateLoop_valid_iff (lastIndex i : ℕ) (x : ℤ) :
    bundleValidateLoop sponge bundle bundleHash lastIndex b i (Int64.ofInt x) .valid = .valid ↔
      ∀ k tx, b[k]? = some tx → StepPasses sponge bundle bundleHash lastIndex (i + k)
        (Int64.ofInt (x + prefixSum b (k + 1))) tx := by
  induction b generalizing i x with
  | nil => simp [bundleValidateLoop]
  | cons tx rest ih =>
    rw [bundleValidateLoop_cons, Word.ofInt_add_word, ih]
    constructor
    · rintro ⟨hhead, htail⟩ k tx' hk
      rcases k with _ | k
      · simp only [List.getElem?_cons_zero, Option.some.injEq] at hk
        subst hk
        rwa [prefixSum_cons, prefixSum_zero, Int.add_zero, Nat.add_zero]
      · rw [List.getElem?_cons_succ] at hk
        have h := htail k tx' hk
        rwa [prefixSum_cons, ← Int.add_assoc, show i + (k + 1) = i + 1 + k by omega]
    · intro h
      refine ⟨?_, fun k tx' hk => ?_⟩
      · have h0 := h 0 tx rfl
        rwa [prefixSum_cons, prefixSum_zero, Int.add_zero, Nat.add_zero] at h0
      · have hs := h (k + 1) tx' (by rwa [List.getElem?_cons_succ])
        rwa [prefixSum_cons, ← Int.add_assoc, show i + (k + 1) = i + 1 + k by omega] at hs

theorem bundleValidateLoop_notInitialized (hb : b ≠ []) (lastIndex i : ℕ) (v : Int64) :
    bundleValidateLoop sponge bundle bundleHash lastIndex b i v .notInitialized = .valid ↔
      bundleValidateLoop sponge bundle bundleHash lastIndex b i v .valid = .valid := by
  cases b with
  | nil => exact absurd rfl hb
  | cons tx rest => rw [bundleValidateLoop_cons, bundleValidateLoop_cons]

/-- **What `bundle_validate` accepts.** -/
theorem bundleValidate_valid_iff : bundleValidate sponge b = .valid ↔ PassesRest sponge b := by
  cases b with
  | nil => exact ⟨fun h => (by cases h), fun h => absurd rfl h.nonempty⟩
  | cons tx₀ rest =>
    have hne : tx₀ :: rest ≠ [] := List.cons_ne_nil _ _
    rw [bundleValidate]
    by_cases hlen : (tx₀ :: rest).length ≠ tx₀.lastIndex + 1
    · rw [if_pos hlen]
      exact ⟨fun h => (by cases h), fun h => absurd (h.indexed 0 tx₀ rfl).2.symm hlen⟩
    rw [if_neg hlen]
    rw [not_not] at hlen
    have hzero : (0 : Int64) = Int64.ofInt 0 := by decide
    rw [bundleValidateLoop_notInitialized hne, hzero, bundleValidateLoop_valid_iff]
    simp only [Nat.zero_add, Int.zero_add]
    -- the last position is the one with `current_index == last_index`
    have hpos : tx₀.lastIndex < (tx₀ :: rest).length := by omega
    have hlast : (tx₀ :: rest)[tx₀.lastIndex]? = some (tx₀ :: rest)[tx₀.lastIndex] :=
      List.getElem?_eq_getElem hpos
    have hall : prefixSum (tx₀ :: rest) (tx₀.lastIndex + 1) = Tangle.bundleValue (tx₀ :: rest) :=
      prefixSum_of_length_le (by omega)
    constructor
    · intro h
      obtain ⟨htotal, hhash, hsig⟩ := (h _ _ hlast).last rfl
      rw [hall, Word.ofInt_eq_zero_iff] at htotal
      have hmem : ∀ tx ∈ tx₀ :: rest, ∃ k, (tx₀ :: rest)[k]? = some tx := fun tx htx =>
        List.mem_iff_getElem?.mp htx
      refine ⟨hne, fun i tx hi => ?_, fun tx htx => ?_, fun k => ?_, htotal, fun tx htx => ?_,
        fun tx htx => ?_, hhash ▸ hsig⟩
      · obtain ⟨hi', hl⟩ := (h i tx hi).index
        exact ⟨hi', by omega⟩
      · obtain ⟨k, hk⟩ := hmem tx htx
        exact (h k tx hk).value
      · rcases k with _ | k
        · rw [prefixSum_zero]
          exact .inr (by decide)
        · rcases Nat.lt_or_ge k (tx₀ :: rest).length with hk | hk
          · exact (h k _ (List.getElem?_eq_getElem hk)).sum
          · rw [prefixSum_of_length_le (by omega), ← hall]
            exact (h _ _ hlast).sum
      · obtain ⟨k, hk⟩ := hmem tx htx
        exact (h k tx hk).address
      · cases htx
        exact hhash
    · intro h k tx hk
      have hm := List.mem_of_getElem? hk
      obtain ⟨hcur, hli⟩ := h.indexed k tx hk
      have hhash := h.bundle tx₀ rfl
      refine ⟨h.value tx hm, h.partialSum (k + 1), ⟨hcur, by omega⟩, h.address tx hm, ?_⟩
      rintro rfl
      rw [hall]
      exact ⟨Word.ofInt_eq_zero_iff.mpr h.total, hhash, hhash ▸ h.signatures⟩

/-! ## Exactness -/

theorem ExactBundle.genuine (h : ExactBundle sponge b) : Genuine b := by
  refine fun tx htx => ⟨fun hmin => ?_, fun tx₀ h₀ => ?_⟩
  · have hv := h.value tx htx
    rw [hmin, toInt_minValue] at hv
    exact absurd hv (by decide)
  · rw [h.bundle tx htx, h.bundle tx₀ (List.mem_of_getElem? h₀)]

theorem tolerated_ofInt {x : ℤ} (h : |x| ≤ iotaSupply) : Tolerated (Int64.ofInt x) := by
  have hx := abs_le.mp h
  have hfit : Word.Fits x := by
    unfold Word.Fits
    unfold iotaSupply at hx
    omega
  exact .inr (by rwa [Word.toInt_ofInt hfit])

theorem ExactBundle.passesRest (h : ExactBundle sponge b) : PassesRest sponge b where
  nonempty := h.nonempty
  indexed := h.indexed
  value tx htx := .inr (h.value tx htx)
  partialSum k := tolerated_ofInt (h.partialSum k)
  total := by rw [h.total]; exact Int.dvd_zero _
  address := h.address
  bundle tx htx := h.bundle tx (List.mem_of_getElem? htx)
  signatures := h.signatures

/-- Without the least word no sum wraps: two numbers up to the supply add up to one
that a word holds, and the check on it is then the exact one. -/
theorem PassesRest.abs_prefixSum (h : PassesRest sponge b) (hg : Genuine b) (k : ℕ) :
    |prefixSum b k| ≤ iotaSupply := by
  induction k with
  | zero => rw [prefixSum_zero]; decide
  | succ k ih =>
    rcases Nat.lt_or_ge k b.length with hk | hk
    · have hget : b[k]? = some b[k] := List.getElem?_eq_getElem hk
      have hm : b[k] ∈ b := List.getElem_mem hk
      have hval := (h.value _ hm).resolve_left (hg _ hm).1
      rw [prefixSum_succ hget]
      have hstep := h.partialSum (k + 1)
      rw [prefixSum_succ hget] at hstep
      have h₁ := abs_le.mp ih
      have h₂ := abs_le.mp hval
      have hfit : Word.Fits (prefixSum b k + b[k].value.toInt) := by
        unfold Word.Fits
        unfold iotaSupply at h₁ h₂
        omega
      rcases hstep with hmin | habs
      · have hc := congrArg Int64.toInt hmin
        rw [Word.toInt_ofInt hfit, toInt_minValue] at hc
        unfold iotaSupply at h₁ h₂
        omega
      · rwa [Word.toInt_ofInt hfit] at habs
    · rw [prefixSum_of_length_le (by omega)]
      rwa [prefixSum_of_length_le hk] at ih

theorem PassesRest.exact (h : PassesRest sponge b) (hg : Genuine b) : ExactBundle sponge b := by
  have hsum := h.abs_prefixSum hg
  refine ⟨h.nonempty, h.indexed, fun tx htx => (h.value tx htx).resolve_left (hg tx htx).1, hsum,
    ?_, h.address, fun tx htx => ?_, h.signatures⟩
  · have htot := hsum b.length
    rw [prefixSum_of_length_le le_rfl] at htot
    obtain ⟨c, hc⟩ := h.total
    have hb := abs_le.mp htot
    unfold iotaSupply at hb
    omega
  · obtain ⟨tx₀, h₀⟩ : ∃ tx₀, b[0]? = some tx₀ :=
      ⟨_, List.getElem?_eq_getElem (List.length_pos_of_ne_nil h.nonempty)⟩
    rw [(hg tx htx).2 tx₀ h₀, h.bundle tx₀ h₀]

/-- **`bundle_validate` is exact on the bundles without the two gaps**, and on those
that fail another requirement, which both sides reject. -/
theorem bundleValidate_exact_iff (sponge : Sponge Hash) (b : List (Transaction Hash)) :
    (bundleValidate sponge b = .valid ↔ ExactBundle sponge b) ↔
      Genuine b ∨ ¬ PassesRest sponge b := by
  rw [bundleValidate_valid_iff]
  constructor
  · intro h
    by_cases hp : PassesRest sponge b
    · exact .inl (h.mp hp).genuine
    · exact .inr hp
  · rintro (hg | hp)
    · exact ⟨fun hp => hp.exact hg, ExactBundle.passesRest⟩
    · exact ⟨fun h => absurd h hp, fun h => absurd h.passesRest hp⟩

/-- A bundle of two transactions of value zero whose second one names another
bundle. -/
def foreignBundle (h : Fin 256) : List (Transaction (Fin 256)) :=
  [{ plainTx 1 2 2 10 0 0 1 with bundle := h }, { plainTx 2 0 0 10 0 1 1 with bundle := h + 1 }]

/-- Two withdrawals of `-2 ^ 63` each. -/
def leastBundle : List (Transaction (Fin 256)) :=
  [plainTx 1 2 2 0 Int64.minValue 0 1, plainTx 2 0 0 0 Int64.minValue 1 1]

/-- **Bundles that should not be valid and are.** A foreign bundle field passes
whatever the sponge computes; and two values of `-2 ^ 63` pass the bounds on
values and sums and add up to zero. -/
theorem bundleValidate_accepts_gaps :
    (∀ sponge : Sponge (Fin 256), ∃ h, bundleValidate sponge (foreignBundle h) = .valid ∧
      ¬ ExactBundle sponge (foreignBundle h)) ∧
    bundleValidate plainSponge leastBundle = .valid ∧ ¬ ExactBundle plainSponge leastBundle := by
  refine ⟨fun sponge => ?_, by decide +kernel, fun h => ?_⟩
  · have hess : ∀ h : Fin 256, (foreignBundle h).map (·.essence) =
        (foreignBundle 0).map (·.essence) := fun h => rfl
    let h := sponge.bundleHash ((foreignBundle 0).map (·.essence))
    refine ⟨h, ?_, fun hex => ?_⟩
    · have hhash : sponge.bundleHash ((foreignBundle h).map (·.essence)) = h := by rw [hess h]
      have hlen : (foreignBundle h).length = 2 := rfl
      rw [bundleValidate_valid_iff]
      have hval : ∀ tx ∈ foreignBundle h, tx.value = 0 := by
        intro tx htx
        simp only [foreignBundle, List.mem_cons, List.not_mem_nil, or_false] at htx
        rcases htx with rfl | rfl <;> rfl
      have hsum : ∀ k, prefixSum (foreignBundle h) k = 0 := by
        intro k
        rcases k with _ | _ | k
        · rfl
        · rfl
        · rw [prefixSum_of_length_le (by omega)]
          rfl
      refine ⟨List.cons_ne_nil _ _, fun i tx hi => ?_, fun tx htx => ?_, fun k => ?_, ?_,
        fun tx htx hne => absurd (hval tx htx) hne, fun tx htx => ?_, fun tx rest hs hneg => ?_⟩
      · rcases i with _ | _ | i
        · cases hi
          exact ⟨rfl, rfl⟩
        · cases hi
          exact ⟨rfl, rfl⟩
        · cases hi
      · rw [hval tx htx]
        exact .inr (by decide)
      · rw [hsum k]
        exact .inr (by decide)
      · exact ⟨0, rfl⟩
      · cases htx
        exact hhash.symm
      · rw [hval tx (hs.subset (List.mem_cons_self))] at hneg
        exact absurd hneg (by decide)
    · have h₁ := hex.bundle _ (List.mem_cons_self)
      have h₂ := hex.bundle _ (List.mem_cons_of_mem _ (List.mem_cons_self))
      have heq : h = h + 1 := h₁.trans h₂.symm
      omega
  · have hv := h.value (plainTx 1 2 2 0 Int64.minValue 0 1) (List.mem_cons_self)
    exact absurd hv (by decide)

end Entangled
