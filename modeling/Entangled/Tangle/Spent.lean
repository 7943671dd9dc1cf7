import Entangled.Tangle.Bundle
/-!
# Tails and spent addresses

`iota_tangle_find_tail` climbs from a transaction to the tail of its bundle, one
approver for each index below it. An address counts as spent from when a
transaction takes tokens off it, and is confirmed or sits in a valid bundle.

The search keeps its current transaction in a buffer of its own only until the
first step up. From then on that transaction and the approver being looked at
share one buffer: loading an approver overwrites it, and comparing the bundles
of the two compares a bundle with itself.
-/

namespace Entangled

open Prog

variable {Hash : Type} [DecidableEq Hash] [HashBytes Hash]

/-- `curr_tx` of the tail search, and whether it is the buffer that approvers are
loaded into. -/
structure TailSearch (Hash : Type) where
  curr : Transaction Hash
  shared : Bool

namespace TailSearch

/-- An approver is the next one up: one index less, and the same bundle as far as
the buffers tell. -/
def accepts (c : TailSearch Hash) (index : ℕ) (next : Transaction Hash) : Prop :=
  next.currentIndex = index ∧ (c.shared = true ∨ next.bundle = c.curr.bundle)

instance (c : TailSearch Hash) (index : ℕ) (next : Transaction Hash) :
    Decidable (c.accepts index next) := inferInstanceAs (Decidable (_ ∧ _))

/-- What loading an approver that is not taken does to the search. -/
def pass (c : TailSearch Hash) (next : Transaction Hash) : TailSearch Hash :=
  if c.shared then ⟨next, true⟩ else c

end TailSearch

namespace Tangle

/-- The inner loop of `iota_tangle_find_tail`, over the approvers of the current
transaction; the second result is `found_approver`. -/
def findApproverLoop (index : ℕ) :
    List Hash → TailSearch Hash → TangleM Hash (TailSearch Hash × Bool)
  | [], c => pure (c, false)
  | h :: rest, c => do
    match ← transactionLoadPartial h with
    | none => pure (c, false)
    | some next =>
      if c.accepts index next then pure (⟨next, true⟩, true)
      else findApproverLoop index rest (c.pass next)

/-- The outer loop of `iota_tangle_find_tail`, with `index` still to go down. -/
def findTailLoop : ℕ → TailSearch Hash → TangleM Hash (TailSearch Hash)
  | 0, c => pure c
  | index + 1, c => do
    let hashes ← loadHashesOfApprovers c.curr.hash
    let r ← findApproverLoop index hashes c
    if r.2 then findTailLoop index r.1 else pure r.1

/-- `iota_tangle_find_tail`. The loop counts in 32 bits. -/
def findTail (h : Hash) : TangleM Hash (Option Hash) := do
  match ← transactionLoadPartial h with
  | none => pure none
  | some tx => do
    let c ← findTailLoop (tx.currentIndex % 2 ^ 32) ⟨tx, false⟩
    if c.curr.currentIndex = 0 then pure (some c.curr.hash) else pure none

/-- `iota_spent_addresses_service_was_tx_spent_from`. -/
def wasTxSpentFrom (sponge : Sponge Hash) (tx : Transaction Hash) (h : Hash) :
    TangleM Hash Bool := do
  if tx.value < 0 then
    if tx.snapshotIndex ≠ 0 then pure true
    else do
      match ← findTail h with
      | none => pure false
      | some tail => do
        let r ← bundleValidatorValidate sponge tail
        pure (decide (r.2 = .valid))
  else pure false

/-! ## What the tables say -/

/-- The approver a step up goes to, and whether there is one. -/
def approverOf (t : Tangle Hash) (index : ℕ) :
    List Hash → TailSearch Hash → TailSearch Hash × Bool
  | [], c => (c, false)
  | h :: rest, c =>
    match t.transactions.find? h with
    | none => (c, false)
    | some next =>
      if c.accepts index next then (⟨next, true⟩, true)
      else t.approverOf index rest (c.pass next)

/-- Where the search ends. -/
def climb (t : Tangle Hash) : ℕ → TailSearch Hash → TailSearch Hash
  | 0, c => c
  | index + 1, c =>
    let r := t.approverOf index (t.approvers c.curr.hash) c
    if r.2 then t.climb index r.1 else r.1

/-- The tail the search reports for a hash. -/
def tailOf (t : Tangle Hash) (h : Hash) : Option Hash :=
  match t.transactions.find? h with
  | none => none
  | some tx =>
    let c := t.climb (tx.currentIndex % 2 ^ 32) ⟨tx, false⟩
    if c.curr.currentIndex = 0 then some c.curr.hash else none

/-- **A transaction that spends from its address**: it takes tokens off it, and is
confirmed or the bundle of its tail is reported valid. -/
def SpendsFrom (sponge : Sponge Hash) (t : Tangle Hash) (tx : Transaction Hash) (h : Hash) : Prop :=
  tx.value < 0 ∧ (tx.snapshotIndex ≠ 0 ∨
    ∃ tail, t.tailOf h = some tail ∧ reportedStatus sponge t tail = .valid)

variable {t t' : Tangle Hash} {h tail : Hash} {tx : Transaction Hash} {sponge : Sponge Hash}
  {c : TailSearch Hash} {index : ℕ}

theorem approverOf_of_sameTables (hs : SameTables t t') (hashes : List Hash) :
    t'.approverOf index hashes c = t.approverOf index hashes c := by
  induction hashes generalizing c with
  | nil => rfl
  | cons h rest ih =>
    rw [approverOf, approverOf, hs.1]
    cases t.transactions.find? h with
    | none => rfl
    | some next => simp only [ih]

theorem climb_of_sameTables (hs : SameTables t t') (n : ℕ) : t'.climb n c = t.climb n c := by
  induction n generalizing c with
  | zero => rfl
  | succ index ih =>
    rw [climb, climb, approvers_of_sameCore hs.sameCore, approverOf_of_sameTables hs]
    simp only [ih]

theorem findApproverLoop_ok {hashes : List Hash} {r : TailSearch Hash × Bool}
    (hr : findApproverLoop index hashes c t = .ok r t') :
    r = t.approverOf index hashes c ∧ SameTables t t' := by
  induction hashes generalizing c t with
  | nil =>
    cases hr
    exact ⟨rfl, .refl _⟩
  | cons h rest ih =>
    rw [findApproverLoop] at hr
    obtain ⟨o, t₁, h₁, h₂⟩ := bind_eq_ok.mp hr
    obtain ⟨rfl, hs⟩ := transactionLoadPartial_ok h₁
    rw [approverOf]
    cases hf : t.transactions.find? h with
    | none =>
      rw [hf] at h₂
      cases h₂
      exact ⟨rfl, hs⟩
    | some next =>
      rw [hf] at h₂
      dsimp only at h₂ ⊢
      split at h₂
      · rename_i hacc
        cases h₂
        exact ⟨(if_pos hacc).symm, hs⟩
      · rename_i hacc
        obtain ⟨rfl, hs'⟩ := ih h₂
        rw [if_neg hacc]
        exact ⟨approverOf_of_sameTables hs rest, hs.trans hs'⟩

theorem findTailLoop_ok {n : ℕ} {c' : TailSearch Hash} (hr : findTailLoop n c t = .ok c' t') :
    c' = t.climb n c ∧ SameTables t t' := by
  induction n generalizing c t with
  | zero =>
    cases hr
    exact ⟨rfl, .refl _⟩
  | succ index ih =>
    rw [findTailLoop] at hr
    obtain ⟨hashes, t₁, h₁, h₂⟩ := bind_eq_ok.mp hr
    obtain ⟨rfl, hs₁⟩ := loadHashesOfApprovers_ok h₁
    obtain ⟨r, t₂, h₃, h₄⟩ := bind_eq_ok.mp h₂
    obtain ⟨rfl, hs₂⟩ := findApproverLoop_ok h₃
    have hs := hs₁.trans hs₂
    rw [approverOf_of_sameTables hs₁] at h₄
    rw [climb]
    split at h₄
    · rename_i hfound
      obtain ⟨rfl, hs₃⟩ := ih h₄
      rw [if_pos hfound, climb_of_sameTables hs]
      exact ⟨rfl, hs.trans hs₃⟩
    · rename_i hfound
      cases h₄
      rw [if_neg hfound]
      exact ⟨rfl, hs⟩

/-- **What the tail search returns.** -/
theorem findTail_ok {o : Option Hash} (hr : findTail h t = .ok o t') :
    o = t.tailOf h ∧ SameTables t t' := by
  obtain ⟨o', t₁, h₁, h₂⟩ := bind_eq_ok.mp hr
  obtain ⟨rfl, hs₁⟩ := transactionLoadPartial_ok h₁
  rw [tailOf]
  cases hf : t.transactions.find? h with
  | none =>
    rw [hf] at h₂
    cases h₂
    exact ⟨rfl, hs₁⟩
  | some tx =>
    rw [hf] at h₂
    obtain ⟨c, t₂, h₃, h₄⟩ := bind_eq_ok.mp h₂
    obtain ⟨rfl, hs₂⟩ := findTailLoop_ok h₃
    rw [climb_of_sameTables hs₁] at h₄
    dsimp only
    split at h₄
    · rename_i hc
      cases h₄
      exact ⟨(if_pos hc).symm, hs₁.trans hs₂⟩
    · rename_i hc
      cases h₄
      exact ⟨(if_neg hc).symm, hs₁.trans hs₂⟩

/-! ## Up to validity -/

end Tangle

/-- A search without the cached validity of its transaction. -/
def TailSearch.core (c : TailSearch Hash) : TailSearch Hash := ⟨c.curr.core, c.shared⟩

omit [DecidableEq Hash] [HashBytes Hash] in
theorem TailSearch.core_pass (c : TailSearch Hash) (next : Transaction Hash) :
    (c.pass next).core = c.core.pass next.core := by
  unfold pass
  cases hs : c.shared with
  | false => simp [core, hs]
  | true => simp [core, hs]

omit [DecidableEq Hash] [HashBytes Hash] in
theorem TailSearch.accepts_iff_of_core {c c' : TailSearch Hash} {next next' : Transaction Hash}
    {index : ℕ} (hc : c'.core = c.core) (hn : next'.core = next.core) :
    c'.accepts index next' ↔ c.accepts index next := by
  have h : ∀ (c : TailSearch Hash) (next : Transaction Hash),
      c.accepts index next ↔ c.core.accepts index next.core := fun _ _ => Iff.rfl
  rw [h, hc, hn, ← h]

namespace Tangle

variable {t t' : Tangle Hash} {h tail : Hash} {tx : Transaction Hash} {sponge : Sponge Hash}
  {c : TailSearch Hash} {index : ℕ}

theorem approverOf_of_sameCore (index : ℕ) (hs : SameCore t t') {c' : TailSearch Hash}
    (hc : c'.core = c.core) (hashes : List Hash) :
    (t'.approverOf index hashes c').1.core = (t.approverOf index hashes c).1.core ∧
      (t'.approverOf index hashes c').2 = (t.approverOf index hashes c).2 := by
  induction hashes generalizing c c' with
  | nil => exact ⟨hc, rfl⟩
  | cons h rest ih =>
    rw [approverOf, approverOf]
    rcases find?_cases_of_sameCore hs h with ⟨hf, hf'⟩ | ⟨next, next', hf, hf', hn⟩
    · rw [hf, hf']
      exact ⟨hc, rfl⟩
    · rw [hf, hf']
      dsimp only
      by_cases hacc : c.accepts index next
      · rw [if_pos hacc, if_pos ((TailSearch.accepts_iff_of_core hc hn).mpr hacc)]
        exact ⟨congrArg (TailSearch.mk · true) hn, rfl⟩
      · rw [if_neg hacc, if_neg fun h => hacc ((TailSearch.accepts_iff_of_core hc hn).mp h)]
        exact ih (by rw [TailSearch.core_pass, TailSearch.core_pass, hc, hn])

theorem climb_of_sameCore (hs : SameCore t t') {c' : TailSearch Hash} (hc : c'.core = c.core)
    (n : ℕ) : (t'.climb n c').core = (t.climb n c).core := by
  induction n generalizing c c' with
  | zero => exact hc
  | succ index ih =>
    have hh : c'.curr.hash = c.curr.hash := congrArg (fun c => c.curr.hash) hc
    obtain ⟨h₁, h₂⟩ := approverOf_of_sameCore index hs hc (t.approvers c.curr.hash)
    rw [climb, climb, hh, approvers_of_sameCore hs]
    simp only [h₂]
    split
    · exact ih h₁
    · exact h₁

/-- **The tail of a transaction does not depend on validities.** -/
theorem tailOf_of_sameCore (hs : SameCore t t') (h : Hash) : t'.tailOf h = t.tailOf h := by
  rw [tailOf, tailOf]
  rcases find?_cases_of_sameCore hs h with ⟨hf, hf'⟩ | ⟨tx, tx', hf, hf', hn⟩
  · rw [hf, hf']
  · rw [hf, hf']
    have hidx : tx'.currentIndex = tx.currentIndex := congrArg (fun tx => tx.currentIndex) hn
    have hstart : TailSearch.core ⟨tx', false⟩ = TailSearch.core ⟨tx, false⟩ :=
      congrArg (TailSearch.mk · false) hn
    have hc := climb_of_sameCore hs hstart (tx.currentIndex % 2 ^ 32)
    have hci := congrArg (fun c => c.curr.currentIndex) hc
    have hch := congrArg (fun c => c.curr.hash) hc
    dsimp only [TailSearch.core, Transaction.core] at hci hch ⊢
    rw [hidx, hci, hch]

/-- The search only looks at stored transactions. -/
theorem find?_approverOf (index : ℕ) (hc : t.transactions.find? c.curr.hash = some c.curr)
    (hashes : List Hash) :
    t.transactions.find? (t.approverOf index hashes c).1.curr.hash =
      some (t.approverOf index hashes c).1.curr := by
  induction hashes generalizing c with
  | nil => exact hc
  | cons h rest ih =>
    rw [approverOf]
    cases hf : t.transactions.find? h with
    | none => exact hc
    | some next =>
      have hk : next.hash = h := Table.key_of_find? hf
      have hstored : t.transactions.find? next.hash = some next := hk ▸ hf
      dsimp only
      split
      · exact hstored
      · refine ih ?_
        unfold TailSearch.pass
        split
        · exact hstored
        · exact hc

theorem find?_climb (hc : t.transactions.find? c.curr.hash = some c.curr) (n : ℕ) :
    t.transactions.find? (t.climb n c).curr.hash = some (t.climb n c).curr := by
  induction n generalizing c with
  | zero => exact hc
  | succ index ih =>
    have hstep := find?_approverOf index hc (t.approvers c.curr.hash)
    rw [climb]
    split
    · exact ih hstep
    · exact hstep

/-- A tail that was found is a stored tail. -/
theorem stored_of_tailOf (htail : t.tailOf h = some tail) :
    ∃ tx, t.transactions.find? tail = some tx ∧ tx.currentIndex = 0 := by
  unfold tailOf at htail
  cases hf : t.transactions.find? h with
  | none => rw [hf] at htail; cases htail
  | some tx =>
    have hk : tx.hash = h := Table.key_of_find? hf
    simp only [hf] at htail
    split at htail
    · rename_i hc
      obtain rfl := Option.some.inj htail
      exact ⟨_, find?_climb (c := ⟨tx, false⟩) (hk ▸ hf) _, hc⟩
    · cases htail

/-! ## Spending over time -/

/-- Only validities differ, and no tail is reported valid that was not. -/
structure NoNewValid (sponge : Sponge Hash) (t t' : Tangle Hash) : Prop where
  same : SameCore t t'
  valid : ∀ {h tx}, t.transactions.find? h = some tx → tx.currentIndex = 0 →
    reportedStatus sponge t' h = .valid → reportedStatus sponge t h = .valid

theorem storeFrame_noNewValid (sponge : Sponge Hash) :
    StoreFrame (NoNewValid sponge) where
  refl := fun t => ⟨.refl t, fun _ _ h => h⟩
  trans := by
    intro s t u h h'
    refine ⟨h.1.trans h'.1, fun {x tx} hf hc hv => h.2 hf hc ?_⟩
    obtain ⟨tx', hf', hn⟩ := find?_some_of_sameCore h.1 hf
    exact h'.2 hf' ((congrArg (fun tx => tx.currentIndex) hn).trans hc) hv
  ofSameTables := fun h =>
    ⟨h.sameCore, fun _ _ hv => by rwa [reportedStatus_of_sameTables h] at hv⟩

theorem keeps_findApproverLoop (index : ℕ) (hashes : List Hash) (c : TailSearch Hash) :
    Keeps SameTables (findApproverLoop index hashes c) := by
  induction hashes generalizing c with
  | nil => exact Keeps.pure .refl _
  | cons h rest ih =>
    refine Keeps.bind SameTables.trans (keeps_read rfl _) fun o => ?_
    cases o with
    | none => exact Keeps.pure .refl _
    | some next =>
      dsimp only
      split
      · exact Keeps.pure .refl _
      · exact ih _

theorem keeps_findTailLoop (n : ℕ) (c : TailSearch Hash) :
    Keeps SameTables (findTailLoop n c) := by
  induction n generalizing c with
  | zero => exact Keeps.pure .refl _
  | succ index ih =>
    refine Keeps.bind SameTables.trans (keeps_read rfl _) fun hashes => ?_
    refine Keeps.bind SameTables.trans (keeps_findApproverLoop _ _ _) fun r => ?_
    split
    · exact ih _
    · exact Keeps.pure .refl _

theorem keeps_findTail (h : Hash) : Keeps SameTables (findTail h) := by
  refine Keeps.bind SameTables.trans (keeps_read rfl _) fun o => ?_
  cases o with
  | none => exact Keeps.pure .refl _
  | some tx =>
    refine Keeps.bind SameTables.trans (keeps_findTailLoop _ _) fun c => ?_
    split
    · exact Keeps.pure .refl _
    · exact Keeps.pure .refl _

/-- A validation that failed has written nothing. -/
theorem bundleValidatorValidate_error {e : Retcode}
    (hr : bundleValidatorValidate sponge tail t = .error e t') : SameTables t t' := by
  rcases bind_eq_error.mp hr with h₁ | ⟨bundle, t₁, h₁, h₂⟩
  · exact (keeps_bundleLoad tail).of_error h₁
  have hs₁ := (keeps_bundleLoad tail).of_ok h₁
  split at h₂
  · cases h₂
  rcases bind_eq_error.mp h₂ with h₃ | ⟨o, t₂, h₃, h₄⟩
  · exact hs₁.trans ((keeps_read rfl _).of_error h₃)
  have hs₂ := hs₁.trans ((keeps_read rfl _).of_ok h₃)
  cases o with
  | none =>
    cases h₄
    exact hs₂
  | some tx =>
    dsimp only at h₄
    split at h₄
    · cases h₄
    split at h₄
    · rcases bind_eq_error.mp h₄ with h₅ | ⟨_, t₃, -, h₆⟩
      · rcases bind_eq_error.mp h₅ with h₇ | ⟨_, t₄, -, h₈⟩
        · exact hs₂.trans ((keeps_attempt rfl).of_error h₇)
        · cases h₈
      · cases h₆
    · cases h₄

theorem keeps_noNewValid_validate (sponge : Sponge Hash) (tail : Hash) :
    Keeps (NoNewValid sponge) (bundleValidatorValidate sponge tail) := by
  rw [keeps_iff]
  constructor
  · rintro t ⟨bundle, status⟩ t' hr
    exact ⟨(keeps_bundleValidatorValidate sponge tail).of_ok hr,
      fun hf hc hv => reportedStatus_of_validate hr hf hc hv⟩
  · intro t e t' hr
    exact (storeFrame_noNewValid sponge).ofSameTables (bundleValidatorValidate_error hr)

/-- **Asking whether a transaction spends makes no transaction spend.** -/
theorem keeps_wasTxSpentFrom (sponge : Sponge Hash) (tx : Transaction Hash) (h : Hash) :
    Keeps (NoNewValid sponge) (wasTxSpentFrom sponge tx h) := by
  have hR := storeFrame_noNewValid sponge
  unfold wasTxSpentFrom
  split
  · split
    · exact Keeps.pure hR.refl _
    · refine Keeps.bind hR.trans (fun t => hR.ofSameTables (keeps_findTail h t)) fun o => ?_
      cases o with
      | none => exact Keeps.pure hR.refl _
      | some tail =>
        exact Keeps.bind hR.trans (keeps_noNewValid_validate sponge tail)
          fun _ => Keeps.pure hR.refl _
  · exact Keeps.pure hR.refl _

/-- **What the service answers** is whether the transaction spends. -/
theorem wasTxSpentFrom_ok {b : Bool} (hr : wasTxSpentFrom sponge tx h t = .ok b t') :
    b = true ↔ SpendsFrom sponge t tx h := by
  unfold wasTxSpentFrom at hr
  unfold SpendsFrom
  split at hr
  · rename_i hval
    split at hr
    · rename_i hidx
      cases hr
      exact ⟨fun _ => ⟨hval, .inl hidx⟩, fun _ => rfl⟩
    · rename_i hidx
      obtain ⟨o, t₁, h₁, h₂⟩ := bind_eq_ok.mp hr
      obtain ⟨rfl, hs⟩ := findTail_ok h₁
      cases htail : t.tailOf h with
      | none =>
        rw [htail] at h₂
        cases h₂
        simp [hidx]
      | some tail =>
        rw [htail] at h₂
        obtain ⟨⟨bundle, status⟩, t₂, h₃, h₄⟩ := bind_eq_ok.mp h₂
        cases h₄
        obtain ⟨-, -, hst, -⟩ := bundleValidatorValidate_ok h₃
        rw [reportedStatus_of_sameTables hs] at hst
        simp [hidx, hval, hst]
  · rename_i hval
    cases hr
    simp [hval]

theorem SpendsFrom.of_core {tx' : Transaction Hash} (hcore : tx'.core = tx.core) {x : Hash}
    (hx : SpendsFrom sponge t tx' x) : SpendsFrom sponge t tx x := by
  have hval : tx'.value = tx.value := congrArg (fun tx => tx.value) hcore
  have hidx : tx'.snapshotIndex = tx.snapshotIndex := congrArg (fun tx => tx.snapshotIndex) hcore
  unfold SpendsFrom at hx
  rwa [hval, hidx] at hx

/-- A transaction that spends later on spends now. -/
theorem SpendsFrom.of_noNewValid (h : NoNewValid sponge t t') {x : Hash}
    (hx : SpendsFrom sponge t' tx x) : SpendsFrom sponge t tx x := by
  refine ⟨hx.1, hx.2.imp_right fun ⟨tail, htail, hv⟩ => ⟨tail, ?_, ?_⟩⟩
  · rwa [tailOf_of_sameCore h.same] at htail
  · rw [tailOf_of_sameCore h.same] at htail
    obtain ⟨tx₁, hf, hc⟩ := stored_of_tailOf htail
    exact h.valid hf hc hv

/-! ## When nothing fails -/

theorem succeeds_findApproverLoop (index : ℕ) (hashes : List Hash) (c : TailSearch Hash) :
    Succeeds Quiet (findApproverLoop index hashes c) := by
  induction hashes generalizing c with
  | nil => exact Succeeds.pure _
  | cons h rest ih =>
    refine Succeeds.bind (succeeds_read _ _) fun o => ?_
    cases o with
    | none => exact Succeeds.pure _
    | some next =>
      dsimp only
      split
      · exact Succeeds.pure _
      · exact ih _

theorem succeeds_findTailLoop (n : ℕ) (c : TailSearch Hash) :
    Succeeds Quiet (findTailLoop n c) := by
  induction n generalizing c with
  | zero => exact Succeeds.pure _
  | succ index ih =>
    refine Succeeds.bind (succeeds_read _ _) fun hashes => ?_
    refine Succeeds.bind (succeeds_findApproverLoop _ _ _) fun r => ?_
    split
    · exact ih _
    · exact Succeeds.pure _

theorem succeeds_findTail (h : Hash) : Succeeds Quiet (findTail h) := by
  refine Succeeds.bind (succeeds_read _ _) fun o => ?_
  cases o with
  | none => exact Succeeds.pure _
  | some tx =>
    refine Succeeds.bind (succeeds_findTailLoop _ _) fun c => ?_
    split
    · exact Succeeds.pure _
    · exact Succeeds.pure _

/-- When nothing fails the service has an answer. -/
theorem succeeds_wasTxSpentFrom (sponge : Sponge Hash) (tx : Transaction Hash) (h : Hash) :
    Succeeds Quiet (wasTxSpentFrom sponge tx h) := by
  unfold wasTxSpentFrom
  split
  · split
    · exact Succeeds.pure _
    · intro t hq
      obtain ⟨o, t₁, h₁, hq₁⟩ := succeeds_findTail h t hq
      obtain ⟨rfl, hs⟩ := findTail_ok h₁
      rw [bind_apply_ok h₁]
      cases htail : t.tailOf h with
      | none => exact ⟨false, t₁, rfl, hq₁⟩
      | some tail =>
        obtain ⟨tx₁, hf, hc⟩ := stored_of_tailOf htail
        obtain ⟨r, t₂, h₂, hq₂⟩ := bundleValidatorValidate_of_quiet sponge hq₁
          (hs.1 ▸ hf) hc
        exact ⟨decide (r.2 = .valid), t₂, by dsimp only; rw [bind_apply_ok h₂]; rfl, hq₂⟩
  · exact Succeeds.pure _

end Tangle

end Entangled
