import Entangled.Tangle.Bundle
/-!
# Loading a bundle, buffer by buffer

`iota_tangle_bundle_load` with the buffer it loads into and the array it fills:
what it appended is there also when a load fails half way. The hash that the
loop compares against is a pointer into that buffer, so it follows the
transaction just loaded, and nothing in the loop asks which bundle a trunk
belongs to.

`appended_getElem?` says which transaction stands where; that the transactions
share the bundle of the tail is a property of the store and not of the loop
(`bundleLoad_unmixed_iff`).
-/

namespace Entangled

open Prog

variable {Hash : Type} [DecidableEq Hash] [HashBytes Hash]

/-- The store, the pack with its one buffer, and the array of the caller. -/
structure BundleLoading (Hash : Type) [HashBytes Hash] where
  tangle : Tangle Hash
  loaded : Bool
  currTx : Transaction Hash
  bundle : List (Transaction Hash)

/-- Programs over a load in progress. -/
abbrev LoadingM (Hash : Type) [HashBytes Hash] := EStateM Retcode (BundleLoading Hash)

namespace BundleLoading

/-- What `bundle_hash` points at: the field of the buffer whose address was taken
before the loop. -/
def bundleHash (s : BundleLoading Hash) : Hash := s.currTx.bundle

/-- Reset the pack and load a transaction into the buffer. A hash without a row
leaves the buffer as it was. -/
def loadTransaction (h : Hash) : LoadingM Hash Unit := do
  match ← zoom BundleLoading.tangle (fun t s => { s with tangle := t })
      (Tangle.transactionLoad h) with
  | none => update fun s => { s with loaded := false }
  | some tx => update fun s => { s with loaded := true, currTx := tx }

/-- The loop, with `n` indexes left up to `last_index`. -/
def appendLoop : ℕ → LoadingM Hash Unit
  | 0 => pure ()
  | n + 1 => do
    let s ← gets id
    if s.loaded = true ∧ s.bundleHash = s.currTx.bundle then do
      update fun s => { s with bundle := s.bundle ++ [s.currTx] }
      loadTransaction s.currTx.trunk
      appendLoop n
    else pure ()

/-- `iota_tangle_bundle_load`, appending to the array of the state. -/
def bundleLoadInto (tail : Hash) : LoadingM Hash Unit := do
  loadTransaction tail
  let s ← gets id
  if s.loaded = false then fail .tangleTailNotFound
  else if s.currTx.currentIndex ≠ 0 then fail .tangleNotATail
  else appendLoop (s.currTx.lastIndex + 1)

/-- The state a call starts in: an empty array and an unused buffer. -/
def start (t : Tangle Hash) (buffer : Transaction Hash) : BundleLoading Hash :=
  ⟨t, false, buffer, []⟩

/-- The transactions a call appends, whether it returns or fails. -/
def appended (t : Tangle Hash) (buffer : Transaction Hash) (tail : Hash) :
    List (Transaction Hash) :=
  (final (bundleLoadInto tail) (start t buffer)).bundle

/-! ## One load -/

variable {s : BundleLoading Hash} {h tail : Hash} {tx : Transaction Hash} {t : Tangle Hash}

/-- Whether the load after `k` more of them fails. -/
def fails (t : Tangle Hash) (k : ℕ) : Prop := (t.faults .transactionLoad)[k]? = some true

/-- The state after a load of `h` that did not fail. -/
def afterLoad (s : BundleLoading Hash) (h : Hash) : BundleLoading Hash :=
  match s.tangle.transactions.find? h with
  | none => { s with tangle := s.tangle.popped .transactionLoad, loaded := false }
  | some tx => { s with tangle := s.tangle.popped .transactionLoad, loaded := true, currTx := tx }

theorem transactionLoad_eq (t : Tangle Hash) (h : Hash) :
    Tangle.transactionLoad h t =
      if t.succeeds .transactionLoad then .ok (t.transactions.find? h) (t.popped .transactionLoad)
      else .error .storageFailed (t.popped .transactionLoad) := by
  have ha := Tangle.attempt_eq .transactionLoad t
  unfold Tangle.transactionLoad
  by_cases hs : t.succeeds .transactionLoad = true
  · rw [if_pos hs] at ha ⊢
    rw [bind_apply_ok ha]
    exact gets_apply
  · rw [if_neg hs] at ha ⊢
    rw [bind_apply_error ha]

theorem loadTransaction_eq (s : BundleLoading Hash) (h : Hash) :
    loadTransaction h s =
      if s.tangle.succeeds .transactionLoad then .ok () (s.afterLoad h)
      else .error .storageFailed { s with tangle := s.tangle.popped .transactionLoad } := by
  have ht := transactionLoad_eq s.tangle h
  by_cases hs : s.tangle.succeeds .transactionLoad = true
  · rw [if_pos hs] at ht ⊢
    have hz : zoom BundleLoading.tangle (fun t s => { s with tangle := t })
        (Tangle.transactionLoad h) s = .ok (s.tangle.transactions.find? h)
          { s with tangle := s.tangle.popped .transactionLoad } := zoom_eq_ok.mpr ⟨_, ht, rfl⟩
    rw [loadTransaction, bind_apply_ok hz, afterLoad]
    cases s.tangle.transactions.find? h <;> rfl
  · rw [if_neg hs] at ht ⊢
    exact bind_apply_error (zoom_eq_error.mpr ⟨_, ht, rfl⟩)

omit [DecidableEq Hash] in
theorem succeeds_iff_not_fails (t : Tangle Hash) :
    t.succeeds .transactionLoad = true ↔ ¬ fails t 0 := by
  unfold Tangle.succeeds fails
  rw [bne_iff_ne, List.head?_eq_getElem?]

omit [DecidableEq Hash] in
theorem fails_popped (t : Tangle Hash) (k : ℕ) :
    fails (t.popped .transactionLoad) k ↔ fails t (k + 1) := by
  simp only [fails, Tangle.popped, Function.update_self, List.getElem?_tail]

/-! ## What the loop appends -/

/-- The transaction `k` trunk links away. -/
def trunkAt (txs : Table (fun tx : Transaction Hash => tx.hash)) (tx : Transaction Hash) :
    ℕ → Option (Transaction Hash)
  | 0 => some tx
  | k + 1 => (trunkAt txs tx k).bind fun x => txs.find? x.trunk

omit [HashBytes Hash] in
theorem trunkAt_succ (txs : Table (fun tx : Transaction Hash => tx.hash)) (tx : Transaction Hash)
    (k : ℕ) :
    trunkAt txs tx (k + 1) = (txs.find? tx.trunk).bind fun next => trunkAt txs next k := by
  induction k with
  | zero =>
    rw [trunkAt, trunkAt, Option.bind_some]
    cases txs.find? tx.trunk <;> rfl
  | succ k ih =>
    rw [trunkAt, ih]
    cases txs.find? tx.trunk <;> rfl

/-- **What the loop appends**: position by position the trunk links of the buffer,
until the indexes or the rows run out or a load fails. -/
theorem appendLoop_bundle (n : ℕ) (s : BundleLoading Hash) (hs : s.loaded = true) :
    ∃ l, (final (appendLoop n) s).bundle = s.bundle ++ l ∧ ∀ k x, l[k]? = some x ↔
      k < n ∧ (∀ j < k, ¬ fails s.tangle j) ∧
        trunkAt s.tangle.transactions s.currTx k = some x := by
  induction n generalizing s with
  | zero => exact ⟨[], by rw [appendLoop, final_pure, List.append_nil], by simp⟩
  | succ n ih =>
    -- the comparison is of the buffer with itself
    have hcond : s.loaded = true ∧ s.bundleHash = s.currTx.bundle := ⟨hs, rfl⟩
    have hstep : final (appendLoop (n + 1)) s =
        final (loadTransaction s.currTx.trunk >>= fun _ => appendLoop n)
          { s with bundle := s.bundle ++ [s.currTx] } := by
      rw [appendLoop, final_gets_bind]
      dsimp only [id]
      rw [if_pos hcond, final_update_bind]
    have hload := loadTransaction_eq { s with bundle := s.bundle ++ [s.currTx] } s.currTx.trunk
    rw [hstep]
    by_cases hf : fails s.tangle 0
    · -- the next load fails: the buffer was the last one
      have hsucc : ¬ s.tangle.succeeds .transactionLoad = true := fun hc =>
        (succeeds_iff_not_fails _).mp hc hf
      rw [if_neg hsucc] at hload
      rw [final_bind_of_error hload]
      refine ⟨[s.currTx], rfl, fun k x => ?_⟩
      rcases k with _ | k
      · simp [trunkAt]
      · simp only [List.getElem?_cons_succ, List.getElem?_nil, reduceCtorEq, false_iff]
        rintro ⟨-, hno, -⟩
        exact hno 0 (Nat.succ_pos k) hf
    · rw [if_pos ((succeeds_iff_not_fails _).mpr hf)] at hload
      rw [final_bind_of_ok hload]
      unfold afterLoad
      cases hrow : s.tangle.transactions.find? s.currTx.trunk with
      | none =>
        -- without a row nothing is loaded, and the loop is over
        have hend : final (appendLoop n) { s with
            tangle := s.tangle.popped .transactionLoad, loaded := false,
            bundle := s.bundle ++ [s.currTx] } =
            { s with tangle := s.tangle.popped .transactionLoad, loaded := false,
                     bundle := s.bundle ++ [s.currTx] } := by
          cases n with
          | zero => rfl
          | succ n =>
            rw [appendLoop, final_gets_bind]
            rfl
        simp only [hend]
        refine ⟨[s.currTx], rfl, fun k x => ?_⟩
        rcases k with _ | k
        · simp [trunkAt]
        · simp [trunkAt_succ, hrow]
      | some next =>
        obtain ⟨l, hl, hspec⟩ := ih { s with
          tangle := s.tangle.popped .transactionLoad, loaded := true, currTx := next,
          bundle := s.bundle ++ [s.currTx] } rfl
        simp only [hl]
        refine ⟨s.currTx :: l, by simp, fun k x => ?_⟩
        rcases k with _ | k
        · simp [trunkAt]
        · rw [List.getElem?_cons_succ, hspec k x, trunkAt_succ, hrow, Option.bind_some]
          constructor
          · rintro ⟨hk, hno, hx⟩
            refine ⟨by omega, fun j hj => ?_, hx⟩
            rcases j with _ | j
            · exact hf
            · exact fun hc => hno j (by omega) ((fails_popped _ j).mpr hc)
          · rintro ⟨hk, hno, hx⟩
            exact ⟨by omega, fun j hj hc => hno (j + 1) (by omega) ((fails_popped _ j).mp hc), hx⟩

/-- **What a call appends**, for a tail that is stored. -/
theorem appended_getElem? (buffer : Transaction Hash) (hf : t.transactions.find? tail = some tx)
    (hc : tx.currentIndex = 0) (k : ℕ) (x : Transaction Hash) :
    (appended t buffer tail)[k]? = some x ↔
      k ≤ tx.lastIndex ∧ (∀ j ≤ k, ¬ fails t j) ∧ trunkAt t.transactions tx k = some x := by
  have hload : loadTransaction tail (start t buffer) =
      if t.succeeds .transactionLoad then .ok () ((start t buffer).afterLoad tail)
      else .error .storageFailed { start t buffer with tangle := t.popped .transactionLoad } :=
    loadTransaction_eq (start t buffer) tail
  unfold appended
  rw [bundleLoadInto]
  by_cases hfail : fails t 0
  · rw [if_neg fun hs => (succeeds_iff_not_fails t).mp hs hfail] at hload
    rw [final_bind_of_error hload]
    simp only [start, List.getElem?_nil, reduceCtorEq, false_iff]
    rintro ⟨-, hno, -⟩
    exact hno 0 (Nat.zero_le k) hfail
  · rw [if_pos ((succeeds_iff_not_fails t).mpr hfail)] at hload
    rw [final_bind_of_ok hload, final_gets_bind]
    have hs : (start t buffer).afterLoad tail =
        ⟨t.popped .transactionLoad, true, tx, []⟩ := by
      rw [afterLoad, start]
      simp only [hf]
    rw [hs]
    simp only [id, Bool.true_eq_false, if_false, hc, ne_eq, not_true_eq_false]
    obtain ⟨l, hl, hspec⟩ := appendLoop_bundle (tx.lastIndex + 1)
      ⟨t.popped .transactionLoad, true, tx, []⟩ rfl
    rw [hl, List.nil_append, hspec k x]
    constructor
    · rintro ⟨hk, hno, hx⟩
      refine ⟨by omega, fun j hj => ?_, hx⟩
      rcases j with _ | j
      · exact hfail
      · exact fun hc => hno j (by omega) ((fails_popped t j).mpr hc)
    · rintro ⟨hk, hno, hx⟩
      exact ⟨by omega, fun j hj hc => hno (j + 1) (by omega) ((fails_popped t j).mp hc), hx⟩

/-! ## The load of the validator -/

theorem appendLoop_run (n : ℕ) (s : BundleLoading Hash) (hs : s.loaded = true) :
    (∀ b t', Tangle.bundleLoadLoop n s.currTx s.tangle = .ok b t' →
      ∃ s', appendLoop n s = .ok () s' ∧ s'.tangle = t' ∧ s'.bundle = s.bundle ++ b) ∧
    (∀ e t', Tangle.bundleLoadLoop n s.currTx s.tangle = .error e t' →
      ∃ s', appendLoop n s = .error e s' ∧ s'.tangle = t') := by
  induction n generalizing s with
  | zero =>
    refine ⟨fun b t' h => ?_, fun e t' h => (by cases h)⟩
    cases h
    exact ⟨s, rfl, rfl, (List.append_nil _).symm⟩
  | succ n ih =>
    have hcond : s.loaded = true ∧ s.bundleHash = s.currTx.bundle := ⟨hs, rfl⟩
    have hstep : appendLoop (n + 1) s =
        (loadTransaction s.currTx.trunk >>= fun _ => appendLoop n)
          { s with bundle := s.bundle ++ [s.currTx] } := by
      rw [appendLoop, gets_bind]
      dsimp only [id]
      rw [if_pos hcond, update_bind]
    have hload := loadTransaction_eq { s with bundle := s.bundle ++ [s.currTx] } s.currTx.trunk
    have ht := transactionLoad_eq s.tangle s.currTx.trunk
    rw [hstep, Tangle.bundleLoadLoop]
    by_cases hsucc : s.tangle.succeeds .transactionLoad = true
    · rw [if_pos hsucc] at ht
      rw [if_pos hsucc, afterLoad] at hload
      rw [bind_apply_ok ht, bind_apply_ok hload]
      cases hrow : s.tangle.transactions.find? s.currTx.trunk with
      | none =>
        refine ⟨fun b t' h => ?_, fun e t' h => (by cases h)⟩
        cases h
        refine ⟨{ s with tangle := s.tangle.popped .transactionLoad, loaded := false,
                         bundle := s.bundle ++ [s.currTx] }, ?_, rfl, rfl⟩
        cases n with
        | zero => rfl
        | succ n => rfl
      | some next =>
        obtain ⟨hok, herr⟩ := ih { s with
          tangle := s.tangle.popped .transactionLoad, loaded := true, currTx := next,
          bundle := s.bundle ++ [s.currTx] } rfl
        constructor
        · intro b t' h
          obtain ⟨rest, t₁, h₁, h₂⟩ := bind_eq_ok.mp h
          cases h₂
          obtain ⟨s', hr, htan, hb⟩ := hok rest t' h₁
          exact ⟨s', hr, htan, by rw [hb]; simp⟩
        · intro e t' h
          rcases bind_eq_error.mp h with h₁ | ⟨_, t₁, -, h₂⟩
          · exact herr e t' h₁
          · cases h₂
    · rw [if_neg hsucc] at ht hload
      rw [bind_apply_error ht, bind_apply_error hload]
      refine ⟨fun b t' h => (by cases h), fun e t' h => ?_⟩
      cases h
      exact ⟨_, rfl, rfl⟩

/-- **The load the validators call is this one**: where it returns a bundle, that is
what was appended. -/
theorem appended_of_bundleLoad {buffer : Transaction Hash} {b : List (Transaction Hash)}
    {t' : Tangle Hash} (h : Tangle.bundleLoad tail t = .ok b t') :
    appended t buffer tail = b := by
  obtain ⟨o, t₁, h₁, h₂⟩ := bind_eq_ok.mp h
  have hload : loadTransaction tail (start t buffer) =
      if t.succeeds .transactionLoad then .ok () ((start t buffer).afterLoad tail)
      else .error .storageFailed { start t buffer with tangle := t.popped .transactionLoad } :=
    loadTransaction_eq (start t buffer) tail
  rw [transactionLoad_eq] at h₁
  by_cases hsucc : t.succeeds .transactionLoad = true
  · rw [if_pos hsucc] at h₁ hload
    cases h₁
    cases hf : t.transactions.find? tail with
    | none => rw [hf] at h₂; cases h₂
    | some tx =>
      rw [hf] at h₂
      have hs : (start t buffer).afterLoad tail = ⟨t.popped .transactionLoad, true, tx, []⟩ := by
        rw [afterLoad, start]
        simp only [hf]
      by_cases hc : tx.currentIndex = 0
      · simp only [hc, ne_eq, not_true_eq_false, if_false] at h₂
        obtain ⟨s', hr, -, hb⟩ := (appendLoop_run (tx.lastIndex + 1)
          ⟨t.popped .transactionLoad, true, tx, []⟩ rfl).1 b t' h₂
        unfold appended
        rw [bundleLoadInto, final_bind_of_ok hload, final_gets_bind, hs]
        simp only [id, Bool.true_eq_false, if_false, hc, ne_eq, not_true_eq_false]
        rw [final_of_ok hr, hb]
        rfl
      · simp only [ne_eq, hc, not_false_eq_true, if_true] at h₂
        cases h₂
  · rw [if_neg hsucc] at h₁
    cases h₁

/-! ## Bundles that stay apart -/

/-- What a load should give for a tail: transactions of its bundle, each the trunk
of the one before, no more of them than the bundle has. -/
structure Unmixed (tx : Transaction Hash) (bundle : List (Transaction Hash)) : Prop where
  same : ∀ x ∈ bundle, x.bundle = tx.bundle
  linked : ∀ k x y, bundle[k]? = some x → bundle[k + 1]? = some y → y.hash = x.trunk
  length : bundle.length ≤ tx.lastIndex + 1

/-- No transaction that is loaded within `last_index` trunk links of the tail
carries the hash of another bundle. -/
def StaysInBundle (t : Tangle Hash) (tx : Transaction Hash) : Prop :=
  ∀ k ≤ tx.lastIndex, (∀ j ≤ k, ¬ fails t j) →
    ∀ x, trunkAt t.transactions tx k = some x → x.bundle = tx.bundle

/-- **A load keeps to the bundle exactly when the trunks do.** The order and the
number of the transactions are always right. -/
theorem bundleLoad_unmixed_iff (t : Tangle Hash) (buffer : Transaction Hash) (tail : Hash)
    (tx : Transaction Hash) (hf : t.transactions.find? tail = some tx) (hc : tx.currentIndex = 0) :
    Unmixed tx (appended t buffer tail) ↔ StaysInBundle t tx := by
  have hspec := appended_getElem? buffer hf hc
  constructor
  · intro h k hk hno x hx
    exact h.same x (List.mem_of_getElem? ((hspec k x).mpr ⟨hk, hno, hx⟩))
  · intro h
    refine ⟨fun x hx => ?_, fun k x y hx hy => ?_, ?_⟩
    · obtain ⟨k, hk⟩ := List.mem_iff_getElem?.mp hx
      obtain ⟨hle, hno, htr⟩ := (hspec k x).mp hk
      exact h k hle hno x htr
    · obtain ⟨-, -, htx⟩ := (hspec k x).mp hx
      obtain ⟨-, -, hty⟩ := (hspec (k + 1) y).mp hy
      rw [trunkAt, htx, Option.bind_some] at hty
      exact Table.key_of_find? hty
    · by_contra hlen
      have hlt : tx.lastIndex + 1 < (appended t buffer tail).length := by omega
      obtain ⟨hle, -⟩ := (hspec _ _).mp (List.getElem?_eq_getElem hlt)
      omega

/-! ## A trunk into another bundle -/

/-- A tail of bundle 0 announcing two transactions, whose trunk is the tail of
bundle 7. -/
def crossingTangle : Tangle (Fin 256) where
  transactions := ⟨[plainTx 1 2 2 10 0 0 1, { plainTx 2 0 0 10 0 0 0 with bundle := 7 }],
    by decide⟩
  milestones := ⟨⟨[], by decide⟩, by decide⟩
  faults := fun _ => []

/-- **A trunk into another bundle is followed**: the second transaction loaded for
the tail 1 belongs to bundle 7. -/
theorem bundleLoad_mixes :
    crossingTangle.transactions.find? 1 = some (plainTx 1 2 2 10 0 0 1) ∧
      (plainTx 1 2 2 10 0 0 1).currentIndex = 0 ∧
      ¬ Unmixed (plainTx 1 2 2 10 0 0 1)
        (appended crossingTangle (plainTx 0 0 0 0 0 0 0) 1) := by
  refine ⟨by decide, rfl, fun h => ?_⟩
  have hsame := h.same { plainTx 2 0 0 10 0 0 0 with bundle := 7 } (by decide +kernel)
  exact absurd hsame (by decide)

/-- A tail whose trunk is in its bundle. -/
def stayingTangle : Tangle (Fin 256) where
  transactions := ⟨[plainTx 1 2 2 10 0 0 1, plainTx 2 0 0 10 0 1 1], by decide⟩
  milestones := ⟨⟨[], by decide⟩, by decide⟩
  faults := fun _ => []

/-- Both transactions of the bundle are loaded, and no other. -/
theorem bundleLoad_keeps_apart :
    Unmixed (plainTx 1 2 2 10 0 0 1) (appended stayingTangle (plainTx 0 0 0 0 0 0 0) 1) := by
  refine (bundleLoad_unmixed_iff stayingTangle _ 1 _ (by decide) rfl).mpr fun k hk _ x hx => ?_
  have hk' : k ≤ 1 := hk
  obtain rfl | rfl : k = 0 ∨ k = 1 := by omega
  · cases hx
    rfl
  · have hx' : some x = some (plainTx 2 0 0 10 0 1 1) := hx.symm.trans (by decide)
    cases hx'
    rfl

end BundleLoading

end Entangled
