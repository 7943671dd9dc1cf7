import Entangled.Ledger.Cone
/-!
# The delta of a cone, and when there is none

A walk for a delta stops at the first bundle the validator does not report valid. Statuses are
written while it goes on, but only where a bundle was valid, so a tail reports what it reported when
the walk started. So the delta is called invalid exactly when some tail of the cone has a bundle
that is not reported valid; otherwise the walk has gone through the whole cone and the delta is the
change of its valid bundles, each taken once.
-/

namespace Entangled

open Prog Search

variable {Hash : Type} [DecidableEq Hash] [HashBytes Hash]

namespace Tangle

variable {sponge : Sponge Hash} {t t' : Tangle Hash} {tail h : Hash} {tx : Transaction Hash}
  {bundle : List (Transaction Hash)}

/-- **A valid bundle changes no report**: its status is written to its own tail and to no other. -/
theorem reportedStatus_of_valid
    (hr : bundleValidatorValidate sponge tail t = .ok (bundle, .valid) t')
    (hf : t.transactions.find? h = some tx) (hc : tx.currentIndex = 0) :
    reportedStatus sponge t' h = reportedStatus sponge t h := by
  obtain ⟨-, -, -, hs | ⟨-, hs⟩⟩ := bundleValidatorValidate_ok hr
  · exact reportedStatus_of_sameTables hs h
  · have hst : reportedStatus sponge t' h =
        if h ∈ bundle.map (·.hash) then .valid else reportedStatus sponge t h :=
      (reportedStatus_of_sameTables hs h).trans
        (reportedStatus_withValidity hf (bundle.map (·.hash)) (by decide))
    rw [hst]
    split_ifs with hm
    · rw [if_pos hm] at hst
      exact (reportedStatus_of_validate hr hf hc hst).symm
    · rfl

end Tangle

namespace Ledger

/-- An unconfirmed tail of the cone whose bundle is not reported valid. -/
def InvalidTail (sponge : Sponge Hash) (t : Tangle Hash) (index : ℕ) (blocked : List Hash)
    (tip x : Hash) : Prop :=
  Cone t.core index blocked tip x ∧ ∃ tx, t.transactions.find? x = some tx ∧
    unconfirmed index tx = true ∧ tx.currentIndex = 0 ∧
    Tangle.reportedStatus sponge t x ≠ .valid

/-- **The change of an address by the valid bundles of a cone**, in unbounded integers. -/
noncomputable def validChange (sponge : Sponge Hash) (t : Tangle Hash) (index : ℕ)
    (blocked : List Hash) (tip a : Hash) : ℤ :=
  ∑ᶠ h ∈ {h | Cone t.core index blocked tip h ∧ Tangle.reportedStatus sponge t h = .valid},
    change t.core index h a

variable {sponge : Sponge Hash} {t t' t₀ : Tangle Hash} {index : ℕ} {h tip genesis a : Hash}
  {analyzed blocked order stack : List Hash} {w w₁ w' : Walk Hash (LatestDelta Hash)}
  {v : Verdict Hash} {tx : Transaction Hash}

/-- When every tail of the cone is valid, the valid bundles are all. -/
theorem validChange_eq (hvalid : ∀ x, ¬InvalidTail sponge t index blocked tip x) (a : Hash) :
    validChange sponge t index blocked tip a = netChange t.core index blocked tip a := by
  refine finsum_mem_inter_support_eq' _ _ _ fun x hx => ?_
  refine ⟨And.left, fun hcone => ⟨hcone, ?_⟩⟩
  by_contra hst
  -- a hash that changes something is an unconfirmed tail
  refine hx ?_
  dsimp only
  rw [change, Tangle.find?_core]
  cases hf : t.transactions.find? x with
  | none => rfl
  | some tx =>
    refine if_neg fun htail => hvalid x ⟨hcone, tx, hf, htail.1, htail.2, hst⟩

/-- A verdict that stops the walk comes from a bundle that is not valid. -/
theorem getLatestDeltaFunc_stop (hr : getLatestDeltaFunc sponge index h analyzed w = .ok v w')
    (hstop : v.shouldStop = true) :
    ∃ tx b status t₁, w.pack.model = some tx ∧ unconfirmed index tx = true ∧
      tx.currentIndex = 0 ∧
      Tangle.bundleValidatorValidate sponge h w.tangle = .ok (b, status) t₁ ∧ status ≠ .valid ∧
      w'.data.validDelta = false := by
  rw [getLatestDeltaFunc, gets_bind] at hr
  cases hm : w.pack.model with
  | none => rw [hm] at hr; cases hr
  | some tx =>
    simp only [hm] at hr
    split_ifs at hr with hu hc
    · cases hr
      cases hstop
    · cases hr
      cases hstop
    obtain ⟨⟨b, status⟩, w₂, hval, hrest⟩ := bind_eq_ok.mp hr
    obtain ⟨t₁, ht₁, rfl⟩ := zoom_eq_ok.mp hval
    by_cases hbad : status ≠ .valid ∨ b = []
    · simp only [hbad, if_true] at hrest
      obtain ⟨_, w₃, hset, hpure⟩ := bind_eq_ok.mp hrest
      cases hset
      cases hpure
      refine ⟨tx, b, status, t₁, rfl, by simpa using hu, not_not.mp hc, ht₁, ?_, rfl⟩
      -- the bundle of a stored tail is not empty
      obtain ⟨⟨tx', hf, hc'⟩, rfl, -, -⟩ := Tangle.bundleValidatorValidate_ok ht₁
      exact hbad.resolve_right (Tangle.bundleOf_ne_nil hf hc')
    · simp only [hbad, if_false] at hrest
      rw [gets_bind] at hrest
      obtain ⟨d', w₄, -, hrest⟩ := bind_eq_ok.mp hrest
      obtain ⟨_, w₅, -, hpure⟩ := bind_eq_ok.mp hrest
      cases hpure
      cases hstop

/-! ## Reports along the walk -/

/-- What the tails of a walk report: what they reported when it started, and those it has visited
are valid. -/
structure Reports (sponge : Sponge Hash) (t₀ : Tangle Hash) (index : ℕ) (order : List Hash)
    (t : Tangle Hash) : Prop where
  unchanged : ∀ x tx, t₀.transactions.find? x = some tx → tx.currentIndex = 0 →
    Tangle.reportedStatus sponge t x = Tangle.reportedStatus sponge t₀ x
  valid : ∀ x ∈ order, ∀ tx, t₀.transactions.find? x = some tx → unconfirmed index tx = true →
    tx.currentIndex = 0 → Tangle.reportedStatus sponge t₀ x = .valid

theorem Reports.of_sameTables (h : Reports sponge t₀ index order t) (hs : Tangle.SameTables t t') :
    Reports sponge t₀ index order t' where
  unchanged x tx hf hc := (Tangle.reportedStatus_of_sameTables hs x).trans (h.unchanged x tx hf hc)
  valid := h.valid

theorem find?_of_core (hs : Tangle.SameCore t t') (hf : t.transactions.find? h = some tx) :
    ∃ tx', t'.transactions.find? h = some tx' ∧ tx'.core = tx.core := by
  have hmap : (t'.transactions.find? h).map Transaction.core = some tx.core := by
    rw [← Tangle.find?_core, hs.1, Tangle.find?_core, hf, Option.map_some]
  exact Option.map_eq_some_iff.mp hmap

/-- A walk for a delta and the reports of its tails. -/
structure ReportedWalk (sponge : Sponge Hash) (t₀ : Tangle Hash) (index : ℕ)
    (blocked : List Hash) (tip : Hash) (order stack : List Hash) (w : Walk Hash (LatestDelta Hash)) :
    Prop where
  walk : DeltaWalk sponge t₀ index blocked tip order stack w
  reports : Reports sponge t₀ index order w.tangle

/-- **A round keeps the reports.** -/
theorem Reports.visit (hw : DeltaWalk sponge t₀ index blocked tip order (h :: stack) w)
    (hrep : Reports sponge t₀ index order w.tangle) (hload : Walk.loadPack h w = .ok () w₁)
    (hfunc : getLatestDeltaFunc sponge index h analyzed w₁ = .ok v w')
    (hgo : v.shouldStop = false) : Reports sponge t₀ index (order ++ [h]) w'.tangle := by
  have hs₁ := (Walk.loadPack_ok hload).1
  have hrep₁ := hrep.of_sameTables hs₁
  obtain ⟨tx, hm, -, -, hcases⟩ := getLatestDeltaFunc_ok hfunc
  obtain ⟨-, hfx, hor⟩ := hw.buffer hload hm
  -- a stored hash has its own row in the buffer
  have hrow : ∀ tx', t₀.transactions.find? h = some tx' → tx'.core = tx.core := by
    intro tx' hf
    have hcore : t₀.core.find? h = some tx'.core := by
      rw [Tangle.find?_core, hf, Option.map_some]
    rcases hor with hnone | rfl
    · rw [hcore] at hnone
      cases hnone
    · exact Option.some.inj (hcore.symm.trans hfx)
  have hidle : ¬(unconfirmed index tx = true ∧ tx.currentIndex = 0) → w' = w₁ →
      Reports sponge t₀ index (order ++ [h]) w'.tangle := by
    rintro hn rfl
    refine ⟨hrep₁.unchanged, fun x hx tx' hf hu hc => ?_⟩
    rcases List.mem_append.mp hx with hx | hx
    · exact hrep₁.valid x hx tx' hf hu hc
    · obtain rfl := List.mem_singleton.mp hx
      have hcore := hrow tx' hf
      refine absurd ⟨?_, ?_⟩ hn
      · rw [← unconfirmed_core, ← hcore, unconfirmed_core, hu]
      · exact (congrArg Transaction.currentIndex hcore).symm.trans hc
  rcases hcases with ⟨hu, -, -, rfl⟩ | ⟨-, hc, -, -, rfl⟩ | ⟨hstop, -⟩ |
    ⟨hu, hc, -, -, b, t₁, hval, hadd, -⟩
  · refine hidle (fun hn => ?_) rfl
    exact Bool.noConfusion (hu.symm.trans hn.1)
  · exact hidle (fun hn => hc hn.2) rfl
  · rw [hstop] at hgo
    cases hgo
  · obtain ⟨-, -, hs₂⟩ := addBundle_ok hadd
    have hsame := hw.same.trans hs₁.sameCore
    refine Reports.of_sameTables ⟨fun x tx' hf hc' => ?_, fun x hx tx' hf hu' hc' => ?_⟩ hs₂
    · obtain ⟨tx₁, hf₁, hcore⟩ := find?_of_core hsame hf
      have hc₁ : tx₁.currentIndex = 0 := (congrArg Transaction.currentIndex hcore).trans hc'
      rw [Tangle.reportedStatus_of_valid hval hf₁ hc₁]
      exact hrep₁.unchanged x tx' hf hc'
    · rcases List.mem_append.mp hx with hx | hx
      · exact hrep₁.valid x hx tx' hf hu' hc'
      · obtain rfl := List.mem_singleton.mp hx
        obtain ⟨-, -, hst, -⟩ := Tangle.bundleValidatorValidate_ok hval
        rw [← hrep₁.unchanged x tx' hf hc', ← hst]

theorem reportedWalk_invariant (sponge : Sponge Hash) (t₀ : Tangle Hash) (index : ℕ)
    (blocked : List Hash) (tip : Hash) :
    Invariant (Walk.visitPast (getLatestDeltaFunc sponge index)) fun stack seen w =>
      ∃ order, seen = blocked ++ order ∧
        ReportedWalk sponge t₀ index blocked tip order stack w where
  skip := by
    rintro h stack seen w ⟨order, rfl, hw⟩ hmem
    exact ⟨order, rfl, { hw.walk with explored := hw.walk.explored.skip hmem }, hw.reports⟩
  push := by
    rintro h stack seen w r w' ⟨order, rfl, hw⟩ hfresh hr hstop
    obtain ⟨order', hseen', hw'⟩ := (deltaWalk_invariant sponge t₀ index blocked tip).push
      ⟨order, rfl, hw.walk⟩ hfresh hr hstop
    obtain ⟨w₁, v, hload, hfunc, hgo, hseen, -⟩ := Walk.visitPast_ok hr hstop
    obtain ⟨-, -, -, han, -⟩ := getLatestDeltaFunc_ok hfunc
    have horder : order' = order ++ [h] := by
      rw [hseen', han, hashSetAdd_of_not_mem hfresh, List.append_assoc] at hseen
      exact List.append_cancel_left hseen
    exact ⟨order', hseen', hw', horder ▸ hw.reports.visit hw.walk hload hfunc hgo⟩

/-! ## What is reported at the end -/

/-- What a run for a delta has reported. -/
structure Extracted (sponge : Sponge Hash) (t : Tangle Hash) (index : ℕ) (blocked : List Hash)
    (tip : Hash) (seen : List Hash) (ld : LatestDelta Hash) : Prop where
  /-- The delta is called invalid when a tail of the cone is. -/
  invalid : ld.validDelta = false ↔ ∃ x, InvalidTail sponge t index blocked tip x
  /-- Otherwise it is the change of the valid bundles of the cone, in words. -/
  get : ld.validDelta = true → ∀ a,
    ld.state.get a = Int64.ofInt (validChange sponge t index blocked tip a)
  /-- And the cone was analyzed, each hash once. -/
  visited : ld.validDelta = true → ∃ order, seen = blocked ++ order ∧ order.Nodup ∧
    ∀ x, x ∈ order ↔ Cone t.core index blocked tip x

/-- A tip whose bundle is not valid, over a bundle that gives five tokens to `10`. -/
def invalidTipTangle : Tangle (Fin 256) where
  transactions := ⟨[{ plainTx 1 2 2 11 0 0 0 with validity := .invalidValue },
    plainTx 2 0 0 10 5 0 0], by decide⟩
  milestones := ⟨Table.empty, nodup_noHash⟩
  faults := fun _ => []

/-- A snapshot without balances. -/
def noSnapshot : Snapshot (Fin 256) := ⟨Table.empty, 0, 0, 0, Table.empty⟩

end Ledger

end Entangled
