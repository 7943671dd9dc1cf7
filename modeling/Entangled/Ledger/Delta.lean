import Entangled.Ledger.Cone
/-!
# The running delta of tip selection

Tip selection keeps one delta for the tips chosen so far and asks
`update_delta` to extend it by a tip. The function adds the running delta to
the delta of the tip's cone, which drops an address that comes to zero, and
then overwrites the running delta with what is left. So an address whose change
cancels keeps the value it had before, and `updateDelta_exact_iff` says that
this, and a sum that leaves the word, are the only ways to go wrong.

For a list of tips the cones taken one after the other are the union of the
cones, each transaction once.
-/

namespace Entangled

open Prog Search

variable {Hash : Type} [DecidableEq Hash] [HashBytes Hash]

namespace Ledger

variable {sponge : Sponge Hash} {genesis tip a : Hash} {initial latest : Snapshot Hash}
  {analyzed tips : List Hash} {d : StateDelta Hash} {r : DeltaUpdate Hash} {t t' : Tangle Hash}
  {txs : Rows Hash} {index : ℕ} {x y : Hash}

/-- **What a consistent `update_delta` has done.** Either the tip was analyzed
and nothing changed, or the delta of its cone plus the running delta, which is
`s`, passed the test and was merged. -/
theorem updateDelta_ok
    (hr : updateDelta sponge genesis initial latest analyzed d tip t = .ok r t')
    (hc : r.isConsistent = true) :
    Tangle.SameCore t t' ∧
      ((tip ∈ analyzed ∧ r.delta = d ∧ r.analyzed = analyzed) ∨
       (tip ∉ analyzed ∧
        (∀ x, x ∈ r.analyzed ↔ x ∈ blocked genesis initial analyzed ∨
          Cone t.core latest.index (blocked genesis initial analyzed) tip x) ∧
        ∃ s : StateDelta Hash, s.NoZero ∧
          (∀ a, s.get a = Int64.ofInt
            ((d.get a).toInt +
              netChange t.core latest.index (blocked genesis initial analyzed) tip a)) ∧
          (∀ e ∈ s.rows, 0 ≤ latest.state.get e.1 + e.2) ∧
          ∀ a, r.delta.get a = if s.get a = 0 then d.get a else s.get a)) := by
  obtain ⟨o, t₁, h₁, h₂⟩ := bind_eq_ok.mp hr
  obtain ⟨rfl, hs₁⟩ := Tangle.transactionLoadPartial_ok h₁
  cases hf : t.transactions.find? tip with
  | none => rw [hf] at h₂; cases h₂
  | some tx =>
    rw [hf] at h₂
    dsimp only at h₂
    split at h₂
    · cases h₂
    split at h₂
    · rename_i hmem
      cases h₂
      exact ⟨hs₁.sameCore, .inl ⟨hmem, rfl, rfl⟩⟩
    rename_i hmem
    obtain ⟨⟨seen, ld⟩, t₂, h₃, h₄⟩ := bind_eq_ok.mp h₂
    dsimp only at h₄
    split at h₄
    · cases h₄
      cases hc
    rename_i hvalid
    have hld := (getLatestDelta_ok h₃ (by simpa using hvalid)).of_sameTables hs₁
    obtain ⟨tipState, t₃, h₅, h₆⟩ := bind_eq_ok.mp h₄
    obtain ⟨m, hm, rfl, hs₃⟩ := Tangle.withHeap_ok rfl h₅
    obtain ⟨patch, t₄, h₇, h₈⟩ := bind_eq_ok.mp h₆
    obtain ⟨m₄, hm₄, rfl, hs₄⟩ := Tangle.withHeap_ok rfl h₇
    split at h₈
    · rename_i hcons
      obtain ⟨d', t₅, h₉, h₁₀⟩ := bind_eq_ok.mp h₈
      obtain ⟨m₅, hm₅, rfl, hs₅⟩ := Tangle.withHeap_ok rfl h₉
      cases h₁₀
      have hnz : m.state.NoZero := hld.noZero.applyPatch hm
      refine ⟨hld.same.trans (hs₃.trans (hs₄.trans hs₅)).sameCore,
        .inr ⟨hmem, fun x => ?_, m.state, hnz, ?_, ?_, ?_⟩⟩
      · rw [mem_hashSetAppend, hld.mem_seen]
        constructor
        · rintro (hx | hx)
          · exact .inl (mem_blocked.mpr (.inl hx))
          · exact hx
        · exact .inr
      · intro a
        rw [StateDelta.get_applyPatch hm]
        dsimp only
        rw [hld.get, Word.ofInt_add_word, Int.add_comm]
      · exact (StateDelta.isConsistent_createPatch rfl hm₄).mp hcons
      · -- the merge takes over what the cone changes, and keeps the rest
        intro a
        rw [StateDelta.get_mergePatch hm₅]
        have hkey := hnz.mem_keys_iff (a := a)
        by_cases hz : m.state.get a = 0
        · rw [if_pos hz, if_neg fun hk => hkey.mp hk hz]
        · rw [if_neg hz, if_pos (hkey.mpr hz)]
    · cases h₈
      cases hc

/-- The running delta is what it should be after one more cone. -/
def ExactUpdate (genesis : Hash) (initial latest : Snapshot Hash) (analyzed : List Hash)
    (d : StateDelta Hash) (tip : Hash) (t : Tangle Hash) (d' : StateDelta Hash) : Prop :=
  ∀ a, (d'.get a).toInt =
    (d.get a).toInt + netChange t.core latest.index (blocked genesis initial analyzed) tip a

/-- No address leaves the word, and none comes back to zero. -/
def NoWrapNoCancel (before after : ℤ) : Prop := Word.Fits after ∧ (after = 0 → before = 0)

instance (before after : ℤ) : Decidable (NoWrapNoCancel before after) :=
  inferInstanceAs (Decidable (_ ∧ (_ → _)))

/-- **When `update_delta` composes exactly.** -/
theorem updateDelta_exact_iff
    (hr : updateDelta sponge genesis initial latest analyzed d tip t = .ok r t')
    (hc : r.isConsistent = true) :
    ExactUpdate genesis initial latest analyzed d tip t r.delta ↔
      ∀ a, NoWrapNoCancel (d.get a).toInt ((d.get a).toInt +
        netChange t.core latest.index (blocked genesis initial analyzed) tip a) := by
  obtain ⟨-, ⟨hmem, hd, -⟩ | ⟨-, -, s, -, hs, -, hget⟩⟩ := updateDelta_ok hr hc
  · have hb : tip ∈ blocked genesis initial analyzed := mem_blocked.mpr (.inl hmem)
    refine iff_of_true (fun a => ?_) fun a => ?_
    · rw [hd, netChange_of_mem hb, Int.add_zero]
    · rw [netChange_of_mem hb, Int.add_zero]
      exact ⟨Word.fits_toInt _, id⟩
  · refine forall_congr' fun a => ?_
    rw [hget a, hs a]
    generalize (d.get a).toInt + netChange t.core latest.index _ tip a = z
    by_cases hz : Int64.ofInt z = 0
    · -- the address was dropped, and the old value stays
      rw [if_pos hz]
      constructor
      · intro h
        have hz0 : z = 0 := by
          have hf : Word.Fits z := h ▸ Word.fits_toInt _
          rw [← Word.toInt_ofInt hf, hz]
          rfl
        exact ⟨h ▸ Word.fits_toInt _, fun _ => h.trans hz0⟩
      · rintro ⟨hf, h0⟩
        have hz0 : z = 0 := by
          rw [← Word.toInt_ofInt hf, hz]
          rfl
        rw [h0 hz0, hz0]
    · rw [if_neg hz, Word.toInt_ofInt_iff]
      refine ⟨fun hf => ⟨hf, fun h0 => absurd (by rw [h0]; rfl) hz⟩, fun h => h.1⟩

/-! ## Lists of tips -/

/-- The union of the cones of some tips. -/
def Cones (txs : Rows Hash) (index : ℕ) (B : List Hash) (tips : List Hash) (x : Hash) : Prop :=
  ∃ tip ∈ tips, Cone txs index B tip x

/-- The change of an address over the union of the cones of some tips. -/
noncomputable def conesChange (txs : Rows Hash) (index : ℕ) (B : List Hash) (tips : List Hash)
    (a : Hash) : ℤ :=
  ∑ᶠ x ∈ {x | Cones txs index B tips x}, change txs index x a

omit [HashBytes Hash] in
theorem Cones.step {B : List Hash} (h : Cones txs index B tips x) (hy : y ∈ approvees txs index x)
    (hn : y ∉ B) : Cones txs index B tips y := by
  obtain ⟨tip, ht, hx⟩ := h
  exact ⟨tip, ht, .step hx hy hn⟩

omit [HashBytes Hash] in
theorem cones_snoc {B : List Hash} :
    Cones txs index B (tips ++ [tip]) x ↔ Cones txs index B tips x ∨ Cone txs index B tip x := by
  simp only [Cones, List.mem_append, List.mem_singleton, or_and_right, exists_or, exists_eq_left]

omit [HashBytes Hash] in
theorem finite_cones (txs : Rows Hash) (index : ℕ) (B : List Hash) (tips : List Hash) :
    {x | Cones txs index B tips x}.Finite := by
  have : {x | Cones txs index B tips x} =
      ⋃ tip ∈ {tip | tip ∈ tips}, {x | Cone txs index B tip x} := by
    ext x
    simp [Cones]
  rw [this]
  exact tips.finite_toSet.biUnion fun tip _ => finite_cone txs index B tip

omit [HashBytes Hash] in
/-- **What a cone adds to a union.** Blocking the union of earlier cones takes
exactly its transactions out of the next cone, since the union is closed. -/
theorem cone_blocked_iff {B B' : List Hash}
    (hB : ∀ x, x ∈ B' ↔ x ∈ B ∨ Cones txs index B tips x) :
    Cone txs index B' tip x ↔ Cone txs index B tip x ∧ ¬ Cones txs index B tips x := by
  constructor
  · intro hx
    have hout : ¬ Cones txs index B tips x := fun h => hx.not_mem ((hB x).mpr (.inr h))
    refine ⟨Reach.mono (fun _ _ _ h => h) (fun z hz hzB => ?_) hx, hout⟩
    exact hz.not_mem ((hB z).mpr (.inl hzB))
  · rintro ⟨hx, hout⟩
    induction hx with
    | root hn => exact .root fun h => ((hB _).mp h).elim hn hout
    | @step z y hz hy hn ih =>
      refine .step (ih fun h => hout (h.step hy hn)) hy fun h => ?_
      exact ((hB y).mp h).elim hn hout

omit [HashBytes Hash] in
theorem conesChange_snoc {B B' : List Hash} (tip a : Hash)
    (hB : ∀ x, x ∈ B' ↔ x ∈ B ∨ Cones txs index B tips x) :
    conesChange txs index B (tips ++ [tip]) a =
      conesChange txs index B tips a + netChange txs index B' tip a := by
  have hset : {x | Cones txs index B (tips ++ [tip]) x} =
      {x | Cones txs index B tips x} ∪ {x | Cone txs index B' tip x} := by
    ext x
    have h₁ : Cones txs index B (tips ++ [tip]) x ↔ Cones txs index B tips x ∨
        Cone txs index B tip x := cones_snoc
    have h₂ : Cone txs index B' tip x ↔ Cone txs index B tip x ∧ ¬ Cones txs index B tips x :=
      cone_blocked_iff hB
    change Cones txs index B (tips ++ [tip]) x ↔ Cones txs index B tips x ∨ Cone txs index B' tip x
    rw [h₁, h₂]
    by_cases hc : Cones txs index B tips x
    · simp [hc]
    · simp [hc]
  have hdisj : Disjoint {x | Cones txs index B tips x} {x | Cone txs index B' tip x} := by
    rw [Set.disjoint_left]
    intro x hx hx'
    exact ((cone_blocked_iff hB).mp hx').2 hx
  rw [conesChange, conesChange, netChange, hset,
    finsum_mem_union hdisj (finite_cones _ _ _ _) (finite_cone _ _ _ _)]

omit [HashBytes Hash] in
theorem conesChange_nil {B : List Hash} : conesChange txs index B [] a = 0 := by
  have : {x | Cones txs index B [] x} = ∅ := by
    ext x
    simp [Cones]
  rw [conesChange, this, finsum_mem_empty]

/-- Every prefix of a list of tips extends the one before it without leaving the
word and without bringing an address back to zero. -/
def TipsCompose (txs : Rows Hash) (index : ℕ) (B : List Hash) (tips : List Hash) : Prop :=
  ∀ k < tips.length, ∀ a, NoWrapNoCancel (conesChange txs index B (tips.take k) a)
    (conesChange txs index B (tips.take (k + 1)) a)

/-- What the loop over the tips has established after the tips `done`. -/
structure TipsDone (genesis : Hash) (initial latest : Snapshot Hash) (t₀ : Tangle Hash)
    (done analyzed : List Hash) (d : StateDelta Hash) (t : Tangle Hash) : Prop where
  same : Tangle.SameCore t₀ t
  analyzed : ∀ x, x ∈ blocked genesis initial analyzed ↔ x ∈ blocked genesis initial [] ∨
    Cones t₀.core latest.index (blocked genesis initial []) done x
  get : ∀ a, (d.get a).toInt =
    conesChange t₀.core latest.index (blocked genesis initial []) done a
  nonneg : ∀ a, 0 ≤ (latest.state.get a).toInt +
    conesChange t₀.core latest.index (blocked genesis initial []) done a

omit [HashBytes Hash] in
/-- A test that was made on words says what it says of the numbers, when the change
fits and the balance is not negative. -/
theorem nonneg_of_tested {s : StateDelta Hash} {z : ℤ} (hnz : s.NoZero)
    (hz : s.get a = Int64.ofInt z) (hfit : Word.Fits z) (hlatest : 0 ≤ latest.state.get a)
    (hpos : ∀ e ∈ s.rows, 0 ≤ latest.state.get e.1 + e.2) :
    0 ≤ (latest.state.get a).toInt + z := by
  have hla : 0 ≤ (latest.state.get a).toInt := Int64.le_iff_toInt_le.mp hlatest
  by_cases hs0 : s.get a = 0
  · have hz0 : z = 0 := by
      rw [← Word.toInt_ofInt hfit, ← hz, hs0]
      rfl
    omega
  · obtain ⟨e, he⟩ := Table.mem_keys_iff.mp (hnz.mem_keys_iff.mpr hs0)
    have hea : e.1 = a := Table.key_of_find? he
    have hpe := hpos e (Table.mem_of_find? he)
    rw [hea, ← StateDelta.get_of_find? he, hz, Word.word_add_ofInt] at hpe
    have hpe' : 0 ≤ (Int64.ofInt ((latest.state.get a).toInt + z)).toInt :=
      Int64.le_iff_toInt_le.mp hpe
    -- a negative sum of a balance and a change that fits cannot wrap
    by_contra hneg
    rw [Word.toInt_ofInt ⟨by have := hfit.1; omega, by omega⟩] at hpe'
    omega

theorem TipsDone.next {t₀ : Tangle Hash} {done : List Hash}
    (h : TipsDone genesis initial latest t₀ done analyzed d t)
    (hcond : ∀ a, NoWrapNoCancel
      (conesChange t₀.core latest.index (blocked genesis initial []) done a)
      (conesChange t₀.core latest.index (blocked genesis initial []) (done ++ [tip]) a))
    (hlatest : ∀ a, 0 ≤ latest.state.get a)
    (hr : updateDelta sponge genesis initial latest analyzed d tip t = .ok r t')
    (hc : r.isConsistent = true) :
    TipsDone genesis initial latest t₀ (done ++ [tip]) r.analyzed r.delta t' := by
  have hsnoc := fun a => conesChange_snoc tip a h.analyzed
  have hexact : ExactUpdate genesis initial latest analyzed d tip t r.delta := by
    refine (updateDelta_exact_iff hr hc).mpr fun a => ?_
    have := hcond a
    rwa [hsnoc a, ← h.get a, ← h.same.1] at this
  have hget : ∀ a, (r.delta.get a).toInt =
      conesChange t₀.core latest.index (blocked genesis initial []) (done ++ [tip]) a := by
    intro a
    rw [hexact a, hsnoc a, h.get a, h.same.1]
  obtain ⟨hs, ⟨hmem, hd, han⟩ | ⟨-, han, s, hnz, hsget, hpos, hmerge⟩⟩ := updateDelta_ok hr hc
  · have hb : tip ∈ blocked genesis initial analyzed := mem_blocked.mpr (.inl hmem)
    have hsame : ∀ a, conesChange t₀.core latest.index (blocked genesis initial [])
        (done ++ [tip]) a =
          conesChange t₀.core latest.index (blocked genesis initial []) done a := by
      intro a
      rw [hsnoc a, netChange_of_mem hb, Int.add_zero]
    refine ⟨h.same.trans hs, fun x => ?_, hget, fun a => by rw [hsame a]; exact h.nonneg a⟩
    rw [han, h.analyzed x]
    refine or_congr_right ⟨fun hx => cones_snoc.mpr (.inl hx), fun hx => ?_⟩
    rcases cones_snoc.mp hx with hx | hx
    · exact hx
    · -- the tip is blocked, so its cone lies in the cones before
      by_contra hn
      exact not_cone_of_mem hb ((cone_blocked_iff h.analyzed).mpr ⟨hx, hn⟩)
  · refine ⟨h.same.trans hs, fun x => ?_, hget, fun a => ?_⟩
    · have hx := han x
      rw [mem_blocked, hx, h.same.1, cone_blocked_iff h.analyzed, h.analyzed x]
      have hb0 : x ∈ blocked genesis initial [] ↔
          x ∈ initial.solidEntryPoints.keys ∨ x = genesis := by
        rw [mem_blocked]
        simp
      rw [cones_snoc, hb0]
      constructor
      · rintro (((hbase | hdone) | ⟨htip, -⟩) | hbase)
        · exact .inl hbase
        · exact .inr (.inl hdone)
        · exact .inr (.inr htip)
        · exact .inl hbase
      · rintro (hbase | hcone)
        · exact .inr hbase
        · -- what the tip adds is its cone less the cones before
          left
          by_cases hdone : Cones t₀.core latest.index (blocked genesis initial []) done x
          · exact .inl (.inr hdone)
          · exact .inr ⟨hcone.resolve_left hdone, hdone⟩
    · refine nonneg_of_tested hnz ?_ (hcond a).1 (hlatest a) hpos
      rw [hsget a, hsnoc a, h.get a, h.same.1]

theorem checkConsistencyLoop_sound {t₀ : Tangle Hash} (hlatest : ∀ a, 0 ≤ latest.state.get a) :
    ∀ {tips done : List Hash} {analyzed : List Hash} {d : StateDelta Hash} {t t' : Tangle Hash},
      TipsDone genesis initial latest t₀ done analyzed d t →
      TipsCompose t₀.core latest.index (blocked genesis initial []) (done ++ tips) →
      checkConsistencyLoop sponge genesis initial latest tips analyzed d t = .ok true t' →
      ∀ a, 0 ≤ (latest.state.get a).toInt +
        conesChange t₀.core latest.index (blocked genesis initial []) (done ++ tips) a := by
  intro tips
  induction tips with
  | nil =>
    intro done analyzed d t t' hdone _ _ a
    rw [List.append_nil]
    exact hdone.nonneg a
  | cons tip tips ih =>
    intro done analyzed d t t' hdone hcomp hr
    obtain ⟨r, t₁, h₁, h₂⟩ := bind_eq_ok.mp hr
    have hc : r.isConsistent = true := by
      by_contra hn
      rw [if_pos (by simpa using hn)] at h₂
      cases h₂
    rw [if_neg (by simp [hc])] at h₂
    have hcond := hcomp done.length (by simp)
    have htake : (done ++ tip :: tips).take done.length = done := List.take_left
    have htake' : (done ++ tip :: tips).take (done.length + 1) = done ++ [tip] := by
      rw [List.take_append]
      simp
    rw [htake, htake'] at hcond
    have happ : done ++ tip :: tips = (done ++ [tip]) ++ tips := by simp
    rw [happ] at hcomp ⊢
    exact ih (hdone.next hcond hlatest h₁ hc) hcomp h₂

/-- **The running delta, and what a consistent list of tips means.** A consistent
`update_delta` composes exactly if and only if no address leaves the word or
comes back to zero. For a list of tips that meet this prefix by prefix,
`check_consistency` answers true only if the union of their cones leaves every
balance of the latest snapshot at zero or more. -/
theorem updateDelta_exact_and_checkConsistency_sound (sponge : Sponge Hash) (genesis : Hash)
    (initial latest : Snapshot Hash) (t : Tangle Hash) :
    (∀ analyzed d tip r t',
      updateDelta sponge genesis initial latest analyzed d tip t = .ok r t' →
      r.isConsistent = true →
      (ExactUpdate genesis initial latest analyzed d tip t r.delta ↔
        ∀ a, NoWrapNoCancel (d.get a).toInt ((d.get a).toInt +
          netChange t.core latest.index (blocked genesis initial analyzed) tip a))) ∧
    ∀ tips t', (∀ a, 0 ≤ latest.state.get a) →
      TipsCompose t.core latest.index (blocked genesis initial []) tips →
      checkConsistency sponge genesis initial latest tips t = .ok true t' →
      ∀ a, 0 ≤ (latest.state.get a).toInt +
        conesChange t.core latest.index (blocked genesis initial []) tips a := by
  refine ⟨fun analyzed d tip r t' hr hc => updateDelta_exact_iff hr hc, ?_⟩
  intro tips t' hlatest hcomp hr
  have hstart : TipsDone genesis initial latest t [] [] Table.empty t := by
    refine ⟨.refl t, fun x => ?_, fun a => ?_, fun a => ?_⟩
    · simp [Cones]
    · rw [conesChange_nil]
      rfl
    · rw [conesChange_nil, Int.add_zero]
      exact Int64.le_iff_toInt_le.mp (hlatest a)
  exact checkConsistencyLoop_sound hlatest hstart hcomp hr

/-! ## A change that cancels -/

/-- Two bundles: the first moves five tokens from `11` to `10`, the second moves
them on to `12`. -/
def cancelTangle : Tangle (Fin 256) where
  transactions := ⟨[plainTx 1 2 0 10 5 0 1, plainTx 2 0 0 11 (-5) 1 1,
    plainTx 3 4 1 10 (-5) 0 1, plainTx 4 1 1 12 5 1 1], by decide⟩
  milestones := ⟨Table.empty, nodup_noHash⟩
  faults := fun _ => []

/-- A snapshot that gives `11` its tokens. -/
def cancelSnapshot : Snapshot (Fin 256) := ⟨⟨[(11, 100)], nodup_hundred⟩, 0, 0, 0, Table.empty⟩

/-- The running delta after the first bundle. -/
def cancelRunning : StateDelta (Fin 256) := ⟨[(10, 5), (11, -5)], by decide⟩

/-- **The cancelled change stays in the running delta.** The second bundle
brings `10` back to zero, and the running delta goes on giving it five. -/
theorem updateDelta_keeps_cancelled_change :
    ∃ r t', updateDelta plainSponge 0 cancelSnapshot cancelSnapshot [0, 1, 2] cancelRunning 3
        cancelTangle = .ok r t' ∧ r.isConsistent = true ∧
      ¬ ExactUpdate 0 cancelSnapshot cancelSnapshot [0, 1, 2] cancelRunning 3 cancelTangle
        r.delta := by
  have hrun : returns (updateDelta plainSponge 0 cancelSnapshot cancelSnapshot [0, 1, 2]
      cancelRunning 3) cancelTangle
      (fun r _ => r.isConsistent && decide (r.delta.get 10 = 5)) = true := by decide +kernel
  have hcone : returns (getLatestDelta plainSponge 0 cancelSnapshot 0 [0, 1, 2] 3) cancelTangle
      (fun r _ => r.2.validDelta && decide (r.2.state.get 10 = -5)) = true := by decide +kernel
  obtain ⟨r, t', hr, hp⟩ := of_returns hrun
  rw [Bool.and_eq_true, decide_eq_true_eq] at hp
  refine ⟨r, t', hr, hp.1, fun hexact => ?_⟩
  obtain ⟨⟨seen, ld⟩, t₁, hld, hq⟩ := of_returns hcone
  rw [Bool.and_eq_true, decide_eq_true_eq] at hq
  have hnet := (getLatestDelta_ok hld hq.1).get 10
  have hten := hexact 10
  rw [hp.2, show cancelRunning.get 10 = 5 from rfl] at hten
  have hzero : netChange cancelTangle.core 0 (blocked 0 cancelSnapshot [0, 1, 2]) 3 10 = 0 := by
    have : cancelSnapshot.index = 0 := rfl
    rw [this] at hten
    omega
  rw [hq.2, hzero] at hnet
  exact absurd hnet (by decide)

/-- The first bundle alone composes exactly, and is consistent. -/
theorem updateDelta_exact_first_bundle :
    (∃ r t', updateDelta plainSponge 0 cancelSnapshot cancelSnapshot [] Table.empty 1
        cancelTangle = .ok r t' ∧ r.isConsistent = true ∧
      ExactUpdate 0 cancelSnapshot cancelSnapshot [] Table.empty 1 cancelTangle r.delta) ∧
    (∃ t', checkConsistency plainSponge 0 cancelSnapshot cancelSnapshot [1] cancelTangle =
      .ok true t') ∧
    ∀ a, 0 ≤ (cancelSnapshot.state.get a).toInt +
      conesChange cancelTangle.core 0 (blocked 0 cancelSnapshot []) [1] a := by
  have hcone : returns (getLatestDelta plainSponge 0 cancelSnapshot 0 [] 1) cancelTangle
      (fun r _ => r.2.validDelta && decide (r.1 = blocked 0 cancelSnapshot [] ++ [1, 2])) =
        true := by decide +kernel
  have hrun : returns (updateDelta plainSponge 0 cancelSnapshot cancelSnapshot [] Table.empty 1)
      cancelTangle (fun r _ => r.isConsistent) = true := by decide +kernel
  have hcheck : returns (checkConsistency plainSponge 0 cancelSnapshot cancelSnapshot [1])
      cancelTangle (fun r _ => r) = true := by decide +kernel
  obtain ⟨⟨seen, ld⟩, t₁, hld, hq⟩ := of_returns hcone
  rw [Bool.and_eq_true, decide_eq_true_eq] at hq
  obtain ⟨hvalid, rfl⟩ := hq
  have hnet := (getLatestDelta_ok hld hvalid).netChange_eq
  have hcond : ∀ a : Fin 256, NoWrapNoCancel 0
      (([1, 2] : List (Fin 256)).map (change cancelTangle.core 0 · a)).sum := by decide +kernel
  obtain ⟨r, t', hr, hc⟩ := of_returns hrun
  obtain ⟨b, t'', hb, rfl⟩ := of_returns hcheck
  have hboth := updateDelta_exact_and_checkConsistency_sound plainSponge 0 cancelSnapshot
    cancelSnapshot cancelTangle
  refine ⟨⟨r, t', hr, hc, (hboth.1 _ _ _ _ _ hr hc).mpr fun a => ?_⟩, ⟨t'', hb⟩,
    hboth.2 [1] t'' (by decide +kernel) ?_ hb⟩
  · have := hcond a
    rw [← hnet a] at this
    simpa [cancelSnapshot] using this
  · intro k hk a
    obtain rfl : k = 0 := by simpa using hk
    have hsnoc : conesChange cancelTangle.core 0 (blocked 0 cancelSnapshot []) ([] ++ [1]) a =
        conesChange cancelTangle.core 0 (blocked 0 cancelSnapshot []) [] a +
          netChange cancelTangle.core 0 (blocked 0 cancelSnapshot []) 1 a :=
      conesChange_snoc 1 a (by simp [Cones])
    rw [conesChange_nil, Int.zero_add, hnet a] at hsnoc
    have := hcond a
    rw [← hsnoc] at this
    simpa [conesChange_nil, cancelSnapshot] using this

end Ledger

end Entangled
