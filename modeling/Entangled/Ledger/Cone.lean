import Entangled.Ledger.Model
import Mathlib.Algebra.BigOperators.Finprod
/-!
# The cone of a tip

What a tip confirms, said without a walk: the transactions reachable from it
over trunk and branch through transactions that no snapshot has confirmed yet,
not entering the blocked hashes. `netChange` adds up, in `ℤ`, what the bundles
of its tails do to an address.

`getLatestDelta_ok` is the refinement: a walk that ends with a valid delta has
visited the cone and nothing else, and the delta it accumulated is the net
change, reduced to words.
-/

namespace Entangled

open Prog Search

variable {Hash : Type} [DecidableEq Hash] [HashBytes Hash]

namespace Ledger

/-- Transaction tables, as the cone reads them. -/
abbrev Rows (Hash : Type) := Table (fun tx : Transaction Hash => tx.hash)

/-- The approvees a walk goes on to from `h`. -/
def approvees (txs : Rows Hash) (index : ℕ) (h : Hash) : List Hash :=
  match txs.find? h with
  | none => []
  | some tx => if unconfirmed index tx then [tx.trunk, tx.branch] else []

/-- The transactions a tip would confirm. -/
def Cone (txs : Rows Hash) (index : ℕ) (blocked : List Hash) (tip : Hash) : Hash → Prop :=
  Reach (approvees txs index) blocked tip

/-- What a list of transactions does to an address. -/
def valueAt (b : List (Transaction Hash)) (a : Hash) : ℤ :=
  (b.map fun tx => if tx.address = a then tx.value.toInt else 0).sum

/-- What one transaction of a cone does to an address: the bundle of a tail
counts once, at the tail. -/
def change (txs : Rows Hash) (index : ℕ) (h : Hash) (a : Hash) : ℤ :=
  match txs.find? h with
  | none => 0
  | some tx =>
    if unconfirmed index tx ∧ tx.currentIndex = 0 then valueAt (bundleOf txs h) a else 0

/-- **The change of an address over a cone**, in unbounded integers. -/
noncomputable def netChange (txs : Rows Hash) (index : ℕ) (blocked : List Hash) (tip a : Hash) :
    ℤ :=
  ∑ᶠ h ∈ {h | Cone txs index blocked tip h}, change txs index h a

variable {t t' : Tangle Hash} {index : ℕ} {h tip genesis a : Hash} {tx : Transaction Hash}
  {sponge : Sponge Hash} {d d' : StateDelta Hash} {b : List (Transaction Hash)}

omit [HashBytes Hash] in
@[simp] theorem valueAt_nil : valueAt ([] : List (Transaction Hash)) a = 0 := rfl

omit [HashBytes Hash] in
theorem valueAt_cons : valueAt (tx :: b) a =
    (if tx.address = a then tx.value.toInt else 0) + valueAt b a := by
  simp [valueAt]

omit [HashBytes Hash] in
theorem valueAt_core (b : List (Transaction Hash)) :
    valueAt (b.map Transaction.core) a = valueAt b a := by
  rw [valueAt, List.map_map]
  rfl

omit [DecidableEq Hash] [HashBytes Hash] in
@[simp] theorem unconfirmed_core (tx : Transaction Hash) :
    unconfirmed index tx.core = unconfirmed index tx := rfl

omit [HashBytes Hash] in
theorem finite_support_valueAt (b : List (Transaction Hash)) :
    (Function.support fun a => valueAt b a).Finite := by
  refine (b.map (·.address)).finite_toSet.subset fun a ha => ?_
  by_contra hn
  refine ha (List.sum_eq_zero fun x hx => ?_)
  obtain ⟨tx, htx, rfl⟩ := List.mem_map.mp hx
  rw [if_neg]
  rintro rfl
  exact hn (List.mem_map.mpr ⟨tx, htx, rfl⟩)

omit [HashBytes Hash] in
/-- Adding a bundle over the addresses is adding its values. -/
theorem finsum_valueAt (b : List (Transaction Hash)) :
    ∑ᶠ a, valueAt b a = Tangle.bundleValue b := by
  induction b with
  | nil => simp [Tangle.bundleValue]
  | cons tx b ih =>
    have hsingle : ∑ᶠ a, (if tx.address = a then tx.value.toInt else 0) = tx.value.toInt := by
      rw [finsum_eq_single _ tx.address fun a ha => if_neg fun h => ha h.symm, if_pos rfl]
    have hfin : (Function.support fun a => if tx.address = a then tx.value.toInt else 0).Finite :=
      (Set.finite_singleton tx.address).subset fun a ha => by
        by_contra hn
        exact ha (if_neg fun h => hn h.symm)
    simp only [valueAt_cons]
    rw [finsum_add_distrib hfin (finite_support_valueAt b), hsingle, ih]
    simp [Tangle.bundleValue]

/-- **Adding a bundle to a delta** adds its value at each address, in words. -/
theorem addBundle_ok (hr : addBundle b d t = .ok d' t') :
    (∀ x : Hash → ℤ, (∀ a, d.get a = Int64.ofInt (x a)) →
      ∀ a, d'.get a = Int64.ofInt (x a + valueAt b a)) ∧
      (d.NoZero → d'.NoZero) ∧ Tangle.SameTables t t' := by
  induction b generalizing d t with
  | nil =>
    cases hr
    exact ⟨fun x hx a => by simpa using hx a, id, .refl _⟩
  | cons tx b ih =>
    obtain ⟨d₁, t₁, h₁, h₂⟩ := bind_eq_ok.mp hr
    obtain ⟨m, hm, rfl, hs⟩ := Tangle.withHeap_ok rfl h₁
    obtain ⟨hget, hnz, hs'⟩ := ih h₂
    refine ⟨fun x hx a => ?_, fun hd => hnz (StateDelta.NoZero.addOrSum hd hm), hs.trans hs'⟩
    have hstep : ∀ a, m.state.get a =
        Int64.ofInt (x a + if tx.address = a then tx.value.toInt else 0) := by
      intro a
      rw [StateDelta.get_addOrSum hm]
      dsimp only
      rw [hx a]
      split
      · exact Word.ofInt_add_word _ _
      · rw [Int64.add_zero, Int.add_zero]
    rw [hget _ hstep a, valueAt_cons, Int.add_assoc]

theorem keeps_addBundle (b : List (Transaction Hash)) (d : StateDelta Hash) :
    Keeps Tangle.SameTables (addBundle b d) := by
  induction b generalizing d with
  | nil => exact Keeps.pure .refl _
  | cons tx b ih =>
    exact Keeps.bind Tangle.SameTables.trans (Tangle.keeps_withHeap rfl _ _) fun d' => ih d'

/-! ## One round of the walk -/

/-- What a transaction of a walk may still be missing when its hash has no row:
the buffer holds an earlier one. -/
structure Buffered (t : Tangle Hash) (order : List Hash) (p : Pack Hash) : Prop where
  stored : ∀ tx, p.model = some tx → t.core.find? tx.hash = some tx.core ∧ tx.hash ∈ order

/-- The verdicts of `get_latest_delta_do_func` that let the walk go on. -/
theorem getLatestDeltaFunc_ok {w w' : Walk Hash (LatestDelta Hash)} {analyzed : List Hash}
    {v : Verdict Hash} (hr : getLatestDeltaFunc sponge index h analyzed w = .ok v w') :
    ∃ tx, w.pack.model = some tx ∧ w'.pack = w.pack ∧ v.analyzed = analyzed ∧
      ((unconfirmed index tx = false ∧ v.shouldBranch = false ∧ v.shouldStop = false ∧ w' = w) ∨
       (unconfirmed index tx = true ∧ tx.currentIndex ≠ 0 ∧ v.shouldBranch = true ∧
          v.shouldStop = false ∧ w' = w) ∨
       (v.shouldStop = true ∧ w'.data.validDelta = false) ∨
       (unconfirmed index tx = true ∧ tx.currentIndex = 0 ∧ v.shouldBranch = true ∧
          v.shouldStop = false ∧ ∃ b t₁, Tangle.bundleValidatorValidate sponge h w.tangle =
            .ok (b, .valid) t₁ ∧ addBundle b w.data.state t₁ = .ok w'.data.state w'.tangle ∧
            w'.data.validDelta = w.data.validDelta)) := by
  rw [getLatestDeltaFunc, gets_bind] at hr
  cases hm : w.pack.model with
  | none => rw [hm] at hr; cases hr
  | some tx =>
    rw [hm] at hr
    refine ⟨tx, rfl, ?_⟩
    by_cases hu : unconfirmed index tx = false
    · simp only [hu, if_true] at hr
      cases hr
      exact ⟨rfl, rfl, .inl ⟨hu, rfl, rfl, rfl⟩⟩
    have hu' : unconfirmed index tx = true := by simpa using hu
    simp only [hu', Bool.true_eq_false, if_false] at hr
    by_cases hc : tx.currentIndex = 0
    · simp only [hc, ne_eq, not_true_eq_false, if_false] at hr
      obtain ⟨⟨b, status⟩, w₂, h₃, h₄⟩ := bind_eq_ok.mp hr
      obtain ⟨t₁, ht₁, rfl⟩ := zoom_eq_ok.mp h₃
      by_cases hbad : status ≠ .valid ∨ b = []
      · simp only [hbad, if_true] at h₄
        obtain ⟨_, w₃, h₅, h₆⟩ := bind_eq_ok.mp h₄
        cases h₅
        cases h₆
        exact ⟨rfl, rfl, .inr (.inr (.inl ⟨rfl, rfl⟩))⟩
      · simp only [hbad, if_false] at h₄
        rw [gets_bind] at h₄
        obtain ⟨d', w₄, h₇, h₈⟩ := bind_eq_ok.mp h₄
        obtain ⟨t₂, ht₂, rfl⟩ := zoom_eq_ok.mp h₇
        obtain ⟨_, w₅, h₉, h₁₀⟩ := bind_eq_ok.mp h₈
        cases h₉
        cases h₁₀
        rw [not_or, not_not] at hbad
        obtain ⟨rfl, -⟩ := hbad
        exact ⟨rfl, rfl, .inr (.inr (.inr ⟨hu', hc, rfl, rfl, b, t₁, ht₁, ht₂, rfl⟩))⟩
    · simp only [ne_eq, hc, not_false_eq_true, if_true] at hr
      cases hr
      exact ⟨rfl, rfl, .inr (.inl ⟨hu', hc, rfl, rfl, rfl⟩)⟩

theorem keeps_getLatestDeltaFunc (sponge : Sponge Hash) (index : ℕ) (h : Hash)
    (analyzed : List Hash) :
    Keeps (Walk.OnTangle Tangle.SameCore) (getLatestDeltaFunc sponge index h analyzed) := by
  have htr := fun {u v x : Walk Hash (LatestDelta Hash)} =>
    Walk.OnTangle.trans (u := u) (v := v) (x := x) Tangle.storeFrame_sameCore
  have hrefl : ∀ w : Walk Hash (LatestDelta Hash), Walk.OnTangle Tangle.SameCore w w :=
    fun w => Tangle.SameCore.refl w.tangle
  refine Keeps.bind htr (Keeps.gets hrefl _) fun o => ?_
  cases o with
  | none => exact Keeps.fail hrefl _
  | some tx =>
    dsimp only
    split
    · exact Keeps.pure hrefl _
    split
    · exact Keeps.pure hrefl _
    refine Keeps.bind htr (Walk.keeps_onTangle (Tangle.keeps_bundleValidatorValidate _ _))
      fun r => ?_
    split
    · exact Keeps.bind htr (Keeps.update fun w => Tangle.SameCore.refl w.tangle)
        fun _ => Keeps.pure hrefl _
    · refine Keeps.bind htr (Keeps.gets hrefl _) fun d => ?_
      refine Keeps.bind htr
        (Walk.keeps_onTangle (Tangle.keepsCore_of_keeps (keeps_addBundle _ _))) fun d' => ?_
      exact Keeps.bind htr (Keeps.update fun w => Tangle.SameCore.refl w.tangle)
        fun _ => Keeps.pure hrefl _

/-- Computing a delta changes the store up to validities only. -/
theorem keeps_getLatestDelta (sponge : Sponge Hash) (genesis : Hash) (initial : Snapshot Hash)
    (index : ℕ) (analyzed : List Hash) (tip : Hash) :
    Keeps Tangle.SameCore (getLatestDelta sponge genesis initial index analyzed tip) :=
  Walk.keeps_run (Walk.keeps_dfsToPast Tangle.storeFrame_sameCore
    (keeps_getLatestDeltaFunc sponge index))

/-! ## The whole walk -/

omit [HashBytes Hash] in
theorem approvees_of_find? {txs : Rows Hash} (hf : txs.find? h = some tx) :
    approvees txs index h = if unconfirmed index tx then [tx.trunk, tx.branch] else [] := by
  rw [approvees, hf]

omit [HashBytes Hash] in
theorem change_of_find? {txs : Rows Hash} (hf : txs.find? h = some tx) :
    change txs index h a =
      if unconfirmed index tx ∧ tx.currentIndex = 0 then valueAt (bundleOf txs h) a else 0 := by
  rw [change, hf]

/-- **Where a walk for a delta stands**: `order` is the part of the cone visited
so far, and the delta is the sum of its changes, in words. -/
structure DeltaWalk (sponge : Sponge Hash) (t₀ : Tangle Hash) (index : ℕ) (blocked : List Hash)
    (tip : Hash) (order stack : List Hash) (w : Walk Hash (LatestDelta Hash)) : Prop where
  valid : w.data.validDelta = true
  same : Tangle.SameCore t₀ w.tangle
  noZero : w.data.state.NoZero
  explored : Explored (approvees t₀.core index) blocked tip stack order
  buffered : Buffered t₀ order w.pack
  get : ∀ a, w.data.state.get a = Int64.ofInt (order.map (change t₀.core index · a)).sum
  zeroSum : Tangle.ValidZeroSum sponge t₀ → Tangle.ValidZeroSum sponge w.tangle ∧
    ∀ h ∈ order, ∑ᶠ a, change t₀.core index h a = 0

variable {t₀ : Tangle Hash} {analyzed blocked order stack : List Hash}
  {w w₁ w' : Walk Hash (LatestDelta Hash)} {v : Verdict Hash}

/-- The change of `h` was added to the delta of the hashes visited before. -/
structure Counted (sponge : Sponge Hash) (t₀ : Tangle Hash) (index : ℕ) (order : List Hash)
    (h : Hash) (w : Walk Hash (LatestDelta Hash)) : Prop where
  valid : w.data.validDelta = true
  noZero : w.data.state.NoZero
  get : ∀ a, w.data.state.get a =
    Int64.ofInt ((order.map (change t₀.core index · a)).sum + change t₀.core index h a)
  zeroSum : Tangle.ValidZeroSum sponge t₀ → Tangle.ValidZeroSum sponge w.tangle ∧
    ∑ᶠ a, change t₀.core index h a = 0

/-- After a load the buffer holds a visited row: the one of `h`, or an older one
when `h` has none. -/
theorem DeltaWalk.buffer (hw : DeltaWalk sponge t₀ index blocked tip order (h :: stack) w)
    (hload : Walk.loadPack h w = .ok () w₁) (hm : w₁.pack.model = some tx) :
    tx.hash ∈ order ++ [h] ∧ t₀.core.find? tx.hash = some tx.core ∧
      (t₀.core.find? h = none ∨ tx.hash = h) := by
  obtain ⟨-, -, hp₁⟩ := Walk.loadPack_ok hload
  have hcore : t₀.core.find? h = (w.tangle.transactions.find? h).map Transaction.core := by
    rw [← hw.same.1, Tangle.find?_core]
  rw [hp₁] at hm
  cases hf : w.tangle.transactions.find? h with
  | none =>
    rw [hf] at hm hcore
    obtain ⟨hst, hmem⟩ := hw.buffered.stored tx hm
    exact ⟨List.mem_append_left _ hmem, hst, .inl hcore⟩
  | some tx' =>
    rw [hf] at hm hcore
    obtain rfl : tx' = tx := Option.some.inj hm
    have hk : tx'.hash = h := Table.key_of_find? hf
    exact ⟨by simp [hk], hk ▸ hcore, .inr hk⟩

omit [HashBytes Hash] in
/-- A hash without a row, or whose row is no unconfirmed tail, changes nothing. -/
theorem change_eq_zero {txs : Rows Hash} {r : Transaction Hash} {x : Hash}
    (hf : txs.find? x = some r) (hor : txs.find? h = none ∨ x = h)
    (hn : ¬ (unconfirmed index r = true ∧ r.currentIndex = 0)) : change txs index h a = 0 := by
  rcases hor with hnone | rfl
  · rw [change, hnone]
  · rw [change_of_find? hf]
    exact if_neg hn

/-- A round that adds nothing counts a hash that changes nothing. -/
theorem DeltaWalk.counted_idle (hw : DeltaWalk sponge t₀ index blocked tip order (h :: stack) w)
    (hload : Walk.loadPack h w = .ok () w₁) (h0 : ∀ a, change t₀.core index h a = 0) :
    Counted sponge t₀ index order h w₁ := by
  obtain ⟨hs₁, hd₁, -⟩ := Walk.loadPack_ok hload
  refine ⟨by rw [hd₁]; exact hw.valid, by rw [hd₁]; exact hw.noZero, fun a => ?_, fun hz => ?_⟩
  · rw [hd₁, h0 a, Int.add_zero]
    exact hw.get a
  · refine ⟨(hw.zeroSum hz).1.of_sameTables hs₁, ?_⟩
    simp [h0]

/-- A round at an unconfirmed tail counts its bundle, which was reported valid. -/
theorem DeltaWalk.counted_bundle (hw : DeltaWalk sponge t₀ index blocked tip order (h :: stack) w)
    (hload : Walk.loadPack h w = .ok () w₁) {b : List (Transaction Hash)} {t₁ : Tangle Hash}
    (hf : t₀.core.find? h = some tx.core) (hu : unconfirmed index tx = true)
    (hc : tx.currentIndex = 0)
    (hval : Tangle.bundleValidatorValidate sponge h w₁.tangle = .ok (b, .valid) t₁)
    (hadd : addBundle b w₁.data.state t₁ = .ok w'.data.state w'.tangle)
    (hvd : w'.data.validDelta = w₁.data.validDelta) : Counted sponge t₀ index order h w' := by
  obtain ⟨hs₁, hd₁, -⟩ := Walk.loadPack_ok hload
  obtain ⟨⟨tx', hf', hc'⟩, rfl, hst, -⟩ := Tangle.bundleValidatorValidate_ok hval
  have hcore₁ : w₁.tangle.core = t₀.core := (hw.same.trans hs₁.sameCore).1
  have hchange : ∀ a,
      change t₀.core index h a = valueAt (bundleOf w₁.tangle.transactions h) a := by
    intro a
    rw [change_of_find? hf, ← hcore₁, Tangle.bundleOf_core, valueAt_core]
    exact if_pos ⟨hu, hc⟩
  obtain ⟨hget, hnz, hs₂⟩ := addBundle_ok hadd
  refine ⟨?_, ?_, fun a => ?_, fun hz => ?_⟩
  · rw [hvd, hd₁]
    exact hw.valid
  · exact hnz (by rw [hd₁]; exact hw.noZero)
  · rw [hget _ (fun a => by rw [hd₁]; exact hw.get a) a, hchange a]
  · have hz₁ := (hw.zeroSum hz).1.of_sameTables hs₁
    refine ⟨(hz₁.validate hval).of_sameTables hs₂, ?_⟩
    rw [finsum_congr hchange, finsum_valueAt]
    exact hz₁ h tx' hf' hc' hst.symm

/-- **A verdict that lets the walk go on**: the change of `h` was added, and the walk
branches as the row in the buffer says. -/
theorem DeltaWalk.verdict (hw : DeltaWalk sponge t₀ index blocked tip order (h :: stack) w)
    (hload : Walk.loadPack h w = .ok () w₁)
    (hfunc : getLatestDeltaFunc sponge index h analyzed w₁ = .ok v w')
    (hgo : v.shouldStop = false) :
    Counted sponge t₀ index order h w' ∧ v.analyzed = analyzed ∧
      ∃ tx, w'.pack.model = some tx ∧ tx.hash ∈ order ++ [h] ∧
        t₀.core.find? tx.hash = some tx.core ∧ v.shouldBranch = unconfirmed index tx ∧
        (t₀.core.find? h = none ∨ tx.hash = h) := by
  obtain ⟨tx, hm, hpack, han, hcases⟩ := getLatestDeltaFunc_ok hfunc
  obtain ⟨hmem, hfx, hor⟩ := hw.buffer hload hm
  have hzero : ¬ (unconfirmed index tx = true ∧ tx.currentIndex = 0) →
      ∀ a, change t₀.core index h a = 0 := fun hn a => change_eq_zero hfx hor hn
  rcases hcases with ⟨hu, hb, -, rfl⟩ | ⟨hu, hc, hb, -, rfl⟩ | ⟨hstop, -⟩ |
    ⟨hu, hc, hb, -, b, t₁, hval, hadd, hvd⟩
  · refine ⟨hw.counted_idle hload (hzero fun hn => ?_), han, tx, hm, hmem, hfx, hb.trans hu.symm,
      hor⟩
    exact Bool.noConfusion (hu.symm.trans hn.1)
  · exact ⟨hw.counted_idle hload (hzero fun hn => hc hn.2), han, tx, hm, hmem, hfx,
      hb.trans hu.symm, hor⟩
  · rw [hstop] at hgo
    cases hgo
  · -- the validated bundle is that of `h`, so the buffer cannot hold an older row
    obtain ⟨⟨tx', hf', -⟩, -, -, -⟩ := Tangle.bundleValidatorValidate_ok hval
    have hfh : t₀.core.find? h = some tx'.core := by
      rw [← (hw.same.trans (Walk.loadPack_ok hload).1.sameCore).1, Tangle.find?_core, hf']
      rfl
    have hx : tx.hash = h := hor.resolve_left (by rw [hfh]; simp)
    exact ⟨hw.counted_bundle hload (hx ▸ hfx) hu hc hval hadd hvd, han, tx, by rw [hpack, hm],
      hmem, hfx, hb.trans hu.symm, hor⟩

/-- **The walk keeps its invariant.** -/
theorem deltaWalk_invariant (sponge : Sponge Hash) (t₀ : Tangle Hash) (index : ℕ)
    (blocked : List Hash) (tip : Hash) :
    Invariant (Walk.visitPast (getLatestDeltaFunc sponge index)) fun stack seen w =>
      ∃ order, seen = blocked ++ order ∧ DeltaWalk sponge t₀ index blocked tip order stack w where
  skip := by
    rintro h stack seen w ⟨order, rfl, hw⟩ hmem
    exact ⟨order, rfl, { hw with explored := hw.explored.skip hmem }⟩
  push := by
    rintro h stack seen w r w' ⟨order, rfl, hw⟩ hfresh hr hstop
    obtain ⟨w₁, v, hload, hfunc, hgo, hseen, hnext⟩ := Walk.visitPast_ok hr hstop
    obtain ⟨hcount, han, tx, hm, hx, hfx, hbr, hor⟩ := hw.verdict hload hfunc hgo
    have hsame := hw.same.trans
      ((Walk.keeps_visitPast Tangle.storeFrame_sameCore (keeps_getLatestDeltaFunc sponge index)
        h _).of_ok hr)
    have hbuf : Buffered t₀ (order ++ [h]) w'.pack := by
      refine ⟨fun tx' hm' => ?_⟩
      rw [hm] at hm'
      obtain rfl : tx = tx' := Option.some.inj hm'
      exact ⟨hfx, hx⟩
    have hnext' : r.next = approvees t₀.core index tx.hash := by
      rw [approvees_of_find? hfx, unconfirmed_core]
      rcases hnext with ⟨hb, hn⟩ | ⟨tx', hm', hb, hn⟩
      · rw [hn, ← hbr, hb]
        rfl
      · rw [hm] at hm'
        obtain rfl : tx = tx' := Option.some.inj hm'
        rw [hn, ← hbr, hb]
        rfl
    refine ⟨order ++ [h], ?_, hcount.valid, hsame, hcount.noZero, ?_, hbuf, fun a => ?_,
      fun hz => ?_⟩
    · rw [hseen, han, hashSetAdd_of_not_mem hfresh, List.append_assoc]
    · refine hw.explored.push hfresh (fun y hy => ?_) fun y hy => ⟨tx.hash, hx, hnext' ▸ hy⟩
      rcases hor with hnone | rfl
      · rw [approvees, hnone] at hy
        cases hy
      · rwa [hnext']
    · rw [hcount.get a]
      simp
    · obtain ⟨hz', hh⟩ := hcount.zeroSum hz
      refine ⟨hz', fun y hy => ?_⟩
      rcases List.mem_append.mp hy with hy | hy
      · exact (hw.zeroSum hz).2 y hy
      · exact List.mem_singleton.mp hy ▸ hh

/-- What a finished walk has computed. -/
structure DeltaOf (sponge : Sponge Hash) (t₀ : Tangle Hash) (index : ℕ) (blocked : List Hash)
    (tip : Hash) (seen : List Hash) (d : StateDelta Hash) (t' : Tangle Hash) : Prop where
  same : Tangle.SameCore t₀ t'
  noZero : d.NoZero
  get : ∀ a, d.get a = Int64.ofInt (netChange t₀.core index blocked tip a)
  visited : ∃ order, seen = blocked ++ order ∧ order.Nodup ∧
    ∀ x, x ∈ order ↔ Cone t₀.core index blocked tip x
  zeroSum : Tangle.ValidZeroSum sponge t₀ → ∑ᶠ a, netChange t₀.core index blocked tip a = 0

theorem DeltaOf.of_sameTables {seen : List Hash} (hs : Tangle.SameTables t₀ t)
    (h : DeltaOf sponge t index blocked tip seen d t') :
    DeltaOf sponge t₀ index blocked tip seen d t' := by
  have hc := hs.sameCore.1
  refine ⟨hs.sameCore.trans h.same, h.noZero, fun a => ?_, ?_, fun hz => ?_⟩
  · rw [h.get a, hc]
  · rw [← hc]
    exact h.visited
  · rw [← hc]
    exact h.zeroSum (hz.of_sameTables hs)

theorem DeltaOf.mem_seen {seen : List Hash} (h : DeltaOf sponge t index blocked tip seen d t')
    (x : Hash) : x ∈ seen ↔ x ∈ blocked ∨ Cone t.core index blocked tip x := by
  obtain ⟨order, rfl, -, hmem⟩ := h.visited
  rw [List.mem_append, hmem]

omit [HashBytes Hash] in
theorem finite_support_change (txs : Rows Hash) (index : ℕ) (h : Hash) :
    (Function.support fun a => change txs index h a).Finite := by
  unfold change
  split
  · simp
  · split
    · exact finite_support_valueAt _
    · simp

omit [HashBytes Hash] in
/-- The net change is the sum along any list of the cone. -/
theorem netChange_eq_sum {txs : Rows Hash} (hnd : order.Nodup)
    (hmem : ∀ x, x ∈ order ↔ Cone txs index blocked tip x) (a : Hash) :
    netChange txs index blocked tip a = (order.map (change txs index · a)).sum := by
  have hset : {h | Cone txs index blocked tip h} = ↑order.toFinset := by
    ext x
    simp [hmem]
  rw [netChange, hset, finsum_mem_coe_finset, List.sum_toFinset _ hnd]

/-- A finished walk lists its cone after the blocked hashes. -/
theorem DeltaOf.netChange_eq (h : DeltaOf sponge t index blocked tip (blocked ++ order) d t')
    (a : Hash) :
    netChange t.core index blocked tip a = (order.map (change t.core index · a)).sum := by
  obtain ⟨order', heq, hnd, hmem⟩ := h.visited
  rw [List.append_cancel_left heq]
  exact netChange_eq_sum hnd hmem a

/-- The walk of `get_latest_delta` before its first round. -/
abbrev deltaStart (t : Tangle Hash) : Walk Hash (LatestDelta Hash) :=
  ⟨t, ⟨none, false⟩, ⟨true, Table.empty⟩⟩

/-- The walk of `get_latest_delta` comes through this stack, visited set and state. -/
abbrev DeltaPasses (sponge : Sponge Hash) (genesis : Hash) (initial : Snapshot Hash) (index : ℕ)
    (analyzed : List Hash) (tip : Hash) (t : Tangle Hash) :
    List Hash → List Hash → Walk Hash (LatestDelta Hash) → Prop :=
  Passes (Walk.visitPast (getLatestDeltaFunc sponge index)) [tip]
    (Ledger.blocked genesis initial analyzed) (deltaStart t)

/-- **A valid delta comes from a walk whose stack ran empty.** -/
theorem getLatestDelta_passes {initial : Snapshot Hash} {seen : List Hash} {ld : LatestDelta Hash}
    (hr : getLatestDelta sponge genesis initial index analyzed tip t = .ok (seen, ld) t')
    (hv : ld.validDelta = true) :
    ∃ w, DeltaPasses sponge genesis initial index analyzed tip t [] seen w ∧ w.data = ld ∧
      w.tangle = t' := by
  obtain ⟨w, hw, rfl, rfl⟩ := Walk.run_eq_ok.mp hr
  rcases search_run (passes_invariant _ _ _ _) .start hw with
    hend | ⟨x, seen', w₀, r, -, hvisit, hstop, -⟩
  · exact ⟨w, hend, rfl, rfl⟩
  · -- the walk stopped, so the delta is not valid
    exfalso
    obtain ⟨w₁, v, -, hfunc, hvs⟩ := Walk.visitPast_stopped hvisit hstop
    obtain ⟨tx, -, -, -, hc⟩ := getLatestDeltaFunc_ok hfunc
    rcases hc with ⟨-, -, hs, -⟩ | ⟨-, -, -, hs, -⟩ | ⟨-, hfalse⟩ | ⟨-, -, -, hs, -⟩
    · rw [hvs] at hs; cases hs
    · rw [hvs] at hs; cases hs
    · rw [hv] at hfalse; cases hfalse
    · rw [hvs] at hs; cases hs

/-- Where a walk for a delta stands, wherever it comes through. -/
theorem DeltaPasses.deltaWalk {initial : Snapshot Hash} {seen : List Hash}
    (h : DeltaPasses sponge genesis initial index analyzed tip t stack seen w) :
    ∃ order, seen = Ledger.blocked genesis initial analyzed ++ order ∧
      DeltaWalk sponge t index (Ledger.blocked genesis initial analyzed) tip order stack w := by
  refine (deltaWalk_invariant sponge t index _ tip).passes ⟨[], (List.append_nil _).symm, ?_⟩ h
  exact ⟨rfl, .refl _, StateDelta.noZero_empty, .start, ⟨fun _ h => by cases h⟩, fun _ => rfl,
    fun hz => ⟨hz, fun _ h => by cases h⟩⟩

/-- **A valid delta is the net change of the cone.** -/
theorem getLatestDelta_ok {initial : Snapshot Hash} {seen : List Hash} {ld : LatestDelta Hash}
    (hr : getLatestDelta sponge genesis initial index analyzed tip t = .ok (seen, ld) t')
    (hv : ld.validDelta = true) :
    DeltaOf sponge t index (Ledger.blocked genesis initial analyzed) tip seen ld.state t' := by
  obtain ⟨w, hpass, rfl, rfl⟩ := getLatestDelta_passes hr hv
  obtain ⟨order, rfl, hend⟩ := hpass.deltaWalk
  have hmem : ∀ x,
      x ∈ order ↔ Cone t.core index (Ledger.blocked genesis initial analyzed) tip x :=
    fun x => hend.explored.mem_iff
  have hnet := netChange_eq_sum hend.explored.nodup hmem
  refine ⟨hend.same, hend.noZero, fun a => by rw [hnet a]; exact hend.get a,
    ⟨order, rfl, hend.explored.nodup, hmem⟩, ?_⟩
  intro hz
  rw [finsum_congr hnet]
  have hzero := (hend.zeroSum hz).2
  clear hnet hmem hend hr hv hpass
  induction order with
  | nil => simp
  | cons y order ih =>
    simp only [List.map_cons, List.sum_cons]
    rw [finsum_add_distrib (finite_support_change _ _ _) ?_, hzero y List.mem_cons_self,
      zero_add]
    · exact ih fun h hh => hzero h (List.mem_cons_of_mem _ hh)
    · refine (Set.finite_iUnion fun i : order.toFinset =>
        finite_support_change t.core index i.1).subset fun a ha => ?_
      by_contra hn
      refine ha (List.sum_eq_zero fun z hz' => ?_)
      obtain ⟨y', hy', rfl⟩ := List.mem_map.mp hz'
      by_contra hne
      exact hn (Set.mem_iUnion.mpr ⟨⟨y', by simpa using hy'⟩, hne⟩)

/-! ## Cones and blocked hashes -/

omit [HashBytes Hash] in
theorem mem_blocked {initial : Snapshot Hash} {x : Hash} :
    x ∈ Ledger.blocked genesis initial analyzed ↔
    x ∈ analyzed ∨ x ∈ initial.solidEntryPoints.keys ∨ x = genesis := by
  simp [Ledger.blocked, or_assoc]

omit [HashBytes Hash] in
theorem not_cone_of_mem {txs : Rows Hash} {B : List Hash} {x : Hash} (h : tip ∈ B) :
    ¬ Cone txs index B tip x := by
  intro hx
  induction hx with
  | root hn => exact hn h
  | step _ _ _ ih => exact ih

omit [HashBytes Hash] in
theorem netChange_of_mem {txs : Rows Hash} {B : List Hash} (h : tip ∈ B) :
    netChange txs index B tip a = 0 := by
  have hempty : {x | Cone txs index B tip x} = ∅ :=
    Set.eq_empty_of_forall_notMem fun x => not_cone_of_mem h
  rw [netChange, hempty, finsum_mem_empty]

omit [HashBytes Hash] in
/-- A cone is finite: past the tip it holds approvees of stored rows. -/
theorem finite_cone (txs : Rows Hash) (index : ℕ) (B : List Hash) (tip : Hash) :
    {x | Cone txs index B tip x}.Finite := by
  refine ((tip :: txs.rows.flatMap fun tx => [tx.trunk, tx.branch]).finite_toSet).subset ?_
  intro x hx
  cases hx with
  | root _ => exact List.mem_cons_self
  | @step z _ _ hy _ =>
    refine List.mem_cons_of_mem _ ?_
    unfold approvees at hy
    cases hf : txs.find? z with
    | none => rw [hf] at hy; cases hy
    | some tx =>
      rw [hf] at hy
      dsimp only at hy
      split at hy
      · exact List.mem_flatMap.mpr ⟨tx, Table.mem_of_find? hf, hy⟩
      · cases hy

omit [HashBytes Hash] in
theorem finite_support_netChange (txs : Rows Hash) (index : ℕ) (B : List Hash) (tip : Hash) :
    (Function.support fun a => netChange txs index B tip a).Finite := by
  refine ((finite_cone txs index B tip).biUnion fun x _ =>
    finite_support_change txs index x).subset fun a ha => ?_
  by_contra hn
  refine ha (finsum_mem_eq_zero_of_forall_eq_zero fun x hx => ?_)
  by_contra hne
  exact hn (Set.mem_biUnion hx hne)

end Ledger

end Entangled
