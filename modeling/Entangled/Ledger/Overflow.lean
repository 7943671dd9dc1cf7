import Entangled.Ledger.Sums
/-!
# Overflow in the ledger

The words a call of the ledger validator holds while it computes the delta of
a tip are those of the sums along an order of the tip's cone
(`CallSum.summed`), so the bounds of `SumsBounded` keep every one of them exact.
They are not met by every tangle: a valid bundle that moves the supply back and
forth between two addresses can be long enough to take one of them past
`2 ^ 63`.
-/

namespace Entangled

open Prog Search Orders StateDelta

variable {Hash : Type} [DecidableEq Hash] [HashBytes Hash]

namespace Ledger

variable {sponge : Sponge Hash} {genesis tip h a : Hash} {initial latest : Snapshot Hash}
  {index : ℕ} {analyzed order stack seen : List Hash} {running d d' : StateDelta Hash}
  {t t' t₀ t₁ : Tangle Hash} {es : List (Hash × Int64)} {b : List (Transaction Hash)}
  {w w₁ w' : Walk Hash (LatestDelta Hash)} {ld : LatestDelta Hash} {v : Verdict Hash}
  {blocked' : List Hash}

/-- The cone of a tip as a finite set. -/
noncomputable def coneSet (txs : Rows Hash) (index : ℕ) (blocked : List Hash) (tip : Hash) :
    Finset Hash :=
  (finite_cone txs index blocked tip).toFinset

omit [HashBytes Hash] in
@[simp] theorem mem_coneSet {txs : Rows Hash} {blocked : List Hash} :
    h ∈ coneSet txs index blocked tip ↔ Cone txs index blocked tip h :=
  Set.Finite.mem_toFinset _

/-- **The deltas a call comes through** that computes the delta of a tip and adds
the running delta to it, each with the amounts that were added so far. -/
inductive CallSum (sponge : Sponge Hash) (genesis : Hash) (initial : Snapshot Hash) (index : ℕ)
    (analyzed : List Hash) (running : StateDelta Hash) (tip : Hash) (t : Tangle Hash) :
    List (Hash × Int64) → StateDelta Hash → Prop
  /-- The walk is at `h`, a tail whose bundle is valid, and has added the first
  transactions of it. -/
  | bundle {h : Hash} {stack order : List Hash} {w w₁ : Walk Hash (LatestDelta Hash)}
      {tx : Transaction Hash} {b₁ b₂ : List (Transaction Hash)} {t₁ t' : Tangle Hash}
      {d : StateDelta Hash} :
      DeltaPasses sponge genesis initial index analyzed tip t (h :: stack)
        (blocked genesis initial analyzed ++ order) w →
      h ∉ blocked genesis initial analyzed ++ order →
      Walk.loadPack h w = .ok () w₁ → w₁.pack.model = some tx →
      unconfirmed index tx = true → tx.currentIndex = 0 →
      Tangle.bundleValidatorValidate sponge h w₁.tangle = .ok (b₁ ++ b₂, .valid) t₁ →
      addBundle b₁ w₁.data.state t₁ = .ok d t' →
      CallSum sponge genesis initial index analyzed running tip t
        (order.flatMap (amounts t.core index) ++ b₁.map amount) d
  /-- The walk is over, and the first entries of the running delta were added. -/
  | patch {order : List Hash} {ld : LatestDelta Hash} {t' : Tangle Hash}
      {es more : List (Hash × Int64)} {al : List Bool} {m : Heap Hash} :
      getLatestDelta sponge genesis initial index analyzed tip t =
        .ok (blocked genesis initial analyzed ++ order, ld) t' → ld.validDelta = true →
      running.rows = es ++ more →
      forEach (fun a v => if v ≠ 0 then addOrSum a v else pure ()) es ⟨ld.state, al⟩ = .ok () m →
      CallSum sponge genesis initial index analyzed running tip t
        (order.flatMap (amounts t.core index) ++ es) m.state

/-- **The sums of a call are exact**: the words it holds on the way, and those of
the patch it makes and tests. -/
structure ExactCall (sponge : Sponge Hash) (genesis : Hash) (initial latest : Snapshot Hash)
    (analyzed : List Hash) (running : StateDelta Hash) (tip : Hash) (t : Tangle Hash) : Prop where
  delta : ∀ es d, CallSum sponge genesis initial latest.index analyzed running tip t es d →
    ∀ a, (d.get a).toInt = amountAt es a
  patch : ∀ order ld t' al m, getLatestDelta sponge genesis initial latest.index analyzed tip t =
      .ok (blocked genesis initial analyzed ++ order, ld) t' → ld.validDelta = true →
    applyPatch running ⟨ld.state, al⟩ = .ok () m → ∀ e ∈ m.state.rows,
      (latest.state.get e.1 + e.2).toInt = (latest.state.get e.1).toInt +
        amountAt (journal t.core latest.index order running) e.1

/-! ## A call adds along an order of its cone -/

theorem summed_addBundle (hr : addBundle b d t = .ok d' t') : Summed (b.map amount) d d' := by
  induction b generalizing d t with
  | nil =>
    cases hr
    exact .nil
  | cons tx b ih =>
    obtain ⟨d₁, t₁, h₁, h₂⟩ := bind_eq_ok.mp hr
    obtain ⟨m, hm, rfl, -⟩ := Tangle.withHeap_ok rfl h₁
    exact .cons hm (ih h₂)

/-- A bundle is added when nothing fails. -/
theorem addBundle_of_nil (hq : t.Quiet) (b : List (Transaction Hash)) (d : StateDelta Hash) :
    ∃ d', addBundle b d t = .ok d' t := by
  induction b generalizing d with
  | nil => exact ⟨d, rfl⟩
  | cons tx b ih =>
    obtain ⟨d₁, h₁⟩ : ∃ d₁, Tangle.withHeap .deltaAlloc d (addOrSum tx.address tx.value) t =
        .ok d₁ t := Tangle.withHeap_of_nil hq (addOrSum_of_nil rfl)
    obtain ⟨d', hd'⟩ := ih d₁
    exact ⟨d', by rw [addBundle, bind_apply_ok h₁, hd']⟩

theorem amounts_of_valid {tx : Transaction Hash} (hs : Tangle.SameCore t₀ t)
    (hf : t₀.core.find? h = some tx.core) (hu : unconfirmed index tx = true)
    (hc : tx.currentIndex = 0)
    (hval : Tangle.bundleValidatorValidate sponge h t = .ok (b, .valid) t₁) :
    amounts t₀.core index h = b.map amount := by
  obtain ⟨-, rfl, -, -⟩ := Tangle.bundleValidatorValidate_ok hval
  rw [amounts, hf]
  dsimp only
  rw [if_pos ⟨hu, hc⟩, ← hs.1, Tangle.bundleOf_core, List.map_map]
  rfl

/-- A round that goes on adds what its hash stands for. -/
theorem DeltaWalk.summed_round
    (hw : DeltaWalk sponge t₀ index blocked' tip order (h :: stack) w)
    (hload : Walk.loadPack h w = .ok () w₁)
    (hfunc : getLatestDeltaFunc sponge index h analyzed w₁ = .ok v w')
    (hgo : v.shouldStop = false) :
    Summed (amounts t₀.core index h) w.data.state w'.data.state := by
  obtain ⟨hs₁, hd₁, -⟩ := Walk.loadPack_ok hload
  obtain ⟨tx, hm, -, -, hcases⟩ := getLatestDeltaFunc_ok hfunc
  obtain ⟨-, hfx, hor⟩ := hw.buffer hload hm
  have hidle : ¬ (unconfirmed index tx = true ∧ tx.currentIndex = 0) →
      amounts t₀.core index h = [] := by
    intro hn
    rcases hor with hnone | rfl
    · rw [amounts, hnone]
    · rw [amounts, hfx]
      exact if_neg hn
  rw [← hd₁]
  rcases hcases with ⟨hu, -, -, rfl⟩ | ⟨-, hc, -, -, rfl⟩ | ⟨hstop, -⟩ |
    ⟨hu, hc, -, -, b, t₁, hval, hadd, -⟩
  · rw [hidle fun hn => Bool.noConfusion (hu.symm.trans hn.1)]
    exact .nil
  · rw [hidle fun hn => hc hn.2]
    exact .nil
  · rw [hstop] at hgo
    cases hgo
  · -- the validated bundle is that of `h`, so the row in the buffer is that of `h`
    obtain ⟨⟨tx', hf', -⟩, -, -, -⟩ := Tangle.bundleValidatorValidate_ok hval
    have hsame := hw.same.trans hs₁.sameCore
    have hfh : t₀.core.find? h = some tx'.core := by
      rw [← hsame.1, Tangle.find?_core, hf']
      rfl
    have hx : tx.hash = h := hor.resolve_left (by rw [hfh]; simp)
    rw [amounts_of_valid hsame (hx ▸ hfx) hu hc hval]
    exact summed_addBundle hadd

/-- **Wherever a walk comes through**, its delta is the sum of what it visited. -/
theorem DeltaPasses.summed
    (hp : DeltaPasses sponge genesis initial index analyzed tip t stack
      (blocked genesis initial analyzed ++ order) w) :
    Summed (order.flatMap (amounts t.core index)) Table.empty w.data.state := by
  generalize hseen : blocked genesis initial analyzed ++ order = seen at hp
  induction hp generalizing order with
  | start =>
    have hnil : order = [] := List.append_cancel_left (hseen.trans (List.append_nil _).symm)
    subst hnil
    exact .nil
  | skip _ _ ih => exact ih hseen
  | @push h rest seen w w' r hpre hfresh hr hstop ih =>
    obtain ⟨order₀, rfl, hw⟩ := DeltaPasses.deltaWalk hpre
    obtain ⟨w₁, v, hload, hfunc, hgo, hadd, -⟩ := Walk.visitPast_ok hr hstop
    obtain ⟨-, -, -, han, -⟩ := getLatestDeltaFunc_ok hfunc
    rw [han, hashSetAdd_of_not_mem hfresh, List.append_assoc] at hadd
    have horder : order = order₀ ++ [h] := List.append_cancel_left (hseen.trans hadd)
    subst horder
    rw [List.flatMap_append]
    refine (ih rfl).append ?_
    simpa using hw.summed_round hload hfunc hgo

/-- **A call adds along an order of its cone.** -/
theorem CallSum.summed (hs : CallSum sponge genesis initial index analyzed running tip t es d) :
    Summed es Table.empty d ∧ ∃ order more,
      Enumerates order (coneSet t.core index (blocked genesis initial analyzed) tip) ∧
        journal t.core index order running = es ++ more := by
  cases hs with
  | @bundle h stack order w w₁ tx b₁ b₂ t₁ t' d hpass hfresh hload hm hu hc hval hadd =>
    obtain ⟨order', heq, hw⟩ := hpass.deltaWalk
    obtain rfl : order = order' := List.append_cancel_left heq
    obtain ⟨hs₁, hd₁, -⟩ := Walk.loadPack_ok hload
    have hsame := hw.same.trans hs₁.sameCore
    obtain ⟨-, hfx, hor⟩ := hw.buffer hload hm
    have hf : t.core.find? h = some tx.core := by
      obtain ⟨⟨tx', hf', -⟩, -, -, -⟩ := Tangle.bundleValidatorValidate_ok hval
      have hfh : t.core.find? h = some tx'.core := by
        rw [← hsame.1, Tangle.find?_core, hf']
        rfl
      have hx : tx.hash = h := hor.resolve_left (by rw [hfh]; simp)
      exact hx ▸ hfx
    have hamounts := amounts_of_valid hsame hf hu hc hval
    refine ⟨hpass.summed.append (hd₁ ▸ summed_addBundle hadd), ?_⟩
    -- the walk has not been at `h`, and comes to the rest of the cone after it
    have hcone : Cone t.core index (blocked genesis initial analyzed) tip h :=
      (hw.explored.pending h List.mem_cons_self).resolve_left fun hb =>
        hfresh (List.mem_append_left _ hb)
    have hnd : (order ++ [h]).Nodup := by
      refine List.nodup_append.mpr ⟨hw.explored.nodup, List.nodup_singleton h, ?_⟩
      intro x hx y hy hxy
      rw [List.mem_singleton] at hy
      exact hfresh (List.mem_append_right _ (hy ▸ hxy ▸ hx))
    have hsub : ∀ x ∈ order ++ [h],
        x ∈ coneSet t.core index (blocked genesis initial analyzed) tip := by
      intro x hx
      rw [mem_coneSet]
      rcases List.mem_append.mp hx with hx | hx
      · exact hw.explored.sound x hx
      · exact List.mem_singleton.mp hx ▸ hcone
    obtain ⟨rest, hrest⟩ := exists_enumerates_append hnd hsub
    refine ⟨_, b₂.map amount ++ rest.flatMap (amounts t.core index) ++ running.rows, hrest, ?_⟩
    simp [journal, hamounts]
  | @patch order ld t' es more al m hr hv hrows hadd =>
    obtain ⟨w, hpass, rfl, -⟩ := getLatestDelta_passes hr hv
    refine ⟨hpass.summed.append (summed_applyRows hadd), order, more, ?_, ?_⟩
    · obtain ⟨order', heq, hnd, hmem⟩ := (getLatestDelta_ok hr hv).visited
      obtain rfl : order = order' := List.append_cancel_left heq
      exact ⟨hnd, fun x => by rw [hmem, mem_coneSet]⟩
    · rw [journal, hrows, List.append_assoc]

/-- **The bounds keep a call exact.** -/
theorem SumsBounded.exactCall (hb : SumsBounded t.core latest.index
      (coneSet t.core latest.index (blocked genesis initial analyzed) tip) latest.state running) :
    ExactCall sponge genesis initial latest analyzed running tip t := by
  constructor
  · intro es d hcall
    obtain ⟨hsum, order, more, ho, heq⟩ := hcall.summed
    exact (hb.exactSums ho).delta heq hsum
  · intro order ld t' al m hr hv hm
    have hcall : CallSum sponge genesis initial latest.index analyzed running tip t
        (order.flatMap (amounts t.core latest.index) ++ running.rows) m.state :=
      .patch hr hv (List.append_nil _).symm hm
    obtain ⟨order', heq, hnd, hmem⟩ := (getLatestDelta_ok hr hv).visited
    obtain rfl : order = order' := List.append_cancel_left heq
    exact (hb.exactSums ⟨hnd, fun x => by rw [hmem, mem_coneSet]⟩).patch hcall.summed.1

/-- What a call adds up to fits, wherever it has come to, and so do the balances
of its patch. -/
structure CallFits (sponge : Sponge Hash) (genesis : Hash) (initial latest : Snapshot Hash)
    (analyzed : List Hash) (running : StateDelta Hash) (tip : Hash) (t : Tangle Hash) : Prop where
  delta : ∀ es d, CallSum sponge genesis initial latest.index analyzed running tip t es d →
    ∀ a, Word.Fits (amountAt es a)
  patch : ∀ order ld t' al m, getLatestDelta sponge genesis initial latest.index analyzed tip t =
      .ok (blocked genesis initial analyzed ++ order, ld) t' → ld.validDelta = true →
    applyPatch running ⟨ld.state, al⟩ = .ok () m → ∀ a,
      Word.Fits ((latest.state.get a).toInt +
        amountAt (journal t.core latest.index order running) a)

/-- **A call is exact if and only if its own sums fit.** -/
theorem exactCall_iff : ExactCall sponge genesis initial latest analyzed running tip t ↔
    CallFits sponge genesis initial latest analyzed running tip t := by
  have hlast : ∀ {order ld t' al m}, getLatestDelta sponge genesis initial latest.index analyzed
      tip t = .ok (blocked genesis initial analyzed ++ order, ld) t' → ld.validDelta = true →
      applyPatch running ⟨ld.state, al⟩ = .ok () m →
      CallSum sponge genesis initial latest.index analyzed running tip t
        (journal t.core latest.index order running) m.state :=
    fun hr hv hm => .patch hr hv (List.append_nil _).symm hm
  constructor
  · intro h
    refine ⟨fun es d hcall a => (hcall.summed.1.exact_iff a).mp (h.delta es d hcall a), ?_⟩
    intro order ld t' al m hr hv hm a
    have hcall := hlast hr hv hm
    exact hcall.summed.1.fits_of_patch (h.delta _ _ hcall) (h.patch order ld t' al m hr hv hm) a
  · intro h
    refine ⟨fun es d hcall a => (hcall.summed.1.exact_iff a).mpr (h.delta es d hcall a), ?_⟩
    intro order ld t' al m hr hv hm e he
    exact ((hlast hr hv hm).summed.1.patch_exact_iff he).mpr (h.patch order ld t' al m hr hv hm e.1)

/-- **When the sums of the ledger cannot overflow.** Along every order of a cone
they are exact if and only if no sum leaves the word, and then a call that
visits the cone holds exact words throughout. A call by itself is exact if and
only if the sums it comes through fit. -/
theorem ledger_sums_exact_iff (sponge : Sponge Hash) (genesis : Hash)
    (initial latest : Snapshot Hash) (analyzed : List Hash) (running : StateDelta Hash)
    (tip : Hash) (t : Tangle Hash) :
    ((∀ order, Enumerates order
        (coneSet t.core latest.index (blocked genesis initial analyzed) tip) →
        ExactSums latest.state (journal t.core latest.index order running)) ↔
      SumsBounded t.core latest.index
        (coneSet t.core latest.index (blocked genesis initial analyzed) tip) latest.state
        running) ∧
    (SumsBounded t.core latest.index
        (coneSet t.core latest.index (blocked genesis initial analyzed) tip) latest.state
        running → ExactCall sponge genesis initial latest analyzed running tip t) ∧
    (ExactCall sponge genesis initial latest analyzed running tip t ↔
      CallFits sponge genesis initial latest analyzed running tip t) :=
  ⟨forall_orders_exactSums_iff, SumsBounded.exactCall, exactCall_iff⟩

/-- The first bundle of `cancelTangle` is far from that long, so the call that
adds it is exact. -/
theorem ledger_sums_exact_first_bundle :
    ExactCall plainSponge 0 cancelSnapshot cancelSnapshot [] Table.empty 1 cancelTangle := by
  have hrun : returns (getLatestDelta plainSponge 0 cancelSnapshot 0 [] 1) cancelTangle
      (fun r _ => r.2.validDelta && decide (r.1 = blocked 0 cancelSnapshot [] ++ [1, 2])) =
        true := by decide +kernel
  obtain ⟨⟨seen, ld⟩, t', hld, hq⟩ := of_returns hrun
  rw [Bool.and_eq_true, decide_eq_true_eq] at hq
  obtain ⟨hvalid, rfl⟩ := hq
  obtain ⟨order, heq, hnd, hmem⟩ := (getLatestDelta_ok hld hvalid).visited
  obtain rfl : [1, 2] = order := List.append_cancel_left heq
  have hcone : coneSet cancelTangle.core 0 (blocked 0 cancelSnapshot []) 1 = {1, 2} := by
    ext x
    rw [mem_coneSet, ← hmem]
    simp
  refine (ledger_sums_exact_iff plainSponge 0 cancelSnapshot cancelSnapshot [] Table.empty 1
    cancelTangle).2.1 ?_
  rw [show cancelSnapshot.index = 0 from rfl, hcone]
  have hsmall : ([1, 2] : List (Fin 256)).all (fun h => (amounts cancelTangle.core 0 h).all
      fun e => decide (|e.2.toInt| ≤ 100)) = true := by decide +kernel
  refine sumsBounded_of_count (c := 100) ?_ ?_ ?_ ?_
  · intro h hh e he
    have hall := List.all_eq_true.mp hsmall h (by simpa using hh)
    exact of_decide_eq_true (List.all_eq_true.mp hall e he)
  · decide +kernel
  · decide +kernel
  · decide +kernel

/-! ## A bundle that is too long -/

instance : HashBytes (Fin 65536) where
  size := 2
  encode h := [UInt8.ofNat (h.val % 256), UInt8.ofNat (h.val / 256)]
  decode b := Fin.ofNat 65536 ((b.headD 0).toNat + 256 * (b.tail.headD 0).toNat)
  length_encode _ := rfl
  decode_encode h := by
    have hlt := h.isLt
    apply Fin.ext
    simp only [List.headD_cons, List.tail_cons, UInt8.toNat_ofNat', Fin.ofNat]
    omega

/-- A sponge that digests everything to zero. -/
def pumpSponge : Sponge (Fin 65536) := ⟨fun _ => 0, fun _ _ => 0, fun _ => 0⟩

/-- Transaction `i` of a bundle that moves the whole supply from `0` to `1`, `n`
times: the even ones receive it, the odd ones send it. -/
def pumpTx (n i : ℕ) : Transaction (Fin 65536) where
  address := if i % 2 = 0 then 1 else 0
  value := if i % 2 = 0 then maxIotaSupply else -maxIotaSupply
  obsoleteTag := []
  timestamp := 0
  currentIndex := i
  lastIndex := 2 * n - 1
  bundle := 0
  trunk := Fin.ofNat 65536 (i + 2)
  branch := 0
  attachmentTimestamp := 0
  hash := Fin.ofNat 65536 (i + 1)
  signature := []
  snapshotIndex := 0
  solid := true
  validity := .notInitialized

theorem nodup_pump {n : ℕ} (hn : 2 * n < 65536) :
    (((List.range (2 * n)).map (pumpTx n)).map (·.hash)).Nodup := by
  rw [List.map_map]
  refine List.Nodup.map_on ?_ List.nodup_range
  intro i hi j hj hij
  rw [List.mem_range] at hi hj
  have hval : (i + 1) % 65536 = (j + 1) % 65536 := congrArg Fin.val hij
  omega

/-- The store that holds this one bundle. -/
def pumpTangle (n : ℕ) (hn : 2 * n < 65536) : Tangle (Fin 65536) where
  transactions := ⟨(List.range (2 * n)).map (pumpTx n), nodup_pump hn⟩
  milestones := ⟨Table.empty, List.nodup_nil⟩
  faults := fun _ => []

/-- A snapshot that gives `0` the supply. -/
def pumpSnapshot : Snapshot (Fin 65536) :=
  ⟨⟨[(0, maxIotaSupply)], List.nodup_singleton _⟩, 0, 0, 0, Table.empty⟩

variable {n i : ℕ} {hn : 2 * n < 65536}

theorem find?_pump (hi : i < 2 * n) :
    (pumpTangle n hn).transactions.find? (Fin.ofNat 65536 (i + 1)) = some (pumpTx n i) :=
  Table.find?_key (r := pumpTx n i) (List.mem_map.mpr ⟨i, List.mem_range.mpr hi, rfl⟩)

theorem trunkChain_pump : ∀ {k i : ℕ}, i + k = 2 * n →
    trunkChain (pumpTangle n hn).transactions k (pumpTx n i) =
      (List.range' i k).map (pumpTx n) := by
  intro k
  induction k with
  | zero => intro i _; rfl
  | succ k ih =>
    intro i hi
    rw [trunkChain, List.range'_succ, List.map_cons]
    cases k with
    | zero =>
      -- the last transaction, whatever its trunk leads to
      split
      · rfl
      · rfl
    | succ k =>
      have hnext : (pumpTangle n hn).transactions.find? (pumpTx n i).trunk =
          some (pumpTx n (i + 1)) := find?_pump (by omega)
      rw [hnext]
      dsimp only
      rw [ih (by omega)]

theorem bundleOf_pump (h0 : 0 < n) :
    bundleOf (pumpTangle n hn).transactions (Fin.ofNat 65536 1) =
      (List.range (2 * n)).map (pumpTx n) := by
  have hlen : (pumpTx n 0).lastIndex + 1 = 2 * n := by
    have : (pumpTx n 0).lastIndex = 2 * n - 1 := rfl
    omega
  have hfind : (pumpTangle n hn).transactions.find? (Fin.ofNat 65536 1) = some (pumpTx n 0) :=
    find?_pump (i := 0) (by omega)
  rw [bundleOf, hfind]
  dsimp only
  rw [if_neg (by simp [pumpTx]), hlen, List.range_eq_range']
  exact trunkChain_pump (by omega)

theorem validateSignatures_pump (l : List ℕ) :
    validateSignatures pumpSponge 0 (l.map (pumpTx n)) = true := by
  induction l with
  | nil => rfl
  | cons i l ih =>
    rw [List.map_cons, validateSignatures]
    split
    · exact ih
    · rename_i hneg
      have haddr : (pumpTx n i).address = 0 := by
        by_contra hne
        by_cases hi : i % 2 = 0
        · exact hneg (by simp [pumpTx, hi]; decide)
        · exact hne (by simp [pumpTx, hi])
      rw [haddr]
      exact ih

theorem bundleValidateLoop_pump {bundle : List (Transaction (Fin 65536))}
    (hsig : validateSignatures pumpSponge 0 bundle = true) :
    ∀ {k i : ℕ} {status : BundleStatus}, i + k = 2 * n → (k = 0 → status = .valid) →
      bundleValidateLoop pumpSponge bundle 0 (2 * n - 1) ((List.range' i k).map (pumpTx n)) i
        (if i % 2 = 0 then 0 else maxIotaSupply) status = .valid := by
  intro k
  induction k with
  | zero => intro i status _ hst; exact hst rfl
  | succ k ih =>
    intro i status hi _
    have hnext : (if i % 2 = 0 then 0 else maxIotaSupply) + (pumpTx n i).value =
        if (i + 1) % 2 = 0 then 0 else maxIotaSupply := by
      by_cases hi2 : i % 2 = 0
      · have : (i + 1) % 2 ≠ 0 := by omega
        simp [pumpTx, hi2, this]
      · have : (i + 1) % 2 = 0 := by omega
        simp only [pumpTx, hi2, this, if_true, if_false]
        rfl
    have hvalue : ¬ maxIotaSupply < llabs (pumpTx n i).value := by
      by_cases hi2 : i % 2 = 0
      · simp only [pumpTx, hi2, if_true]
        decide
      · simp only [pumpTx, hi2, if_false]
        decide
    have hsum : ¬ maxIotaSupply < llabs (if (i + 1) % 2 = 0 then 0 else maxIotaSupply) := by
      split
      · decide
      · decide
    have hplace : ¬ ((pumpTx n i).currentIndex ≠ i ∨ (pumpTx n i).lastIndex ≠ 2 * n - 1) := by
      simp [pumpTx]
    rw [List.range'_succ, List.map_cons, bundleValidateLoop, hnext, if_neg hvalue, if_neg hsum,
      if_neg hplace, if_neg (by simp [pumpSponge])]
    have hrest := @ih (i + 1) .valid (by omega) fun _ => rfl
    by_cases hlast : (pumpTx n i).currentIndex = 2 * n - 1
    · -- at the last transaction the sum is zero again
      have hi' : i = 2 * n - 1 := hlast
      have heven : (i + 1) % 2 = 0 := by omega
      rw [if_pos hlast, if_pos heven, if_neg (by simp), if_neg (by simp [pumpSponge]),
        if_neg (by simp [hsig])]
      rwa [if_pos heven] at hrest
    · rw [if_neg hlast]
      exact hrest

/-- The validator finds the bundle valid. -/
theorem bundleValidate_pump (h0 : 0 < n) :
    bundleValidate pumpSponge ((List.range (2 * n)).map (pumpTx n)) = .valid := by
  have hsig := validateSignatures_pump (n := n) (List.range (2 * n))
  obtain ⟨k, hk⟩ : ∃ k, 2 * n = k + 1 := ⟨2 * n - 1, by omega⟩
  have hloop : bundleValidateLoop pumpSponge ((List.range (2 * n)).map (pumpTx n)) 0 (2 * n - 1)
      ((List.range' 0 (2 * n)).map (pumpTx n)) 0 0 .notInitialized = .valid :=
    bundleValidateLoop_pump hsig (by omega) fun h => by omega
  rw [← List.range_eq_range'] at hloop
  have hcons : (List.range (2 * n)).map (pumpTx n) =
      pumpTx n 0 :: ((List.range k).map Nat.succ).map (pumpTx n) := by
    rw [hk, List.range_succ_eq_map, List.map_cons]
  have hlen : ¬ ((List.range (2 * n)).map (pumpTx n)).length ≠ (pumpTx n 0).lastIndex + 1 := by
    have hl : (pumpTx n 0).lastIndex = 2 * n - 1 := rfl
    rw [List.length_map, List.length_range, hl]
    omega
  rw [hcons] at hloop hlen ⊢
  exact (if_neg hlen).trans hloop

/-- Address `1` is given the supply `k` times. -/
theorem amountAt_pump (k : ℕ) :
    amountAt (((List.range (2 * k)).map (pumpTx n)).map amount) 1 =
      k * maxIotaSupply.toInt := by
  induction k with
  | zero => simp
  | succ k ih =>
    have heven : 2 * k % 2 = 0 := by omega
    have hodd : (2 * k + 1) % 2 ≠ 0 := by omega
    have htwo : 2 * (k + 1) = 2 * k + 1 + 1 := by omega
    rw [htwo, List.range_succ, List.range_succ]
    simp only [List.map_append, amountAt_append, ih, List.map_cons, List.map_nil, amountAt_cons,
      amountAt_nil, amount, pumpTx, heven, hodd, if_true, if_false]
    push_cast
    ring_nf

/-- Every bundle of the store is valid. -/
theorem valid_pump (h0 : 0 < n) {h : Fin 65536} {tx : Transaction (Fin 65536)}
    (hf : (pumpTangle n hn).transactions.find? h = some tx) (hc : tx.currentIndex = 0) :
    bundleValidate pumpSponge (bundleOf (pumpTangle n hn).transactions h) = .valid := by
  have hkey : tx.hash = h := Table.key_of_find? hf
  obtain ⟨i, -, rfl⟩ := List.mem_map.mp (Table.mem_of_find? hf)
  have hi : i = 0 := hc
  subst hi
  rw [← hkey]
  have hone : (pumpTx n 0).hash = Fin.ofNat 65536 1 := rfl
  rw [hone, bundleOf_pump h0]
  exact bundleValidate_pump h0

/-- **The call at the tail of the bundle adds all of it.** -/
theorem callSum_pump (h0 : 0 < n) :
    ∃ d, CallSum pumpSponge 0 pumpSnapshot 0 [] Table.empty (Fin.ofNat 65536 1) (pumpTangle n hn)
      (((List.range (2 * n)).map (pumpTx n)).map amount) d := by
  have hfind : (pumpTangle n hn).transactions.find? (Fin.ofNat 65536 1) = some (pumpTx n 0) :=
    find?_pump (i := 0) (by omega)
  have hq : (pumpTangle n hn).Quiet := rfl
  have hload := Walk.loadPack_of_nil (w := deltaStart (pumpTangle n hn)) hq (Fin.ofNat 65536 1)
  rw [hfind] at hload
  obtain ⟨⟨b, status⟩, t₁, hval, hq₁⟩ :=
    Tangle.bundleValidatorValidate_of_quiet pumpSponge hq hfind rfl
  obtain ⟨-, rfl, hstatus, -⟩ := Tangle.bundleValidatorValidate_ok hval
  have hvalid : status = .valid := by
    rw [hstatus, Tangle.reportedStatus, hfind]
    dsimp only
    rw [if_neg (by simp [pumpTx]), bundleOf_pump h0]
    exact bundleValidate_pump h0
  subst hvalid
  obtain ⟨d, hadd⟩ := addBundle_of_nil hq₁ ((List.range (2 * n)).map (pumpTx n)) Table.empty
  have hbundle : bundleOf (pumpTangle n hn).transactions (Fin.ofNat 65536 1) =
      (List.range (2 * n)).map (pumpTx n) := bundleOf_pump h0
  rw [← hbundle] at hadd
  have hstart : DeltaPasses pumpSponge 0 pumpSnapshot 0 [] (Fin.ofNat 65536 1) (pumpTangle n hn)
      [Fin.ofNat 65536 1] (blocked 0 pumpSnapshot [] ++ []) (deltaStart (pumpTangle n hn)) := by
    rw [List.append_nil]
    exact .start
  have hfresh : Fin.ofNat 65536 1 ∉ blocked 0 pumpSnapshot [] ++ [] := by decide
  have hall : Tangle.bundleValidatorValidate pumpSponge (Fin.ofNat 65536 1) (pumpTangle n hn) =
      .ok (bundleOf (pumpTangle n hn).transactions (Fin.ofNat 65536 1) ++ [], .valid) t₁ := by
    rw [List.append_nil]
    exact hval
  have hcall : CallSum pumpSponge 0 pumpSnapshot 0 [] Table.empty (Fin.ofNat 65536 1)
      (pumpTangle n hn) _ d := .bundle hstart hfresh hload rfl rfl rfl hall hadd
  rw [hbundle] at hcall
  exact ⟨d, hcall⟩

/-- **A sum overflows.** Every bundle of the store is valid, and yet the call that
adds it does not hold exact sums. -/
theorem pump_not_exact :
    (∀ h tx, (pumpTangle 3319 (by decide)).transactions.find? h = some tx → tx.currentIndex = 0 →
      bundleValidate pumpSponge
        (bundleOf (pumpTangle 3319 (by decide)).transactions h) = .valid) ∧
    ¬ ExactCall pumpSponge 0 pumpSnapshot pumpSnapshot [] Table.empty 1
      (pumpTangle 3319 (by decide)) := by
  refine ⟨fun h tx hf hc => valid_pump (by decide) hf hc, fun hexact => ?_⟩
  obtain ⟨d, hd⟩ := callSum_pump (n := 3319) (by decide)
  have hone := hexact.delta _ d hd 1
  have hfits := Word.fits_toInt (d.get 1)
  rw [hone, amountAt_pump] at hfits
  -- three thousand three hundred and nineteen times the supply
  exact absurd hfits (by decide)

end Ledger

end Entangled
