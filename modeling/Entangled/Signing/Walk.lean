import Entangled.Signing.Bundle
/-!
# The walk of `bundle_sign`

Which fragments `bundle_sign` writes where, over bundles laid out as transfers are built:
outputs, then for every input the spending transaction and the transactions of value zero that
take the rest of its signature, then unsigned transactions.

While every spend met so far had an input, `curr_index` and the pointer are in step and each
signature goes to its own transactions. A spend without an input leaves `curr_index` one behind,
and the next signature is written from there, over transactions of an address that has no input
at all (`writesHome_iff`).
-/

namespace Entangled

open Trinary

/-! ## Bundles as they are built -/

/-- What the walk reads of a transaction. -/
def slot (tx : Transaction (List FlexTrit)) : List FlexTrit × Int64 := (tx.address, tx.value)

/-- The transactions of one input. -/
structure Spend where
  address : List FlexTrit
  value : Int64
  security : ℕ
  negative : value < 0
  level : 0 < security ∧ security ≤ 3

/-- The spending transaction, and one of value zero for each further fragment. -/
def Spend.slots (g : Spend) : List (List FlexTrit × Int64) :=
  (g.address, g.value) :: List.replicate (g.security - 1) (g.address, 0)

/-- The order in which a transfer is built. -/
structure Layout where
  outputs : List (List FlexTrit × Int64)
  spends : List Spend
  unsigned : List (List FlexTrit × Int64)
  outputs_nonneg : ∀ s ∈ outputs, 0 ≤ s.2
  unsigned_nonneg : ∀ s ∈ unsigned, 0 ≤ s.2

/-- The slots of the bundle. -/
def Layout.slots (L : Layout) : List (List FlexTrit × Int64) :=
  L.outputs ++ (L.spends.flatMap Spend.slots ++ L.unsigned)

/-- Some input has the address. -/
def Matched (inputs : List Input) (address : List FlexTrit) : Prop :=
  ∃ input ∈ inputs, input.address = address

instance (inputs : List Input) (address : List FlexTrit) : Decidable (Matched inputs address) :=
  inferInstanceAs (Decidable (∃ input ∈ inputs, input.address = address))

/-- An input with the address of a spend has its security level. -/
def SameLevels (inputs : List Input) (spends : List Spend) : Prop :=
  ∀ g ∈ spends, ∀ input ∈ inputs, input.address = g.address → input.security.toNat = g.security

/-- No spend that has an input comes after one that has none. -/
def MatchedFirst (inputs : List Input) (spends : List Spend) : Prop :=
  spends.Pairwise fun g h => Matched inputs h.address → Matched inputs g.address

/-- Every fragment written so far went to a transaction of the address it was signed for. -/
def WritesHome (b : List (Transaction (List FlexTrit))) (st : SignState) : Prop :=
  ∀ w ∈ st.writes, ∀ tx : Transaction (List FlexTrit), b[w.2]? = some tx → tx.address = w.1.address

/-- A transaction without its signature, which is all that signing changes. -/
def stripped (tx : Transaction (List FlexTrit)) : Transaction (List FlexTrit) :=
  { tx with signature := [] }

/-- The bundle as it was, but for signatures. -/
def Kept (b : List (Transaction (List FlexTrit))) (st : SignState) : Prop :=
  st.bundle.map stripped = b.map stripped

/-- Every transaction carries its position. -/
def Indexed (b : List (Transaction (List FlexTrit))) : Prop :=
  ∀ (k : ℕ) (tx : Transaction (List FlexTrit)), b[k]? = some tx → tx.currentIndex = k

theorem Spend.length_slots (g : Spend) : g.slots.length = g.security := by
  have := g.level
  rw [Spend.slots, List.length_cons, List.length_replicate]
  omega

theorem Spend.address_of_mem {g : Spend} {s : List FlexTrit × Int64} (h : s ∈ g.slots) :
    s.1 = g.address := by
  rcases List.mem_cons.mp h with rfl | h
  · rfl
  · rw [List.eq_of_mem_replicate h]

section Lists

variable {α β : Type} {f : α → β} {l : List α} {p : ℕ} {a : β} {as r : List β}

theorem drop_map_cons (h : (l.drop p).map f = a :: r) :
    ∃ x, l[p]? = some x ∧ f x = a ∧ (l.drop (p + 1)).map f = r := by
  cases hd : l.drop p with
  | nil => rw [hd] at h; cases h
  | cons x xs =>
    rw [hd, List.map_cons, List.cons.injEq] at h
    have hx : (l.drop p)[0]? = some x := by rw [hd]; rfl
    rw [List.getElem?_drop, Nat.add_zero] at hx
    have hxs : l.drop (p + 1) = xs := by rw [← List.drop_drop, hd]; rfl
    exact ⟨x, hx, h.1, by rw [hxs]; exact h.2⟩

theorem drop_map_append (h : (l.drop p).map f = as ++ r) :
    (l.drop (p + as.length)).map f = r ∧
      ∀ i < as.length, ∃ x, l[p + i]? = some x ∧ f x ∈ as := by
  induction as generalizing p with
  | nil => exact ⟨h, fun i hi => absurd hi (Nat.not_lt_zero i)⟩
  | cons a as ih =>
    obtain ⟨x, hx, hfx, hrest⟩ := drop_map_cons h
    obtain ⟨hdrop, hget⟩ := ih hrest
    refine ⟨by rwa [List.length_cons, Nat.add_comm as.length, ← Nat.add_assoc], fun i hi => ?_⟩
    rcases i with _ | i
    · exact ⟨x, hx, by rw [hfx]; exact List.mem_cons_self⟩
    · obtain ⟨y, hy, hfy⟩ := hget i (by simpa using hi)
      exact ⟨y, by rwa [Nat.add_comm i 1, ← Nat.add_assoc], List.mem_cons_of_mem _ hfy⟩

end Lists

/-! ## One step -/

section Step

variable {σ : Type} {K : Kerl σ} {E : Encoding} {beyond seed : List FlexTrit}
  {inputs : List Input} {st : SignState} {b : List (Transaction (List FlexTrit))}
  {tx : Transaction (List FlexTrit)}

theorem Kept.getElem? (h : Kept b st) {k : ℕ} {tx : Transaction (List FlexTrit)}
    (hk : b[k]? = some tx) : ∃ tx', st.bundle[k]? = some tx' ∧ stripped tx' = stripped tx := by
  have hget := congrArg (fun l => l[k]?) h
  simp only [List.getElem?_map, hk, Option.map_some] at hget
  obtain ⟨tx', htx', he⟩ := Option.map_eq_some_iff.mp hget
  exact ⟨tx', htx', he⟩

theorem Kept.length (h : Kept b st) : st.bundle.length = b.length := by
  have hl := congrArg List.length h
  rwa [List.length_map, List.length_map] at hl

theorem slot_of_stripped {tx tx' : Transaction (List FlexTrit)} (h : stripped tx' = stripped tx) :
    slot tx' = slot tx := by
  have ha := congrArg Transaction.address h
  have hv := congrArg Transaction.value h
  exact Prod.ext ha hv

/-- A bundle with a signature written into the `n` transactions from `k` on. -/
def withFragments (k n : ℕ) (fragment : ℕ → List FlexTrit)
    (bundle : List (Transaction (List FlexTrit))) : List (Transaction (List FlexTrit)) :=
  bundle.mapIdx fun i tx =>
    if k ≤ i ∧ i < k + n then { tx with signature := fragment (i - k) } else tx

theorem map_stripped_withFragments (k n : ℕ) (fragment : ℕ → List FlexTrit)
    (bundle : List (Transaction (List FlexTrit))) :
    (withFragments k n fragment bundle).map stripped = bundle.map stripped := by
  apply List.ext_getElem?
  intro i
  rw [withFragments, List.getElem?_map, List.getElem?_map, List.getElem?_mapIdx, Option.map_map]
  congr 1
  funext tx
  show stripped (if _ then _ else _) = _
  split_ifs <;> rfl

theorem withFragments_succ (k n : ℕ) (fragment : ℕ → List FlexTrit)
    (bundle : List (Transaction (List FlexTrit))) :
    (withFragments k n fragment bundle).modify (k + n)
        (fun tx => { tx with signature := fragment n }) =
      withFragments k (n + 1) fragment bundle := by
  apply List.ext_getElem?
  intro i
  rw [List.getElem?_modify, withFragments, withFragments, List.getElem?_mapIdx,
    List.getElem?_mapIdx, Option.map_eq_map, Option.map_map]
  congr 1
  funext tx
  dsimp only [Function.comp]
  rcases Nat.lt_trichotomy i (k + n) with hi | rfl | hi
  · rw [if_neg (by omega)]
    congr 1
    exact propext (by omega)
  · rw [if_pos rfl, if_neg (by omega), if_pos (by omega), Nat.add_sub_cancel_left]
  · rw [if_neg (by omega), if_neg (by omega), if_neg (by omega)]

/-- **The loop over the security level**: the fragments into the transactions from `curr_index`
on, with the pointer left at the last. -/
theorem foldl_writeFragment (E : Encoding) (beyond : List FlexTrit) (input : Input)
    (signature : List FlexTrit) {n : ℕ}
    (hr : st.outcome = .running) (hn : st.currIndex + n ≤ st.bundle.length) :
    (List.range n).foldl (writeFragment E beyond input signature) st =
      { st with
        bundle := withFragments st.currIndex n (fragmentBytes E beyond signature) st.bundle
        position := if n = 0 then st.position else st.currIndex + n - 1
        writes := st.writes ++ (List.range n).map fun i => (input, st.currIndex + i) } := by
  induction n with
  | zero =>
    have hsame : withFragments st.currIndex 0 (fragmentBytes E beyond signature) st.bundle =
        st.bundle := by
      rw [withFragments]
      refine List.ext_getElem? fun i => ?_
      rw [List.getElem?_mapIdx]
      simp only [Nat.add_zero]
      rw [show (fun tx : Transaction (List FlexTrit) => if st.currIndex ≤ i ∧ i < st.currIndex then
        { tx with signature := fragmentBytes E beyond signature (i - st.currIndex) } else tx) = id
        from funext fun tx => if_neg (by omega), Option.map_id, id]
    rw [hsame]
    simp
  | succ n ih =>
    have hlen : (withFragments st.currIndex n (fragmentBytes E beyond signature)
        st.bundle).length = st.bundle.length := by
      rw [withFragments, List.length_mapIdx]
    rw [List.range_succ, List.foldl_append, ih (by omega), List.foldl_cons, List.foldl_nil,
      writeFragment]
    dsimp only
    rw [if_pos hr, if_pos (by rw [hlen]; omega), withFragments_succ, if_neg (Nat.succ_ne_zero n),
      List.map_append, ← List.append_assoc]
    rfl

/-- Inputs of other addresses, and all of them once `curr_index` is past the pointer, are passed
over. -/
theorem foldl_signInput_skip (hr : st.outcome = .running)
    (ht : st.bundle[st.position]? = some tx)
    (h : ∀ input ∈ inputs, input.address = tx.address → tx.currentIndex < st.currIndex) :
    inputs.foldl (signInput K E beyond seed) st = st := by
  induction inputs with
  | nil => rfl
  | cons input inputs ih =>
    obtain ⟨hhead, htail⟩ := List.forall_mem_cons.mp h
    have hskip : signInput K E beyond seed st input = st := by
      rw [signInput, hr, ht]
      dsimp only
      split_ifs with ha hc
      · rfl
      · exact absurd (hhead ha) hc
      · rfl
    rw [List.foldl_cons, hskip, ih htail]

/-- A transaction that does not spend counts. -/
theorem signTx_nonneg (hr : st.outcome = .running) (ht : st.bundle[st.position]? = some tx)
    (hv : 0 ≤ tx.value) :
    signTx K E beyond seed inputs st =
      { st with currIndex := st.currIndex + 1, position := st.position + 1 } := by
  simp only [signTx, hr, ht, if_neg (Int64.not_lt.mpr hv), if_true]

/-- A spend without an input does not. -/
theorem signTx_unmatched (hr : st.outcome = .running) (ht : st.bundle[st.position]? = some tx)
    (hv : tx.value < 0) (hm : ¬ Matched inputs tx.address) :
    signTx K E beyond seed inputs st = { st with position := st.position + 1 } := by
  have hskip : inputs.foldl (signInput K E beyond seed) st = st :=
    foldl_signInput_skip hr ht fun input hi ha => absurd ⟨input, hi, ha⟩ hm
  simp only [signTx, hr, ht, if_pos hv, hskip, if_true]

theorem exists_first_matched (h : Matched inputs tx.address) :
    ∃ pre input post, inputs = pre ++ input :: post ∧ input.address = tx.address ∧
      ∀ i ∈ pre, i.address ≠ tx.address := by
  induction inputs with
  | nil =>
    obtain ⟨input, hi, -⟩ := h
    exact absurd hi List.not_mem_nil
  | cons input inputs ih =>
    by_cases ha : input.address = tx.address
    · exact ⟨[], input, inputs, rfl, ha, fun i hi => absurd hi List.not_mem_nil⟩
    · obtain ⟨i, hi, hia⟩ := h
      rcases List.mem_cons.mp hi with rfl | hi
      · exact absurd hia ha
      · obtain ⟨pre, input', post, rfl, ha', hpre⟩ := ih ⟨i, hi, hia⟩
        exact ⟨input :: pre, input', post, rfl, ha', List.forall_mem_cons.mpr ⟨ha, hpre⟩⟩

theorem exists_signatureGen (K : Kerl σ) (E : Encoding) (seed : List FlexTrit) {security : ℕ}
    (hs : 0 < security ∧ security ≤ 3) (index : UInt64)
    (hash : List FlexTrit) :
    ∃ signature, iotaSignSignatureGenFlexTrits K E seed index security hash = some signature := by
  rw [iotaSignSignatureGenFlexTrits, iotaSignSignatureGenTrits, if_pos hs]
  exact ⟨_, rfl⟩

/-- **A spend with an input**: its signature goes where `curr_index` stands, and the pointer and
`curr_index` meet behind it. -/
theorem signTx_matched (hr : st.outcome = .running) (ht : st.bundle[st.position]? = some tx)
    (hv : tx.value < 0) (hidx : Indexed st.bundle) (hc : st.currIndex ≤ st.position) {n : ℕ}
    (hn : 0 < n ∧ n ≤ 3) (hroom : st.currIndex + n ≤ st.bundle.length)
    (hm : Matched inputs tx.address)
    (hl : ∀ input ∈ inputs, input.address = tx.address → input.security.toNat = n) :
    ∃ input ∈ inputs, input.address = tx.address ∧
      ∃ signature, iotaSignSignatureGenFlexTrits K E seed input.keyIndex n tx.bundle =
          some signature ∧
        signTx K E beyond seed inputs st =
          { bundle := withFragments st.currIndex n (fragmentBytes E beyond signature) st.bundle
            currIndex := st.currIndex + n
            position := st.currIndex + n
            writes := st.writes ++ (List.range n).map fun i => (input, st.currIndex + i)
            outcome := .running } := by
  obtain ⟨pre, input, post, rfl, ha, hpre⟩ := exists_first_matched hm
  have hmem : input ∈ pre ++ input :: post := List.mem_append_right _ List.mem_cons_self
  have hsec := hl input hmem ha
  obtain ⟨signature, hsig⟩ := exists_signatureGen K E seed hn input.keyIndex tx.bundle
  refine ⟨input, hmem, ha, signature, hsig, ?_⟩
  have hskip : pre.foldl (signInput K E beyond seed) st = st :=
    foldl_signInput_skip hr ht fun i hi hia => absurd hia (hpre i hi)
  have hnow : ¬ tx.currentIndex < st.currIndex := by
    rw [hidx _ _ ht]
    omega
  have hwrite : signInput K E beyond seed st input =
      { bundle := withFragments st.currIndex n (fragmentBytes E beyond signature) st.bundle
        currIndex := st.currIndex + n
        position := st.currIndex + n - 1
        writes := st.writes ++ (List.range n).map fun i => (input, st.currIndex + i)
        outcome := .running } := by
    have hloop := foldl_writeFragment E beyond input signature hr hroom
    simp only [signInput, hr, ht, if_pos ha, if_neg hnow, hsec, hsig, hloop,
      if_neg (Nat.ne_of_gt hn.1)]
  -- the transaction written last carries its position, so the other inputs are passed over
  obtain ⟨last, hlast⟩ : ∃ last, (withFragments st.currIndex n (fragmentBytes E beyond signature)
      st.bundle)[st.currIndex + n - 1]? = some last ∧ last.currentIndex = st.currIndex + n - 1 := by
    have hget : st.bundle[st.currIndex + n - 1]? =
        some (st.bundle.get ⟨st.currIndex + n - 1, by omega⟩) := List.getElem?_eq_getElem _
    rw [withFragments, List.getElem?_mapIdx, hget]
    refine ⟨_, rfl, ?_⟩
    have := hidx _ _ hget
    split_ifs <;> exact this
  have hrest : post.foldl (signInput K E beyond seed) (signInput K E beyond seed st input) =
      signInput K E beyond seed st input := by
    rw [hwrite]
    refine foldl_signInput_skip rfl hlast.1 fun _ _ _ => ?_
    show last.currentIndex < st.currIndex + n
    rw [hlast.2]
    omega
  have hall : (pre ++ input :: post).foldl (signInput K E beyond seed) st =
      signInput K E beyond seed st input := by
    rw [List.foldl_append, hskip, List.foldl_cons, hrest]
  simp only [signTx, hr, ht, if_pos hv, hall, hwrite, if_true]
  congr 1
  omega

end Step

/-! ## In step -/

section Run

variable {σ : Type} {K : Kerl σ} {E : Encoding} {beyond seed : List FlexTrit}
  {inputs : List Input} {st : SignState} {b : List (Transaction (List FlexTrit))}
  {os us : List (List FlexTrit × Int64)} {todo : List Spend} {g : Spend}

/-- The pointer and `curr_index` agree, in front of what is left of the layout. -/
structure InStep (b : List (Transaction (List FlexTrit))) (st : SignState)
    (os : List (List FlexTrit × Int64)) (todo : List Spend)
    (us : List (List FlexTrit × Int64)) : Prop where
  running : st.outcome = .running
  synced : st.currIndex = st.position
  ahead : (b.drop st.position).map slot = os ++ (todo.flatMap Spend.slots ++ us)

theorem indexed_of_kept (hk : Kept b st) (hi : Indexed b) : Indexed st.bundle := by
  intro k tx htx
  have hget : (b.map stripped)[k]? = some (stripped tx) := by
    rw [← hk, List.getElem?_map, htx]
    rfl
  rw [List.getElem?_map] at hget
  obtain ⟨tx', htx', he⟩ := Option.map_eq_some_iff.mp hget
  have hc := congrArg Transaction.currentIndex he
  exact hc.symm.trans (hi k tx' htx')

/-- The transaction in front of the walk. -/
theorem Kept.front (hk : Kept b st) {a : List FlexTrit × Int64}
    {r : List (List FlexTrit × Int64)} (h : (b.drop st.position).map slot = a :: r) :
    ∃ tx, st.bundle[st.position]? = some tx ∧ slot tx = a ∧
      (∃ tx₀, b[st.position]? = some tx₀ ∧ stripped tx = stripped tx₀) ∧
      (b.drop (st.position + 1)).map slot = r := by
  obtain ⟨tx₀, hget, hslot, hrest⟩ := drop_map_cons h
  obtain ⟨tx, htx, he⟩ := hk.getElem? hget
  exact ⟨tx, htx, (slot_of_stripped he).trans hslot, ⟨tx₀, hget, he⟩, hrest⟩

/-- Outputs are counted. -/
theorem InStep.output {o : List FlexTrit × Int64} (h : InStep b st (o :: os) todo us)
    (hk : Kept b st) (ho : 0 ≤ o.2) :
    InStep b (signTx K E beyond seed inputs st) os todo us ∧
      Kept b (signTx K E beyond seed inputs st) ∧
      (signTx K E beyond seed inputs st).writes = st.writes ∧
      (signTx K E beyond seed inputs st).bundle = st.bundle := by
  obtain ⟨tx, htx, hslot, -, hrest⟩ := hk.front h.ahead
  have hv : 0 ≤ tx.value := by
    rw [← hslot] at ho
    exact ho
  rw [signTx_nonneg h.running htx hv]
  exact ⟨⟨h.running, congrArg (· + 1) h.synced, hrest⟩, hk, rfl, rfl⟩

/-- **In step, a spend with an input is signed in its own transactions.** -/
theorem InStep.spend (h : InStep b st [] (g :: todo) us) (hk : Kept b st) (hi : Indexed b)
    (hm : Matched inputs g.address)
    (hl : ∀ input ∈ inputs, input.address = g.address → input.security.toNat = g.security) :
    ∃ input ∈ inputs, input.address = g.address ∧ ∃ tx signature,
      st.bundle[st.position]? = some tx ∧
      iotaSignSignatureGenFlexTrits K E seed input.keyIndex g.security tx.bundle =
        some signature ∧
      signTx K E beyond seed inputs st =
        { bundle := withFragments st.position g.security (fragmentBytes E beyond signature)
            st.bundle
          currIndex := st.position + g.security
          position := st.position + g.security
          writes := st.writes ++ (List.range g.security).map fun i => (input, st.position + i)
          outcome := .running } ∧
      InStep b (signTx K E beyond seed inputs st) [] todo us ∧
      Kept b (signTx K E beyond seed inputs st) := by
  have hahead : (b.drop st.position).map slot = g.slots ++ (todo.flatMap Spend.slots ++ us) := by
    rw [h.ahead, List.nil_append, List.flatMap_cons, List.append_assoc]
  obtain ⟨tx, htx, hslot, -, -⟩ := hk.front hahead
  obtain ⟨hbehind, hwithin⟩ := drop_map_append hahead
  rw [g.length_slots] at hbehind hwithin
  have haddr : tx.address = g.address := congrArg Prod.fst hslot
  have hval : tx.value < 0 := by
    have hv : tx.value = g.value := congrArg Prod.snd hslot
    rw [hv]
    exact g.negative
  have hroom : st.currIndex + g.security ≤ st.bundle.length := by
    obtain ⟨x, hx, -⟩ := hwithin (g.security - 1) (by have := g.level; omega)
    have hlt := (List.getElem?_eq_some_iff.mp hx).1
    have := g.level
    rw [hk.length, h.synced]
    omega
  obtain ⟨input, hmem, hia, signature, hsig, hst⟩ := signTx_matched (K := K) (E := E)
    h.running htx hval (indexed_of_kept hk hi) (Nat.le_of_eq h.synced) g.level hroom
    (haddr ▸ hm) (haddr ▸ hl)
  rw [h.synced] at hst
  refine ⟨input, hmem, hia.trans haddr, tx, signature, htx, hsig, hst, ?_, ?_⟩
  · rw [hst]
    exact ⟨rfl, rfl, hbehind⟩
  · rw [hst]
    exact (map_stripped_withFragments _ _ _ _).trans hk

/-- No spend ahead has an input. -/
def Idle (b : List (Transaction (List FlexTrit))) (inputs : List Input) (st : SignState) : Prop :=
  ∀ (k : ℕ) (tx : Transaction (List FlexTrit)), st.position ≤ k → b[k]? = some tx →
    tx.value < 0 → ¬ Matched inputs tx.address

/-- **What a run keeps while spends with inputs come first**: every write so far went home, and
the walk is in step, or has no more to write, or is over. -/
structure Tidy (b : List (Transaction (List FlexTrit))) (inputs : List Input)
    (us : List (List FlexTrit × Int64)) (st : SignState) : Prop where
  kept : Kept b st
  home : WritesHome b st
  phase : st.outcome ≠ .running ∨ Idle b inputs st ∨
    ∃ os todo, InStep b st os todo us ∧ (∀ o ∈ os, (0 : Int64) ≤ o.2) ∧ SameLevels inputs todo ∧
      MatchedFirst inputs todo

theorem signTx_stopped (hr : st.outcome ≠ .running) : signTx K E beyond seed inputs st = st := by
  unfold signTx
  split <;> simp_all

theorem signTx_end (hr : st.outcome = .running) (ht : st.bundle[st.position]? = none) :
    signTx K E beyond seed inputs st = { st with outcome := .ok } := by
  simp only [signTx, hr, ht]

/-- Once nothing is left to write, nothing is written. -/
theorem Idle.signTx (h : Idle b inputs st) (hk : Kept b st) :
    Idle b inputs (signTx K E beyond seed inputs st) ∧ Kept b (signTx K E beyond seed inputs st) ∧
      (signTx K E beyond seed inputs st).writes = st.writes := by
  by_cases hr : st.outcome = .running
  · cases hget : b[st.position]? with
    | none =>
      have hnone : st.bundle[st.position]? = none := by
        rw [List.getElem?_eq_none_iff, hk.length, ← List.getElem?_eq_none_iff]
        exact hget
      rw [signTx_end hr hnone]
      exact ⟨h, hk, rfl⟩
    | some tx₀ =>
      obtain ⟨tx, htx, he⟩ := hk.getElem? hget
      have hslot := slot_of_stripped he
      have hnext : ∀ st' : SignState, st'.position = st.position + 1 → Idle b inputs st' :=
        fun st' hp k tx hk => h k tx (by omega)
      rcases Int64.lt_or_le tx.value 0 with hv | hv
      · have hun : ¬ Matched inputs tx.address := by
          have ha : tx.address = tx₀.address := congrArg Prod.fst hslot
          have hv₀ : tx.value = tx₀.value := congrArg Prod.snd hslot
          rw [ha]
          exact h _ tx₀ le_rfl hget (hv₀ ▸ hv)
        rw [signTx_unmatched hr htx hv hun]
        exact ⟨hnext _ rfl, hk, rfl⟩
      · rw [signTx_nonneg hr htx hv]
        exact ⟨hnext _ rfl, hk, rfl⟩
  · rw [signTx_stopped hr]
    exact ⟨h, hk, rfl⟩

theorem idle_of_ahead {xs : List (List FlexTrit × Int64)}
    (h : (b.drop st.position).map slot = xs)
    (hx : ∀ x ∈ xs, x.2 < 0 → ¬ Matched inputs x.1) : Idle b inputs st := by
  intro k tx hk hget hv
  have hmem : slot tx ∈ (b.drop st.position).map slot := by
    refine List.mem_map_of_mem (List.mem_of_getElem? (i := k - st.position) ?_)
    rw [List.getElem?_drop, show st.position + (k - st.position) = k by omega]
    exact hget
  rw [h] at hmem
  exact hx _ hmem hv

/-- The spends ahead have no input. -/
theorem InStep.idle (h : InStep b st [] todo us) (hu : ∀ s ∈ us, (0 : Int64) ≤ s.2)
    (hm : ∀ g ∈ todo, ¬ Matched inputs g.address) : Idle b inputs st := by
  refine idle_of_ahead h.ahead fun x hx hv => ?_
  rw [List.nil_append, List.mem_append, List.mem_flatMap] at hx
  rcases hx with ⟨g, hg, hx⟩ | hx
  · rw [Spend.address_of_mem hx]
    exact hm g hg
  · exact absurd (hu x hx) (Int64.not_le.mpr hv)

theorem tidy_of_idle (h : Idle b inputs st) (hk : Kept b st) (hh : WritesHome b st) :
    Tidy b inputs us (signTx K E beyond seed inputs st) := by
  obtain ⟨hidle, hkept, hwrites⟩ := h.signTx (K := K) (E := E) hk
  refine ⟨hkept, ?_, .inr (.inl hidle)⟩
  rw [WritesHome, hwrites]
  exact hh

theorem Tidy.signTx (h : Tidy b inputs us st) (hi : Indexed b)
    (hu : ∀ s ∈ us, (0 : Int64) ≤ s.2) :
    Tidy b inputs us (signTx K E beyond seed inputs st) := by
  rcases h.phase with hstop | hidle | ⟨os, todo, hin, hos, hlev, hfirst⟩
  · rw [signTx_stopped hstop]
    exact h
  · exact tidy_of_idle hidle h.kept h.home
  · rcases os with _ | ⟨o, os⟩
    · rcases todo with _ | ⟨g, todo⟩
      · exact tidy_of_idle (hin.idle hu fun g hg => absurd hg List.not_mem_nil) h.kept h.home
      · obtain ⟨hg, htail⟩ := List.pairwise_cons.mp hfirst
        by_cases hm : Matched inputs g.address
        · obtain ⟨input, -, hia, tx, signature, htx, -, hst, hin', hk'⟩ := hin.spend (K := K)
            (E := E) h.kept hi hm (hlev g List.mem_cons_self)
          refine ⟨hk', ?_, .inr (.inr ⟨[], todo, hin', fun o ho => absurd ho List.not_mem_nil,
            fun g' hg' => hlev g' (List.mem_cons_of_mem _ hg'), htail⟩)⟩
          have hahead : (b.drop st.position).map slot =
              g.slots ++ (todo.flatMap Spend.slots ++ us) := by
            rw [hin.ahead, List.nil_append, List.flatMap_cons, List.append_assoc]
          obtain ⟨-, hwithin⟩ := drop_map_append hahead
          rw [hst]
          intro w hw tx' htx'
          rcases List.mem_append.mp hw with hw | hw
          · exact h.home w hw tx' htx'
          · obtain ⟨i, hi', rfl⟩ := List.mem_map.mp hw
            obtain ⟨x, hx, hslot⟩ := hwithin i (by
              rw [g.length_slots]
              exact List.mem_range.mp hi')
            cases htx'.symm.trans hx
            exact (Spend.address_of_mem hslot).trans hia.symm
        · have hnone : ∀ g' ∈ g :: todo, ¬ Matched inputs g'.address := by
            intro g' hg'
            rcases List.mem_cons.mp hg' with rfl | hg'
            · exact hm
            · exact fun hm' => hm (hg g' hg' hm')
          exact tidy_of_idle (hin.idle hu hnone) h.kept h.home
    · obtain ⟨ho, hos'⟩ := List.forall_mem_cons.mp hos
      obtain ⟨hin', hk', hwrites, -⟩ := hin.output (K := K) (E := E) h.kept ho
      refine ⟨hk', ?_, .inr (.inr ⟨os, todo, hin', hos', hlev, hfirst⟩)⟩
      rw [WritesHome, hwrites]
      exact h.home

/-! ## Behind -/

/-- `curr_index` is behind the pointer, over transactions whose addresses have no input. -/
structure Behind (b : List (Transaction (List FlexTrit))) (inputs : List Input)
    (st : SignState) : Prop where
  running : st.outcome = .running
  lag : st.currIndex < st.position
  strangers : ∀ (k : ℕ) (tx : Transaction (List FlexTrit)), st.currIndex ≤ k → k < st.position →
    b[k]? = some tx → ¬ Matched inputs tx.address

/-- A transaction of an address without input keeps `curr_index` behind, or puts it there. -/
theorem behind_signTx {x : List FlexTrit × Int64} {r : List (List FlexTrit × Int64)}
    (hk : Kept b st) (ha : (b.drop st.position).map slot = x :: r)
    (hx : ¬ Matched inputs x.1)
    (h : Behind b inputs st ∨
      (st.outcome = .running ∧ st.currIndex = st.position ∧ x.2 < 0)) :
    Behind b inputs (signTx K E beyond seed inputs st) ∧
      Kept b (signTx K E beyond seed inputs st) ∧
      (signTx K E beyond seed inputs st).position = st.position + 1 := by
  obtain ⟨tx, htx, rfl, ⟨tx₀, hget, he⟩, -⟩ := hk.front ha
  have haddr : tx₀.address = tx.address := congrArg Prod.fst (slot_of_stripped he.symm)
  have hrun : st.outcome = .running := h.elim Behind.running And.left
  have hle : st.currIndex ≤ st.position := h.elim (fun hb => hb.lag.le) fun hs => hs.2.1.le
  -- the new transaction joins the strangers
  have hstrange : ∀ (k : ℕ) (tx' : Transaction (List FlexTrit)), st.currIndex ≤ k →
      k < st.position + 1 → b[k]? = some tx' → ¬ Matched inputs tx'.address := by
    intro k tx' h₁ h₂ hk'
    rcases Nat.lt_or_ge k st.position with hlt | hge
    · rcases h with hb | hs
      · exact hb.strangers k tx' h₁ hlt hk'
      · omega
    · obtain rfl : k = st.position := by omega
      cases hk'.symm.trans hget
      rw [haddr]
      exact hx
  rcases Int64.lt_or_le tx.value 0 with hv | hv
  · rw [signTx_unmatched hrun htx hv hx]
    exact ⟨⟨hrun, Nat.lt_succ_of_le hle, hstrange⟩, hk, rfl⟩
  · rw [signTx_nonneg hrun htx hv]
    have hlag : st.currIndex < st.position := by
      rcases h with hb | hs
      · exact hb.lag
      · exact absurd hv (Int64.not_le.mpr hs.2.2)
    exact ⟨⟨hrun, Nat.succ_lt_succ hlag, fun k tx' h₁ => hstrange k tx' (Nat.le_of_succ_le h₁)⟩,
      hk, rfl⟩

theorem behind_iterate (K : Kerl σ) (E : Encoding) (beyond seed : List FlexTrit)
    {xs r : List (List FlexTrit × Int64)} (h : Behind b inputs st) (hk : Kept b st)
    (ha : (b.drop st.position).map slot = xs ++ r) (hx : ∀ x ∈ xs, ¬ Matched inputs x.1) :
    Behind b inputs ((signTx K E beyond seed inputs)^[xs.length] st) ∧
      Kept b ((signTx K E beyond seed inputs)^[xs.length] st) ∧
      ((signTx K E beyond seed inputs)^[xs.length] st).position = st.position + xs.length := by
  induction xs generalizing st with
  | nil => exact ⟨h, hk, rfl⟩
  | cons x xs ih =>
    obtain ⟨hhead, htail⟩ := List.forall_mem_cons.mp hx
    obtain ⟨-, -, -, hrest⟩ := drop_map_cons ha
    obtain ⟨hb, hk', hp⟩ : Behind b inputs (signTx K E beyond seed inputs st) ∧
        Kept b (signTx K E beyond seed inputs st) ∧ _ := behind_signTx hk ha hhead (.inl h)
    rw [← hp] at hrest
    obtain ⟨hb', hk'', hp'⟩ := ih hb hk' hrest htail
    rw [List.length_cons, Function.iterate_succ_apply]
    exact ⟨hb', hk'', by rw [hp', hp]; omega⟩

/-- **Behind, a spend with an input is signed into a stranger's transaction.** -/
theorem Behind.cross (h : Behind b inputs st) (K : Kerl σ) (E : Encoding)
    (beyond seed : List FlexTrit) {r : List (List FlexTrit × Int64)} (hk : Kept b st)
    (hi : Indexed b) (ha : (b.drop st.position).map slot = g.slots ++ r)
    (hm : Matched inputs g.address)
    (hl : ∀ input ∈ inputs, input.address = g.address → input.security.toNat = g.security) :
    ¬ WritesHome b (signTx K E beyond seed inputs st) := by
  obtain ⟨tx, htx, hslot, -, -⟩ := hk.front ha
  obtain ⟨-, hwithin⟩ := drop_map_append ha
  have haddr : tx.address = g.address := congrArg Prod.fst hslot
  have hval : tx.value < 0 := by
    have hv : tx.value = g.value := congrArg Prod.snd hslot
    rw [hv]
    exact g.negative
  have hlevel := g.level
  have hlag := h.lag
  have hlen : st.position + g.security ≤ b.length := by
    obtain ⟨x, hx, -⟩ := hwithin (g.security - 1) (by rw [g.length_slots]; omega)
    have hlt := (List.getElem?_eq_some_iff.mp hx).1
    omega
  intro hhome
  obtain ⟨input, -, hia, signature, -, hst⟩ := signTx_matched (K := K) (E := E)
    h.running htx hval (indexed_of_kept hk hi) h.lag.le hlevel (by rw [hk.length]; omega)
    (haddr ▸ hm) (haddr ▸ hl)
  have hget : b[st.currIndex]? = some (b.get ⟨st.currIndex, by omega⟩) :=
    List.getElem?_eq_getElem _
  rw [hst] at hhome
  have hw : (input, st.currIndex) ∈
      st.writes ++ (List.range g.security).map fun i => (input, st.currIndex + i) :=
    List.mem_append_right _ (List.mem_map.mpr ⟨0, List.mem_range.mpr hlevel.1, rfl⟩)
  have hsame := hhome _ hw _ hget
  refine h.strangers _ _ le_rfl h.lag hget ?_
  rw [hsame, hia, haddr]
  exact hm

/-- Outputs and spends with inputs leave the walk in step. -/
theorem InStep.iterate {pre : List Spend} (h : InStep b st os (pre ++ todo) us) (hk : Kept b st)
    (hi : Indexed b) (ho : ∀ o ∈ os, (0 : Int64) ≤ o.2)
    (hm : ∀ g ∈ pre, Matched inputs g.address) (hl : SameLevels inputs pre) :
    ∃ n, InStep b ((signTx K E beyond seed inputs)^[n] st) [] todo us ∧
      Kept b ((signTx K E beyond seed inputs)^[n] st) := by
  induction os generalizing st with
  | cons o os ih =>
    obtain ⟨ho₀, hos⟩ := List.forall_mem_cons.mp ho
    obtain ⟨hin, hk', -, -⟩ := h.output (K := K) (E := E) hk ho₀
    obtain ⟨n, hn⟩ := ih hin hk' hos
    exact ⟨n + 1, hn⟩
  | nil =>
    induction pre generalizing st with
    | nil => exact ⟨0, h, hk⟩
    | cons g pre ih =>
      obtain ⟨hg, hpre⟩ := List.forall_mem_cons.mp hm
      obtain ⟨-, -, -, -, -, -, -, -, hin, hk'⟩ := h.spend (K := K) (E := E) hk hi hg
        (hl g List.mem_cons_self)
      obtain ⟨n, hn⟩ := ih hpre (fun g' hg' => hl g' (List.mem_cons_of_mem _ hg')) hin hk'
      exact ⟨n + 1, hn⟩

/-- The first spend without an input, and the first after it that has one. -/
theorem exists_of_not_matchedFirst {spends : List Spend} (h : ¬ MatchedFirst inputs spends) :
    ∃ pre u mid m post, spends = pre ++ u :: (mid ++ m :: post) ∧
      (∀ g ∈ pre, Matched inputs g.address) ∧ ¬ Matched inputs u.address ∧
      (∀ g ∈ mid, ¬ Matched inputs g.address) ∧ Matched inputs m.address := by
  induction spends with
  | nil => exact absurd List.Pairwise.nil h
  | cons g spends ih =>
    by_cases hg : Matched inputs g.address
    · have htail : ¬ MatchedFirst inputs spends := fun ht =>
        h (List.pairwise_cons.mpr ⟨fun _ _ _ => hg, ht⟩)
      obtain ⟨pre, u, mid, m, post, rfl, hpre, hrest⟩ := ih htail
      exact ⟨g :: pre, u, mid, m, post, rfl, List.forall_mem_cons.mpr ⟨hg, hpre⟩, hrest⟩
    · have hex : ∃ m ∈ spends, Matched inputs m.address := by
        by_contra hnone
        push Not at hnone
        refine h (List.pairwise_cons.mpr ⟨fun m hm hmm => absurd hmm (hnone m hm), ?_⟩)
        exact List.pairwise_of_forall_mem_list fun _ _ m hm hmm => absurd hmm (hnone m hm)
      clear h ih
      obtain ⟨mid, m, post, rfl, hmid, hm⟩ : ∃ mid m post, spends = mid ++ m :: post ∧
          (∀ g ∈ mid, ¬ Matched inputs g.address) ∧ Matched inputs m.address := by
        induction spends with
        | nil =>
          obtain ⟨m, hm, -⟩ := hex
          exact absurd hm List.not_mem_nil
        | cons g' spends ih =>
          by_cases hg' : Matched inputs g'.address
          · exact ⟨[], g', spends, rfl, fun _ hm => absurd hm List.not_mem_nil, hg'⟩
          · obtain ⟨m, hm, hmm⟩ := hex
            rcases List.mem_cons.mp hm with rfl | hm
            · exact absurd hmm hg'
            · obtain ⟨mid, m, post, rfl, hmid, hm⟩ := ih ⟨m, hm, hmm⟩
              exact ⟨g' :: mid, m, post, rfl, List.forall_mem_cons.mpr ⟨hg', hmid⟩, hm⟩
      exact ⟨[], g, mid, m, post, rfl, fun _ hm => absurd hm List.not_mem_nil, hg, hmid, hm⟩

/-- **Signatures stay with their addresses exactly when spends with inputs come first.** -/
theorem writesHome_iff {L : Layout} (hb : b.map slot = L.slots) (hi : Indexed b)
    (hl : SameLevels inputs L.spends) :
    (∀ steps, WritesHome b (signWalk K E beyond seed inputs b steps)) ↔
      MatchedFirst inputs L.spends := by
  have hkept : Kept b ⟨b, 0, 0, [], .running⟩ := rfl
  have hstart : InStep b ⟨b, 0, 0, [], .running⟩ L.outputs L.spends L.unsigned :=
    ⟨rfl, rfl, by rw [List.drop_zero]; exact hb⟩
  constructor
  · intro hhome
    by_contra hnot
    obtain ⟨pre, u, mid, m, post, hsp, hpre, hu, hmid, hm⟩ := exists_of_not_matchedFirst hnot
    rw [hsp] at hstart hl
    obtain ⟨n, hin, hk⟩ : ∃ n, InStep b (signWalk K E beyond seed inputs b n) []
        (u :: (mid ++ m :: post)) L.unsigned ∧ Kept b (signWalk K E beyond seed inputs b n) :=
      hstart.iterate hkept hi L.outputs_nonneg hpre fun g hg => hl g (List.mem_append_left _ hg)
    -- the transactions up to `m` are all of addresses without input
    have hahead : (b.drop (signWalk K E beyond seed inputs b n).position).map slot =
        (u.address, u.value) :: (List.replicate (u.security - 1) (u.address, 0) ++
          mid.flatMap Spend.slots ++ (m.slots ++ (post.flatMap Spend.slots ++ L.unsigned))) := by
      rw [hin.ahead]
      simp [Spend.slots]
    have hstrange : ∀ x ∈ List.replicate (u.security - 1) (u.address, (0 : Int64)) ++
        mid.flatMap Spend.slots, ¬ Matched inputs x.1 := by
      intro x hx
      rcases List.mem_append.mp hx with hx | hx
      · rw [List.eq_of_mem_replicate hx]
        exact hu
      · obtain ⟨g, hg, hx⟩ := List.mem_flatMap.mp hx
        rw [Spend.address_of_mem hx]
        exact hmid g hg
    obtain ⟨hbehind, hk', hp⟩ : Behind b inputs (signTx K E beyond seed inputs
        (signWalk K E beyond seed inputs b n)) ∧ Kept b _ ∧ _ :=
      behind_signTx hk hahead hu (.inr ⟨hin.running, hin.synced, u.negative⟩)
    obtain ⟨-, -, -, hrest⟩ := drop_map_cons hahead
    rw [← hp] at hrest
    obtain ⟨hbehind', hk'', hp'⟩ := behind_iterate K E beyond seed hbehind hk' hrest hstrange
    obtain ⟨hfront, -⟩ := drop_map_append hrest
    rw [← hp'] at hfront
    refine hbehind'.cross K E beyond seed hk'' hi hfront hm (hl m (by simp)) ?_
    rw [← Function.iterate_succ_apply' (signTx K E beyond seed inputs),
      ← Function.iterate_succ_apply (signTx K E beyond seed inputs), signWalk,
      ← Function.iterate_add_apply]
    exact hhome _
  · intro hfirst steps
    have htidy : Tidy b inputs L.unsigned ⟨b, 0, 0, [], .running⟩ :=
      ⟨hkept, fun w hw => absurd hw List.not_mem_nil, .inr (.inr ⟨L.outputs, L.spends, hstart,
        L.outputs_nonneg, hl, hfirst⟩)⟩
    have hrun : Tidy b inputs L.unsigned (signWalk K E beyond seed inputs b steps) := by
      rw [signWalk]
      induction steps with
      | zero => exact htidy
      | succ n ih =>
        rw [Function.iterate_succ_apply']
        exact ih.signTx hi L.unsigned_nonneg
    exact hrun.home

end Run

end Entangled
