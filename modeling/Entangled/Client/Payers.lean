import Entangled.Client.Transfers
import Entangled.Signing.Exact
import Mathlib.Algebra.Order.BigOperators.Group.List
/-!
# Which inputs pay

`add_remainder`: the inputs pay in their order, those without a balance aside, up to the one that
covers what is still owed (`payers`). Each of them is spent as a whole, and what is left over goes
to the remainder (`addRemainderLoop_eq`).

Paid out, taken back and left over: such amounts never add up to more than the supply on the way,
so that a bundle of them is turned down for its addresses only (`payable_iff`). It is signed without
having been finalized before (`bundleSign_draft`).
-/

namespace Entangled

open Prog Ternary Trinary

variable {σ : Type}

/-! ## Signing a draft -/

section Draft

variable {K : Kerl σ} {E : Encoding} {beyond seed : List FlexTrit} {inputs : List Input}
  {b fin result : List (Transaction (List FlexTrit))} {rounds steps m : ℕ}

/-- A walk that has stopped stays where it is. -/
theorem signWalk_stopped (h : (signWalk K E beyond seed inputs b steps).outcome ≠ .running)
    (hm : steps ≤ m) :
    signWalk K E beyond seed inputs b m = signWalk K E beyond seed inputs b steps := by
  obtain ⟨k, rfl⟩ := Nat.exists_eq_add_of_le hm
  rw [signWalk, Nat.add_comm, Function.iterate_add_apply]
  exact Function.iterate_fixed (signTx_stopped h) k

/-- **Signing a bundle that was not finalized before**: there is one result, and it is valid exactly
when its amounts and addresses pass. -/
theorem bundleSign_draft (beyond : List FlexTrit) {L : Layout} (hb : b.map slot = L.slots)
    (hfin : bundleFinalize K E rounds (bundleResetIndexes b) = some fin)
    (hl : SameLevels inputs L.spends) (hm : ∀ g ∈ L.spends, Matched inputs g.address)
    (ho : Owned K E seed inputs) (hw : ∀ g ∈ L.spends, WholeFragments E g.security)
    (hs : NoStray L.spends L.unsigned) (hz : Tangle.bundleValue b = 0) :
    ∃ n result, (∀ steps ≥ n, bundleSign K E beyond seed inputs rounds steps b =
        some (.ok, result)) ∧
      (∀ steps r, bundleSign K E beyond seed inputs rounds steps b = some (.ok, r) → r = result) ∧
      result.map slot = b.map slot ∧
      (bundleValidate (kerlSponge K E) result = .valid ↔ Payable (kerlSponge K E) b) := by
  obtain ⟨hne, hframe, t, ht, hlen, hhash, hnames⟩ := bundleFinalize_spec hfin
  have hslot : fin.map slot = b.map slot := by rw [map_slot_of_frame hframe, map_slot_reset]
  have hwell : WellIndexed fin := (wellIndexed_reset b).of_frame hframe
  obtain ⟨n, hn⟩ : ∃ n, ∀ steps ≥ n, (signWalk K E beyond seed inputs fin steps).outcome = .ok ∧
      Kept fin (signWalk K E beyond seed inputs fin steps) ∧
      validateSignatures (kerlSponge K E) (pack E t)
        (signWalk K E beyond seed inputs fin steps).bundle = true :=
    signWalk_valid (hslot.trans hb) (fun k tx hk => (hwell k tx hk).1) ht hlen hnames hm hl hw ho hs
  have hsteps : ∀ steps ≥ n, bundleSign K E beyond seed inputs rounds steps b =
      some (.ok, bundleResetIndexes (signWalk K E beyond seed inputs fin n).bundle) := by
    intro steps hle
    rw [bundleSign, hfin, Option.map_some,
      signWalk_stopped (by rw [(hn n le_rfl).1]; decide) hle]
    simp only [if_pos (hn n le_rfl).1]
  obtain ⟨hok, hkept, hvalid⟩ := hn n le_rfl
  generalize signWalk K E beyond seed inputs fin n = st at hok hkept hvalid hsteps
  have hwell' : WellIndexed st.bundle :=
    hwell.of_frame (map_of_stripped frame (fun _ => rfl) hkept)
  have hslot' : st.bundle.map slot = b.map slot := hkept.map_slot.trans hslot
  have hne' : st.bundle ≠ [] := by
    intro hnil
    have hlength := hkept.length
    rw [hnil] at hlength
    exact hne (List.length_eq_zero_iff.mp hlength.symm)
  have hessence : st.bundle.map (·.essence) = fin.map (·.essence) :=
    map_of_stripped _ (fun _ => rfl) hkept
  have hnames' := hkept.bundle hnames
  rw [hwell'.reset_eq] at hsteps
  refine ⟨n, st.bundle, hsteps, fun steps r hr => ?_, hslot', ?_⟩
  · -- a walk that has ended is where every longer one is
    have hmax := hsteps (max n steps) (Nat.le_max_left n steps)
    rw [bundleSign, hfin, Option.map_some] at hr hmax
    dsimp only at hr hmax
    by_cases hended : (signWalk K E beyond seed inputs fin steps).outcome = .ok
    · rw [signWalk_stopped (by rw [hended]; decide) (Nat.le_max_right n steps)] at hmax
      rw [hmax] at hr
      exact (Prod.mk.inj (Option.some.inj hr)).2.symm
    · rw [if_neg hended] at hr
      exact absurd (Prod.mk.inj (Option.some.inj hr)).1 hended
  · rw [bundleValidate_signed hne' hwell' ⟨t, ht, hlen, hessence ▸ hhash, hnames'⟩
      ((bundleValue_eq_of_slot hslot').trans hz) fun tx htx => by rw [hnames' tx htx]; exact hvalid]
    exact ⟨fun hp => hp.of_slot hslot'.symm, fun hp => hp.of_slot hslot'⟩

end Draft

/-! ## Sums that rise, fall and rise -/

section Sums

theorem sum_take_nonneg {l : List ℤ} (h : ∀ x ∈ l, 0 ≤ x) (k : ℕ) :
    0 ≤ (l.take k).sum ∧ (l.take k).sum ≤ l.sum :=
  ⟨List.sum_nonneg fun x hx => h x (List.mem_of_mem_take hx),
    (List.take_sublist k l).sum_le_sum h⟩

theorem sum_take_nonpos {l : List ℤ} (h : ∀ x ∈ l, x ≤ 0) (k : ℕ) :
    l.sum ≤ (l.take k).sum ∧ (l.take k).sum ≤ 0 := by
  have hneg := sum_take_nonneg (l := l.map (- ·)) (fun x hx => by
    obtain ⟨y, hy, rfl⟩ := List.mem_map.mp hx
    exact Int.neg_nonneg_of_nonpos (h y hy)) k
  rw [← List.map_take, ← List.sum_neg, ← List.sum_neg] at hneg
  omega

/-- **Between the extremes**: what is paid out, taken back and left over never adds up to more than
what is paid out or the total, nor to less than what was taken back. -/
theorem sum_take_between {up down rest : List ℤ} (hup : ∀ x ∈ up, 0 ≤ x) (hdown : ∀ x ∈ down, x ≤ 0)
    (hrest : ∀ x ∈ rest, 0 ≤ x) (k : ℕ) :
    min 0 (up.sum + down.sum) ≤ ((up ++ (down ++ rest)).take k).sum ∧
      ((up ++ (down ++ rest)).take k).sum ≤ max up.sum (up.sum + down.sum + rest.sum) := by
  have h₁ := sum_take_nonneg hup k
  have h₂ := sum_take_nonpos hdown (k - up.length)
  have h₃ := sum_take_nonneg hrest (k - up.length - down.length)
  rw [List.take_append, List.take_append, List.sum_append, List.sum_append]
  rcases Nat.le_total k up.length with hk | hk
  · rw [Nat.sub_eq_zero_of_le hk, Nat.zero_sub, List.take_zero, List.take_zero, List.sum_nil]
    omega
  · rw [List.take_of_length_le hk]
    rcases Nat.le_total (k - up.length) down.length with hd | hd
    · rw [Nat.sub_eq_zero_of_le hd, List.take_zero, List.sum_nil]
      omega
    · rw [List.take_of_length_le hd]
      omega

end Sums

/-- The slots of a transfer, one for each fragment of the message. -/
def Transfer.slots (t : Transfer) : List (List FlexTrit × Int64) :=
  (t.address, t.value) :: List.replicate (t.msgLen / 2187) (t.address, 0)

/-- The slots of an input that is spent. -/
def ClientInput.slots (security : ℕ) (input : ClientInput) : List (List FlexTrit × Int64) :=
  (input.address, 0 - input.balance) :: List.replicate (security - 1) (input.address, 0)

namespace Client

/-! ## Which inputs pay -/

/-- An amount of tokens. -/
def Amount (v : Int64) : Prop := 0 ≤ v.toInt ∧ v.toInt ≤ iotaSupply

instance (v : Int64) : Decidable (Amount v) :=
  inferInstanceAs (Decidable (0 ≤ v.toInt ∧ v.toInt ≤ iotaSupply))

/-- The inputs that pay: those with a balance, up to the one that covers what is owed. -/
def payers : List ClientInput → ℤ → List ClientInput
  | [], _ => []
  | input :: rest, owed =>
    if input.balance = 0 then payers rest owed
    else if owed ≤ input.balance.toInt then [input]
    else input :: payers rest (owed - input.balance.toInt)

/-- What inputs pay together. -/
def paid (inputs : List ClientInput) : ℤ := (inputs.map (·.balance.toInt)).sum

/-- What the transfers ask for. -/
def asked (transfers : List Transfer) : ℤ := (transfers.map (·.value.toInt)).sum

theorem paid_cons (input : ClientInput) (inputs : List ClientInput) :
    paid (input :: inputs) = input.balance.toInt + paid inputs := by
  rw [paid, List.map_cons, List.sum_cons]
  rfl

section Payers

variable {inputs : List ClientInput} {input : ClientInput} {owed : ℤ}

theorem mem_payers (h : input ∈ payers inputs owed) : input ∈ inputs ∧ input.balance ≠ 0 := by
  induction inputs generalizing owed with
  | nil => exact absurd h List.not_mem_nil
  | cons i rest ih =>
    rw [payers] at h
    split_ifs at h with hzero hcover
    · exact ⟨List.mem_cons_of_mem i (ih h).1, (ih h).2⟩
    · rw [List.mem_singleton.mp h]
      exact ⟨List.mem_cons_self, hzero⟩
    · rcases List.mem_cons.mp h with rfl | h
      · exact ⟨List.mem_cons_self, hzero⟩
      · exact ⟨List.mem_cons_of_mem i (ih h).1, (ih h).2⟩

/-- **No input is spent that is not needed**: without the last one something is still owed, so less
is left over than the last one had. -/
theorem payers_needed (hpos : 0 < owed) (h : owed ≤ paid (payers inputs owed)) :
    ∃ front last, payers inputs owed = front ++ [last] ∧ paid front < owed ∧
      paid (payers inputs owed) - owed < last.balance.toInt := by
  induction inputs generalizing owed with
  | nil =>
    have hnone : paid (payers [] owed) = 0 := rfl
    omega
  | cons i rest ih =>
    rw [payers] at h ⊢
    split_ifs at h ⊢ with hzero hcover
    · exact ih hpos h
    · refine ⟨[], i, rfl, hpos, ?_⟩
      have hone : paid [i] = i.balance.toInt := by rw [paid_cons]; exact Int.add_zero _
      omega
    · rw [paid_cons] at h
      obtain ⟨front, last, heq, hfront, hlast⟩ :=
        ih (show 0 < owed - i.balance.toInt by omega) (by omega)
      refine ⟨i :: front, last, by rw [heq, List.cons_append], ?_, ?_⟩
      · rw [paid_cons]
        omega
      · rw [paid_cons]
        omega

end Payers

/-! ## The loop of `add_remainder` -/

section Loop

variable (K : Kerl σ) (E : Encoding) (N : ClientNode) (beyond seed : List FlexTrit)
  (rounds : CallRounds)

/-- The transactions that spend the inputs. -/
def spendEntries (security : UInt8) (tag : List FlexTrit) (timestamp : UInt64)
    (inputs : List ClientInput) : BundleTransactions :=
  inputs.flatMap fun input =>
    transactionEntries E security.toNat input.address (0 - input.balance) tag timestamp

/-- How `add_remainder` ends once the total is covered. -/
def settle (security : UInt8) (inputs : List ClientInput) (tag : List FlexTrit)
    (remainder : Option (List FlexTrit)) (timestamp : UInt64) (change : Int64) :
    EStateM ClientRetcode BundleTransactions (Option (List FlexTrit)) :=
  if 0 < change then do
    let address ← remainderAddress K E N seed rounds security remainder
    addTransactionEntry E 1 address change tag timestamp
    signBundle K E beyond seed rounds inputs
    pure (some address)
  else do
    signBundle K E beyond seed rounds inputs
    pure none

variable {K E N beyond seed rounds} {security : UInt8} {inputs left : List ClientInput}
  {tag : List FlexTrit} {remainder : Option (List FlexTrit)} {timestamp : UInt64} {total : Int64}

theorem sub_eq_ofInt (u v : Int64) : u - v = Int64.ofInt (u.toInt - v.toInt) := by
  rw [Int64.ofInt_sub, Int64.ofInt_toInt, Int64.ofInt_toInt]

/-- **What the loop comes to.** The inputs pay in their order; where they do not cover the total the
bundle is left as it is, unsigned. -/
theorem addRemainderLoop_eq (hleft : ∀ input ∈ left, Amount input.balance)
    (hpos : 0 < total.toInt) (bundle : BundleTransactions) :
    addRemainderLoop K E N beyond seed rounds security inputs tag remainder timestamp left total
        bundle =
      if total.toInt ≤ paid (payers left total.toInt) then
        settle K E N beyond seed rounds security inputs tag remainder timestamp
          (Int64.ofInt (paid (payers left total.toInt) - total.toInt))
          (bundle ++ spendEntries E security tag timestamp (payers left total.toInt))
      else .error .insufficientBalance
        (bundle ++ spendEntries E security tag timestamp (payers left total.toInt)) := by
  induction left generalizing total bundle with
  | nil =>
    have hnone : paid (payers [] total.toInt) = 0 := rfl
    rw [if_neg (by omega), spendEntries, payers, List.flatMap_nil, List.append_nil]
    rfl
  | cons input left ih =>
    obtain ⟨⟨hnonneg, hsup⟩, hrest⟩ := List.forall_mem_cons.mp hleft
    rw [addRemainderLoop, payers]
    by_cases hzero : input.balance = 0
    · rw [if_pos hzero, if_pos hzero]
      exact ih hrest hpos bundle
    · rw [if_neg hzero, if_neg hzero, addTransactionEntry, update_bind]
      by_cases hcover : total.toInt ≤ input.balance.toInt
      · have hone : paid [input] = input.balance.toInt := by
          rw [paid_cons]
          exact Int.add_zero _
        rw [if_pos hcover, if_pos (Int64.le_iff_toInt_le.mpr hcover), hone, if_pos hcover,
          ← sub_eq_ofInt]
        simp only [spendEntries, List.flatMap_cons, List.flatMap_nil, List.append_nil]
        rfl
      · have hsub : (total - input.balance).toInt = total.toInt - input.balance.toInt :=
          Int64.toInt_sub_of_le total input.balance
            (Int64.le_iff_toInt_le.mpr (by rwa [Int64.toInt_zero]))
            (Int64.le_iff_toInt_le.mpr (by omega))
        rw [if_neg hcover, if_neg fun h => hcover (Int64.le_iff_toInt_le.mp h),
          ih hrest (by rw [hsub]; omega), hsub, paid_cons, spendEntries, spendEntries,
          List.flatMap_cons, ← List.append_assoc]
        have hiff : total.toInt - input.balance.toInt ≤
            paid (payers left (total.toInt - input.balance.toInt)) ↔
            total.toInt ≤ input.balance.toInt +
              paid (payers left (total.toInt - input.balance.toInt)) := by omega
        have hchange : paid (payers left (total.toInt - input.balance.toInt)) -
            (total.toInt - input.balance.toInt) =
            input.balance.toInt + paid (payers left (total.toInt - input.balance.toInt)) -
              total.toInt := by omega
        simp only [hiff, hchange]

end Loop

/-! ## The slots of the draft -/

section Slots

variable {E : Encoding} {security : UInt8} {tag : List FlexTrit} {timestamp : UInt64}

theorem map_slot_transactionEntries (n : ℕ) (address : List FlexTrit) (value : Int64) :
    (transactionEntries E (n + 1) address value tag timestamp).map slot =
      (address, value) :: List.replicate n (address, 0) := by
  rw [transactionEntries, List.map_map, List.range_succ_eq_map, List.map_cons, List.map_map]
  refine congrArg ((address, value) :: ·) ?_
  rw [List.eq_replicate_iff]
  refine ⟨by rw [List.length_map, List.length_range], fun s hs => ?_⟩
  obtain ⟨i, -, rfl⟩ := List.mem_map.mp hs
  rfl

theorem map_slot_transfers (transfers : List Transfer) :
    (transfers.flatMap fun t =>
      transactionEntries E (1 + t.msgLen / 2187) t.address t.value t.tag timestamp).map slot =
      transfers.flatMap Transfer.slots := by
  rw [List.map_flatMap]
  refine congrArg (transfers.flatMap ·) (funext fun t => ?_)
  rw [Nat.add_comm 1, map_slot_transactionEntries, Transfer.slots]

theorem map_slot_spendEntries (hs : 0 < security.toNat) (inputs : List ClientInput) :
    (spendEntries E security tag timestamp inputs).map slot =
      inputs.flatMap (ClientInput.slots security.toNat) := by
  rw [spendEntries, List.map_flatMap]
  refine congrArg (inputs.flatMap ·) (funext fun input => ?_)
  obtain ⟨n, hn⟩ := Nat.exists_eq_add_of_lt hs
  rw [Nat.zero_add] at hn
  rw [hn, map_slot_transactionEntries, ClientInput.slots, Nat.add_sub_cancel]

/-- The values of slots, together. -/
def valueOf (slots : List (List FlexTrit × Int64)) : ℤ := (slots.map fun s => s.2.toInt).sum

theorem valueOf_append (as bs : List (List FlexTrit × Int64)) :
    valueOf (as ++ bs) = valueOf as + valueOf bs := by
  rw [valueOf, List.map_append, List.sum_append]
  rfl

theorem valueOf_group (address : List FlexTrit) (value : Int64) (n : ℕ) :
    valueOf ((address, value) :: List.replicate n (address, 0)) = value.toInt := by
  rw [valueOf, List.map_cons, List.sum_cons, List.map_replicate, List.sum_replicate]
  show value.toInt + n • (0 : Int64).toInt = value.toInt
  rw [Int64.toInt_zero, smul_zero, add_zero]

theorem valueOf_transfers (transfers : List Transfer) :
    valueOf (transfers.flatMap Transfer.slots) = asked transfers := by
  induction transfers with
  | nil => rfl
  | cons t rest ih =>
    rw [List.flatMap_cons, valueOf_append, ih, Transfer.slots, valueOf_group, asked, asked,
      List.map_cons, List.sum_cons]

theorem toInt_zero_sub {v : Int64} (h : Amount v) : (0 - v).toInt = -v.toInt := by
  have hfit : Word.Fits (0 - v.toInt) := by
    unfold Word.Fits
    unfold Amount iotaSupply at h
    omega
  rw [sub_eq_ofInt, Int64.toInt_zero, Word.toInt_ofInt hfit, Int.zero_sub]

theorem valueOf_spends {inputs : List ClientInput} (h : ∀ input ∈ inputs, Amount input.balance) :
    valueOf (inputs.flatMap (ClientInput.slots security.toNat)) = -paid inputs := by
  induction inputs with
  | nil => rfl
  | cons input rest ih =>
    obtain ⟨hamount, hrest⟩ := List.forall_mem_cons.mp h
    rw [List.flatMap_cons, valueOf_append, ih hrest, ClientInput.slots, valueOf_group,
      toInt_zero_sub hamount, paid_cons, Int.neg_add]

/-- A slot of a group has the value of the group or none. -/
theorem value_of_mem_group {address : List FlexTrit} {value : Int64} {n : ℕ}
    {s : List FlexTrit × Int64}
    (h : s ∈ (address, value) :: List.replicate n (address, 0)) : s.2 = value ∨ s.2 = 0 := by
  rcases List.mem_cons.mp h with rfl | h
  · exact .inl rfl
  · rw [List.eq_of_mem_replicate h]
    exact .inr rfl

/-- No slot of the transfers takes, and none gives more than they all ask for. -/
theorem value_of_mem_transfers {transfers : List Transfer}
    (h : ∀ t ∈ transfers, 0 ≤ t.value.toInt) :
    ∀ s ∈ transfers.flatMap Transfer.slots, 0 ≤ s.2.toInt ∧ s.2.toInt ≤ asked transfers := by
  have hnonneg : ∀ s ∈ transfers.flatMap Transfer.slots, 0 ≤ s.2.toInt := by
    intro s hs
    obtain ⟨t, ht, hs⟩ := List.mem_flatMap.mp hs
    rcases value_of_mem_group hs with hv | hv
    · rw [hv]
      exact h t ht
    · rw [hv, Int64.toInt_zero]
  refine fun s hs => ⟨hnonneg s hs, ?_⟩
  rw [← valueOf_transfers]
  refine List.single_le_sum (fun x hx => ?_) s.2.toInt (List.mem_map_of_mem hs)
  obtain ⟨r, hr, rfl⟩ := List.mem_map.mp hx
  exact hnonneg r hr

/-- **The amounts pass** where what is paid out, what is taken back and what is left over each
stays within the supply; only the addresses are left to look at. -/
theorem payable_iff {sponge : Sponge (List FlexTrit)} {b : BundleTransactions}
    {up down rest : List (List FlexTrit × Int64)} (hb : b.map slot = up ++ (down ++ rest))
    (hvalue : ∀ s ∈ up ++ (down ++ rest), |s.2.toInt| ≤ iotaSupply)
    (hup : ∀ s ∈ up, 0 ≤ s.2.toInt) (hdown : ∀ s ∈ down, s.2.toInt ≤ 0)
    (hrest : ∀ s ∈ rest, 0 ≤ s.2.toInt) (hpaid : valueOf up ≤ iotaSupply)
    (hback : -iotaSupply ≤ valueOf up + valueOf down)
    (htotal : valueOf up + valueOf down + valueOf rest = 0) :
    Payable sponge b ↔ ∀ tx ∈ b, tx.value ≠ 0 → sponge.lastTrit tx.address = 0 := by
  have hmem : ∀ {slots : List (List FlexTrit × Int64)} {P : ℤ → Prop},
      (∀ s ∈ slots, P s.2.toInt) → ∀ x ∈ slots.map fun s => s.2.toInt, P x := by
    intro slots P h x hx
    obtain ⟨s, hs, rfl⟩ := List.mem_map.mp hx
    exact h s hs
  constructor
  · exact fun h => h.address
  · intro haddress
    refine ⟨fun tx htx => .inr (hvalue (slot tx) ?_), fun k => ?_, haddress⟩
    · rw [← hb]
      exact List.mem_map_of_mem htx
    · have hprefix : prefixSum b k = ((up.map (fun s => s.2.toInt) ++
          (down.map (fun s => s.2.toInt) ++ rest.map fun s => s.2.toInt)).take k).sum := by
        rw [← List.map_append, ← List.map_append, ← hb, List.map_map, ← List.map_take]
        rfl
      have hbetween := sum_take_between (hmem hup) (hmem hdown) (hmem hrest) k
      rw [← hprefix] at hbetween
      refine tolerated_ofInt (abs_le.mpr ?_)
      unfold valueOf at hpaid hback htotal
      unfold iotaSupply at *
      omega

/-- The inputs that pay, as spends of the bundle. -/
theorem exists_spends (hs : 0 < security.toNat ∧ security.toNat ≤ 3) {inputs : List ClientInput}
    (h : ∀ input ∈ inputs, Amount input.balance ∧ input.balance ≠ 0) :
    ∃ spends : List Spend,
      spends.flatMap Spend.slots = inputs.flatMap (ClientInput.slots security.toNat) ∧
      ∀ g ∈ spends, g.security = security.toNat ∧ ∃ input ∈ inputs, input.address = g.address := by
  induction inputs with
  | nil => exact ⟨[], rfl, fun g hg => absurd hg List.not_mem_nil⟩
  | cons input rest ih =>
    obtain ⟨⟨hamount, hzero⟩, hrest⟩ := List.forall_mem_cons.mp h
    obtain ⟨spends, hslots, hspends⟩ := ih hrest
    have hneg : 0 - input.balance < 0 := by
      have hne : input.balance.toInt ≠ 0 := fun h0 =>
        hzero (Int64.toInt_inj.mp (h0.trans Int64.toInt_zero.symm))
      have hnonneg := hamount.1
      rw [Int64.lt_iff_toInt_lt, toInt_zero_sub hamount, Int64.toInt_zero]
      omega
    refine ⟨⟨input.address, 0 - input.balance, security.toNat, hneg, hs⟩ :: spends, ?_, ?_⟩
    · rw [List.flatMap_cons, List.flatMap_cons, hslots]
      rfl
    · intro g hg
      rcases List.mem_cons.mp hg with rfl | hg
      · exact ⟨rfl, input, List.mem_cons_self, rfl⟩
      · obtain ⟨hlevel, i, hi, haddr⟩ := hspends g hg
        exact ⟨hlevel, i, List.mem_cons_of_mem input hi, haddr⟩

end Slots

end Client

end Entangled
