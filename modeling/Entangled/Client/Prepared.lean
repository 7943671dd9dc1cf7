import Entangled.Client.NewAddress
import Entangled.Client.Payers
/-!
# What is prepared

The bundle that `iota_client_prepare_transfers` returns. The transactions of an input are as many as
`security` says, and its signature is as long as the level of the input. Where the two agree, the
transfers get exactly what they ask for, the rest goes to one more address, and the bundle is valid
as soon as its addresses are (`prepareTransfers_prepared`).
-/

namespace Entangled

open Prog Ternary Trinary

variable {σ : Type}

namespace Client

/-! ## Where the inputs come from -/

section Sources

variable {K : Kerl σ} {E : Encoding} {N : ClientNode} {seed : List FlexTrit} {security : UInt8}
  {rounds : CallRounds} {inputs sources : List ClientInput} {bundle bundle' : BundleTransactions}
  {threshold : Int64} {addrIndexEnd : UInt64} {l : InputsLocals}
  {outInputs outInputs' : ClientInputs}
  {turn : Loop.Turn InputsLocals (InputsEnd × Except ClientRetcode Unit)}

/-- An input as the scan finds it: an address of the seed, with what the node says it has. -/
structure Found (K : Kerl σ) (E : Encoding) (N : ClientNode) (seed : List FlexTrit)
    (security : UInt8) (input : ClientInput) : Prop where
  level : input.security = security
  address : addressAt K E seed security input.keyIndex = some input.address
  balance : input.balance = (N.balance input.address).toInt64

theorem inputsTurn_found {opt : AddressOpt}
    (h : inputsTurn K E N seed opt threshold addrIndexEnd l outInputs = .ok turn outInputs')
    (hfound : ∀ input ∈ outInputs.inputArray, Found K E N seed opt.security input) :
    ∀ input ∈ outInputs'.inputArray, Found K E N seed opt.security input := by
  unfold inputsTurn at h
  by_cases hend : l.addrIndex < addrIndexEnd
  · rw [if_pos hend] at h
    cases ha : iotaSignAddressGenFlexTrits K E seed l.addrIndex opt.security.toNat with
    | none =>
      rw [ha] at h
      cases h
    | some addr =>
      rw [ha] at h
      dsimp only at h
      by_cases hunused : opt.total = 0 ∧ (isUsedAddress N addr l.isUsed false []).unused = true
      · rw [if_pos hunused] at h
        cases h
        exact hfound
      · rw [if_neg hunused] at h
        cases hbalances : N.getBalances [addr] with
        | error e =>
          rw [hbalances] at h
          cases h
          exact hfound
        | ok balances =>
          rw [hbalances] at h
          dsimp only at h
          rw [gets_bind] at h
          dsimp only [id] at h
          by_cases hlt : outInputs.totalBalance < threshold
          · rw [if_pos hlt, update_bind] at h
            cases h
            intro input hin
            rcases List.mem_append.mp hin with hin | hin
            · exact hfound input hin
            · have hanswer := ClientNode.answer_eq_ok.mp hbalances
              rw [List.mem_singleton.mp hin]
              refine ⟨rfl, ha, ?_⟩
              rw [← hanswer.2]
              rfl
          · rw [if_neg hlt] at h
            cases h
            exact hfound
  · rw [if_neg hend] at h
    cases h
    exact hfound

theorem getInputs_found {start : UInt64} {n : ℕ}
    (h : getInputs K E N seed n ⟨start, 0, security⟩ threshold ⟨0, []⟩ = .ok () outInputs') :
    ∀ input ∈ outInputs'.inputArray, Found K E N seed security input := by
  rw [getInputs, update_bind] at h
  obtain ⟨r, s, hrun, h⟩ := bind_eq_ok.mp h
  obtain ⟨p, hp, hdone⟩ := Loop.run_eq_ok hrun
  have hhead : ∀ input ∈ p.2.inputArray, Found K E N seed security input :=
    hp.invariant (I := fun p => ∀ input ∈ p.2.inputArray, Found K E N seed security input)
      (fun input hin => absurd hin List.not_mem_nil)
      fun q r _ hq hqr => inputsTurn_found hqr hq
  have hend := inputsTurn_found hdone hhead
  rw [gets_bind] at h
  dsimp only [id] at h
  by_cases hlt : s.totalBalance < threshold
  · rw [if_pos hlt] at h
    cases h
  · rw [if_neg hlt] at h
    cases hret : r.2 with
    | error e =>
      rw [hret] at h
      cases h
    | ok u =>
      rw [hret] at h
      cases h
      exact hend

theorem checkBalances_eq_ok (h : checkBalances N inputs bundle = .ok () bundle') :
    bundle' = bundle := by
  unfold checkBalances at h
  cases hbalances : N.getBalances (inputs.map (·.address)) with
  | error e =>
    rw [hbalances] at h
    cases h
  | ok balances =>
    rw [hbalances] at h
    dsimp only at h
    split_ifs at h
    · cases h
      rfl
    · cases h

/-- The inputs of the caller are spent from as they are. -/
theorem sourceInputs_given {validateInputs : Bool} (hgiven : inputs ≠ [])
    (h : sourceInputs K E N seed rounds security inputs validateInputs threshold bundle =
      .ok sources bundle') : bundle' = bundle ∧ sources = inputs := by
  have hsources : sourceInputs K E N seed rounds security inputs validateInputs threshold =
      if validateInputs then (do checkBalances N inputs; pure inputs) else pure inputs :=
    if_pos hgiven
  rw [hsources] at h
  cases validateInputs with
  | false =>
    cases h
    exact ⟨rfl, rfl⟩
  | true =>
    rw [if_pos rfl] at h
    obtain ⟨u, b, hcheck, h⟩ := bind_eq_ok.mp h
    cases h
    exact ⟨checkBalances_eq_ok hcheck, rfl⟩

/-- Without them the scan of the seed says what is spent from. -/
theorem sourceInputs_scan {validateInputs : Bool} (hnone : ¬inputs ≠ [])
    (h : sourceInputs K E N seed rounds security inputs validateInputs threshold bundle =
      .ok sources bundle') :
    bundle' = bundle ∧
      ∃ localInputs,
        getInputs K E N seed rounds.scan ⟨0, 0, security⟩ threshold ⟨0, []⟩ = .ok () localInputs ∧
        sources = localInputs.inputArray := by
  cases hscan : getInputs K E N seed rounds.scan ⟨0, 0, security⟩ threshold ⟨0, []⟩ with
  | error e s =>
    have hsources : sourceInputs K E N seed rounds security inputs validateInputs threshold
        bundle = .error e bundle := by
      simp only [sourceInputs, hscan]
      exact congrFun (if_neg hnone) bundle
    rw [hsources] at h
    cases h
  | ok u s =>
    have hsources : sourceInputs K E N seed rounds security inputs validateInputs threshold
        bundle = .ok s.inputArray bundle := by
      simp only [sourceInputs, hscan]
      exact congrFun (if_neg hnone) bundle
    rw [hsources] at h
    cases h
    exact ⟨rfl, s, rfl, rfl⟩

/-- **The inputs that are spent from** are those of the caller, or found by the scan. -/
theorem sourceInputs_spec {validateInputs : Bool}
    (h : sourceInputs K E N seed rounds security inputs validateInputs threshold bundle =
      .ok sources bundle') :
    bundle' = bundle ∧ (inputs ≠ [] → sources = inputs) ∧
      (inputs = [] → ∀ input ∈ sources, Found K E N seed security input) := by
  by_cases hgiven : inputs ≠ []
  · obtain ⟨hbundle, hsources⟩ := sourceInputs_given hgiven h
    exact ⟨hbundle, fun _ => hsources, fun hnil => absurd hnil hgiven⟩
  · obtain ⟨hbundle, localInputs, hscan, rfl⟩ := sourceInputs_scan hgiven h
    exact ⟨hbundle, fun hne => absurd hne hgiven, fun _ => getInputs_found hscan⟩

end Sources

/-! ## The bundle -/

section Prepared

variable {K : Kerl σ} {E : Encoding} {N : ClientNode} {beyond seed tag : List FlexTrit}
  {rounds : CallRounds} {security : UInt8} {transfers : List Transfer}
  {inputs sources : List ClientInput} {remainder dest : Option (List FlexTrit)}
  {b bundle : BundleTransactions} {timestamp now : UInt64} {change : Int64}

theorem bundleValue_eq_valueOf (b : BundleTransactions) :
    Tangle.bundleValue b = valueOf (b.map slot) := by
  rw [Tangle.bundleValue, valueOf, List.map_map]
  rfl

theorem asked_nonneg (h : ∀ t ∈ transfers, 0 ≤ t.value.toInt) : 0 ≤ asked transfers :=
  List.sum_nonneg fun x hx => by
    obtain ⟨t, ht, rfl⟩ := List.mem_map.mp hx
    exact h t ht

theorem toInt_total (h : ∀ t ∈ transfers, 0 ≤ t.value.toInt) (hsum : asked transfers ≤ iotaSupply) :
    (transfers.foldl (fun (total : Int64) t => total + t.value) 0).toInt = asked transfers := by
  have hfold : ∀ (l : List Transfer) (x : ℤ),
      l.foldl (fun (total : Int64) (t : Transfer) => total + t.value) (Int64.ofInt x) =
        Int64.ofInt (x + asked l) := by
    intro l
    induction l with
    | nil => exact fun x => congrArg Int64.ofInt (Int.add_zero x).symm
    | cons t rest ih =>
      intro x
      rw [List.foldl_cons, Word.ofInt_add_word, ih, asked, asked, List.map_cons, List.sum_cons,
        Int.add_assoc]
  have hnonneg := asked_nonneg h
  have hfit : Word.Fits (asked transfers) := by
    unfold Word.Fits
    unfold iotaSupply at hsum
    omega
  have hzero := hfold transfers 0
  rw [Int.zero_add] at hzero
  exact (congrArg Int64.toInt hzero).trans (Word.toInt_ofInt hfit)

/-- The slots of a bundle that spends from `sources`. -/
def draftSlots (security : UInt8) (transfers : List Transfer) (sources : List ClientInput)
    (dest : Option (List FlexTrit)) : List (List FlexTrit × Int64) :=
  let paying := payers sources (asked transfers)
  transfers.flatMap Transfer.slots ++ (paying.flatMap (ClientInput.slots security.toNat) ++
    dest.toList.map fun address => (address, Int64.ofInt (paid paying - asked transfers)))

/-- **A prepared bundle.** The transfers get what they ask for, the inputs that pay are spent as a
whole, the rest goes to one more address, and nothing but the addresses can make it invalid. -/
structure Prepared (K : Kerl σ) (E : Encoding) (N : ClientNode) (seed : List FlexTrit)
    (security : UInt8) (transfers : List Transfer) (remainder : Option (List FlexTrit))
    (sources : List ClientInput) (dest : Option (List FlexTrit)) (bundle : BundleTransactions) :
    Prop where
  covered : asked transfers ≤ paid (payers sources (asked transfers))
  slots : bundle.map slot = draftSlots security transfers sources dest
  change : dest.isSome ↔ asked transfers < paid (payers sources (asked transfers))
  destination : ∀ address, dest = some address →
    remainder = some address ∨ remainder = none ∧ ∃ i, FirstBare K E N seed security i address
  valid : bundleValidate (kerlSponge K E) bundle = .valid ↔
    ∀ tx ∈ bundle, tx.value ≠ 0 → (kerlSponge K E).lastTrit tx.address = 0

theorem signBundle_eq_ok :
    signBundle K E beyond seed rounds inputs b = .ok () bundle ↔
      bundleSign K E beyond seed (inputs.map (·.toInput)) rounds.finalize rounds.sign b =
        some (.ok, bundle) := by
  unfold signBundle
  split <;> simp_all

theorem level_of_address {i : UInt64} {a : List FlexTrit}
    (h : addressAt K E seed security i = some a) : 0 < security.toNat ∧ security.toNat ≤ 3 := by
  by_contra hlevel
  rw [addressAt, iotaSignAddressGenFlexTrits, iotaSignAddressGenTrits, if_neg hlevel] at h
  cases h

/-- An input of the seed, for the level that the others have. -/
structure Spendable (K : Kerl σ) (E : Encoding) (seed : List FlexTrit) (security : UInt8)
    (input : ClientInput) : Prop where
  level : input.security = security
  address : addressAt K E seed security input.keyIndex = some input.address
  amount : Amount input.balance

/-- What the scan finds can be spent, where the node says nothing impossible. -/
theorem Found.spendable {input : ClientInput} (h : Found K E N seed security input)
    (hnode : ∀ a, Amount (N.balance a).toInt64) : Spendable K E seed security input := by
  refine ⟨h.level, h.address, ?_⟩
  rw [h.balance]
  exact hnode input.address

/-- Transfers, the inputs that pay for them and where the rest goes, as they fit together. -/
structure Funded (K : Kerl σ) (E : Encoding) (seed : List FlexTrit) (security : UInt8)
    (transfers : List Transfer) (sources : List ClientInput) (dest : Option (List FlexTrit)) :
    Prop where
  nonneg : ∀ t ∈ transfers, 0 ≤ t.value.toInt
  supply : asked transfers ≤ iotaSupply
  pos : 0 < asked transfers
  spendable : ∀ input ∈ sources, Spendable K E seed security input
  covered : asked transfers ≤ paid (payers sources (asked transfers))
  change : dest.isSome ↔
    0 < Int64.ofInt (paid (payers sources (asked transfers)) - asked transfers)

namespace Funded

theorem paying (F : Funded K E seed security transfers sources dest) :
    ∀ input ∈ payers sources (asked transfers), Amount input.balance ∧ input.balance ≠ 0 :=
  fun input hi => ⟨(F.spendable input (mem_payers hi).1).amount, (mem_payers hi).2⟩

/-- What is left over is less than the last input had. -/
theorem toInt_change (F : Funded K E seed security transfers sources dest) :
    (Int64.ofInt (paid (payers sources (asked transfers)) - asked transfers)).toInt =
      paid (payers sources (asked transfers)) - asked transfers ∧
    paid (payers sources (asked transfers)) - asked transfers ≤ iotaSupply ∧
    0 < security.toNat ∧ security.toNat ≤ 3 := by
  obtain ⟨front, last, hpayers, -, hlast⟩ := payers_needed F.pos F.covered
  have hin : last ∈ sources :=
    (mem_payers (hpayers ▸ List.mem_append_right front List.mem_cons_self)).1
  have hsup := (F.spendable last hin).amount.2
  have hcovered := F.covered
  have hfit : Word.Fits (paid (payers sources (asked transfers)) - asked transfers) := by
    unfold Word.Fits
    unfold iotaSupply at hsup
    omega
  exact ⟨Word.toInt_ofInt hfit, by omega, level_of_address (F.spendable last hin).address⟩

theorem change_iff (F : Funded K E seed security transfers sources dest) :
    dest.isSome ↔ asked transfers < paid (payers sources (asked transfers)) := by
  rw [F.change, Int64.lt_iff_toInt_lt, Int64.toInt_zero, F.toInt_change.1]
  omega

/-- A remainder is never nothing. -/
theorem rest (F : Funded K E seed security transfers sources dest) :
    let rest := dest.toList.map fun address =>
      (address, Int64.ofInt (paid (payers sources (asked transfers)) - asked transfers))
    (∀ s ∈ rest, 0 < s.2.toInt ∧ s.2.toInt ≤ iotaSupply) ∧
      valueOf rest = paid (payers sources (asked transfers)) - asked transfers := by
  obtain ⟨hvalue, hsup, -⟩ := F.toInt_change
  have hchange := F.change_iff
  have hcovered := F.covered
  cases dest with
  | none =>
    have hnot : ¬asked transfers < paid (payers sources (asked transfers)) := fun h =>
      absurd (hchange.mpr h) (by decide)
    refine ⟨fun s hs => absurd hs List.not_mem_nil, ?_⟩
    show (0 : ℤ) = _
    omega
  | some address =>
    have hpos := hchange.mp rfl
    refine ⟨fun s hs => ?_, ?_⟩
    · rw [List.mem_singleton.mp hs]
      dsimp only
      omega
    · show _ + (0 : ℤ) = _
      rw [Int.add_zero]
      exact hvalue

/-- **Only the addresses are left to look at.** -/
theorem payable (F : Funded K E seed security transfers sources dest)
    (sponge : Sponge (List FlexTrit))
    (hb : b.map slot = draftSlots security transfers sources dest) :
    Tangle.bundleValue b = 0 ∧
      (Payable sponge b ↔ ∀ tx ∈ b, tx.value ≠ 0 → sponge.lastTrit tx.address = 0) := by
  obtain ⟨hvalue, hsup, -⟩ := F.toInt_change
  obtain ⟨hrest, hleft⟩ := F.rest
  have hup := valueOf_transfers transfers
  have hdown : valueOf ((payers sources (asked transfers)).flatMap
      (ClientInput.slots security.toNat)) = -paid (payers sources (asked transfers)) :=
    valueOf_spends fun input hi => (F.paying input hi).1
  have hpos := F.pos
  have hcovered := F.covered
  have hsupply := F.supply
  have hgiven := value_of_mem_transfers F.nonneg
  have hspent : ∀ s ∈ (payers sources (asked transfers)).flatMap
      (ClientInput.slots security.toNat), -iotaSupply ≤ s.2.toInt ∧ s.2.toInt ≤ 0 := by
    intro s hs
    obtain ⟨input, hi, hs⟩ := List.mem_flatMap.mp hs
    have hamount := (F.paying input hi).1
    rcases value_of_mem_group hs with h | h
    · rw [h, toInt_zero_sub hamount]
      unfold Amount at hamount
      omega
    · rw [h, Int64.toInt_zero]
      unfold iotaSupply
      omega
  unfold draftSlots at hb
  dsimp only at hb hrest hleft
  constructor
  · rw [bundleValue_eq_valueOf, hb, valueOf_append, valueOf_append, hup, hdown, hleft]
    omega
  · refine payable_iff hb (fun s hs => ?_) (fun s hs => (hgiven s hs).1)
      (fun s hs => (hspent s hs).2) (fun s hs => (hrest s hs).1.le) (by rwa [hup])
      (by rw [hup, hdown]; omega)
      (by rw [hup, hdown, hleft]; omega)
    refine abs_le.mpr ?_
    rcases List.mem_append.mp hs with hs | hs
    · have h := hgiven s hs
      unfold iotaSupply at hsupply ⊢
      omega
    · rcases List.mem_append.mp hs with hs | hs
      · have h := hspent s hs
        unfold iotaSupply at h ⊢
        omega
      · have h := hrest s hs
        unfold iotaSupply at h ⊢
        omega

/-- The draft as the walk of `bundle_sign` sees it. -/
theorem exists_layout (F : Funded K E seed security transfers sources dest) :
    ∃ L : Layout, L.slots = draftSlots security transfers sources dest ∧
      SameLevels (sources.map (·.toInput)) L.spends ∧
      (∀ g ∈ L.spends, g.security = security.toNat ∧
        Matched (sources.map (·.toInput)) g.address) ∧ NoStray L.spends L.unsigned := by
  obtain ⟨-, -, hs⟩ := F.toInt_change
  obtain ⟨hrest, -⟩ := F.rest
  obtain ⟨spends, hspends, hsecurity⟩ := exists_spends hs F.paying
  refine ⟨⟨transfers.flatMap Transfer.slots, spends, dest.toList.map fun address =>
      (address, Int64.ofInt (paid (payers sources (asked transfers)) - asked transfers)),
    fun s hs => ?_, fun s hs => ?_⟩, ?_, fun g hg input hin _ => ?_, fun g hg => ?_,
    fun g _ s hs hzero => ?_⟩
  · rw [Int64.le_iff_toInt_le, Int64.toInt_zero]
    exact (value_of_mem_transfers F.nonneg s hs).1
  · rw [Int64.le_iff_toInt_le, Int64.toInt_zero]
    exact (hrest s hs).1.le
  · rw [Layout.slots, hspends]
    rfl
  · obtain ⟨i, hi, rfl⟩ := List.mem_map.mp hin
    rw [(hsecurity g hg).1, (F.spendable i hi).level]
  · obtain ⟨hlevel, i, hi, haddress⟩ := hsecurity g hg
    exact ⟨hlevel, i.toInput, List.mem_map_of_mem (mem_payers hi).1, haddress⟩
  · have hpos := (hrest s (List.mem_of_mem_head? hs)).1
    rw [hzero.2, Int64.toInt_zero] at hpos
    exact absurd hpos (lt_irrefl 0)

/-- **The draft is signed into a bundle** that its addresses alone can make invalid. -/
theorem signed (F : Funded K E seed security transfers sources dest) (beyond : List FlexTrit)
    (hw : WholeFragments E security.toNat) {fin : BundleTransactions} {n : ℕ}
    (hb : b.map slot = draftSlots security transfers sources dest)
    (hfin : bundleFinalize K E n (bundleResetIndexes b) = some fin) :
    ∃ m result, (∀ steps ≥ m, bundleSign K E beyond seed (sources.map (·.toInput)) n steps b =
        some (.ok, result)) ∧
      (∀ steps r, bundleSign K E beyond seed (sources.map (·.toInput)) n steps b =
        some (.ok, r) → r = result) ∧
      result.map slot = draftSlots security transfers sources dest ∧
      (bundleValidate (kerlSponge K E) result = .valid ↔
        ∀ tx ∈ result, tx.value ≠ 0 → (kerlSponge K E).lastTrit tx.address = 0) := by
  obtain ⟨L, hslots, hlevels, hspends, hstray⟩ := F.exists_layout
  have howned : Owned K E seed (sources.map (·.toInput)) := by
    intro input hin
    obtain ⟨i, hi, rfl⟩ := List.mem_map.mp hin
    rw [(F.spendable i hi).level]
    exact (F.spendable i hi).address
  obtain ⟨m, result, hsteps, hunique, hslot, hvalid⟩ :=
    bundleSign_draft beyond (hb.trans hslots.symm) hfin hlevels (fun g hg => (hspends g hg).2)
      howned (fun g hg => by rw [(hspends g hg).1]; exact hw) hstray
      (F.payable (kerlSponge K E) hb).1
  have hresult := hslot.trans hb
  refine ⟨m, result, hsteps, hunique, hresult, hvalid.trans ?_⟩
  rw [← (F.payable (kerlSponge K E) hresult).2]
  exact ⟨fun hp => hp.of_slot hslot, fun hp => hp.of_slot hslot.symm⟩

end Funded

/-- **How `add_remainder` ends**, where it does with `RC_OK`. -/
theorem settle_eq_ok (h : settle K E N beyond seed rounds security inputs tag remainder timestamp
    change b = .ok dest bundle) :
    (dest.isSome ↔ 0 < change) ∧
      (∀ address, dest = some address →
        remainder = some address ∨
          remainder = none ∧ ∃ i, FirstBare K E N seed security i address) ∧
      ∃ b' : BundleTransactions,
        b'.map slot = b.map slot ++ dest.toList.map (fun address => (address, change)) ∧
        bundleSign K E beyond seed (inputs.map (·.toInput)) rounds.finalize rounds.sign b' =
          some (.ok, bundle) := by
  unfold settle at h
  by_cases hpos : 0 < change
  · rw [if_pos hpos] at h
    obtain ⟨address, b₁, hremainder, h⟩ := bind_eq_ok.mp h
    obtain ⟨u, b₂, hentry, h⟩ := bind_eq_ok.mp h
    obtain ⟨v, b₃, hsign, h⟩ := bind_eq_ok.mp h
    cases h
    cases hentry
    have hkept : b₁ = b ∧ (remainder = some address ∨
        remainder = none ∧ ∃ i, FirstBare K E N seed security i address) := by
      cases remainder with
      | some a =>
        cases hremainder
        exact ⟨rfl, .inl rfl⟩
      | none =>
        refine ⟨?_, .inr ⟨rfl, remainderAddress_firstBare hremainder⟩⟩
        unfold remainderAddress at hremainder
        dsimp only at hremainder
        split at hremainder
        · cases hremainder
        · split at hremainder
          · cases hremainder
            rfl
          · cases hremainder
    obtain ⟨rfl, hdest⟩ := hkept
    refine ⟨⟨fun _ => hpos, fun _ => rfl⟩, fun a ha => ?_, _, ?_, signBundle_eq_ok.mp hsign⟩
    · cases ha
      exact hdest
    · rw [List.map_append, map_slot_transactionEntries]
      rfl
  · rw [if_neg hpos] at h
    obtain ⟨v, b₁, hsign, h⟩ := bind_eq_ok.mp h
    cases h
    exact ⟨⟨fun hnone => absurd hnone (by decide), fun h => absurd h hpos⟩,
      fun a ha => absurd ha (by simp), b, (List.append_nil _).symm, signBundle_eq_ok.mp hsign⟩

/-- The inputs cover the total where `RC_OK` is returned. -/
theorem addRemainder_eq_ok {total : Int64} (hinputs : ∀ input ∈ inputs, Amount input.balance)
    (hpos : 0 < total.toInt)
    (h : addRemainder K E N beyond seed rounds security inputs tag total remainder timestamp b =
      .ok dest bundle) :
    total.toInt ≤ paid (payers inputs total.toInt) ∧
      settle K E N beyond seed rounds security inputs tag remainder timestamp
        (Int64.ofInt (paid (payers inputs total.toInt) - total.toInt))
        (b ++ spendEntries E security tag timestamp (payers inputs total.toInt)) =
          .ok dest bundle := by
  unfold addRemainder at h
  by_cases hnil : inputs = []
  · rw [if_pos hnil] at h
    cases h
  · rw [if_neg hnil, addRemainderLoop_eq hinputs hpos] at h
    by_cases hcover : total.toInt ≤ paid (payers inputs total.toInt)
    · rw [if_pos hcover] at h
      exact ⟨hcover, h⟩
    · rw [if_neg hcover] at h
      cases h

/-- **Transfers of nothing** are only finalized. -/
theorem prepared_nothing {n : ℕ} (htransfers : ∀ t ∈ transfers, 0 ≤ t.value.toInt)
    (hzero : asked transfers = 0) (hb : b.map slot = transfers.flatMap Transfer.slots)
    (hfin : bundleFinalize K E n (bundleResetIndexes b) = some bundle) :
    Prepared K E N seed security transfers remainder [] none bundle := by
  obtain ⟨hne, hframe, hsealed⟩ := bundleFinalize_spec hfin
  have hslot : bundle.map slot = transfers.flatMap Transfer.slots := by
    rw [map_slot_of_frame hframe, map_slot_reset, hb]
  have hgiven := value_of_mem_transfers htransfers
  have hvalue := (valueOf_transfers transfers).trans hzero
  have hnone : paid (payers [] (asked transfers)) = 0 := rfl
  refine ⟨by omega, ?_, ?_, fun address h => absurd h (by simp), ?_⟩
  · rw [hslot, draftSlots]
    exact (List.append_nil _).symm
  · exact ⟨fun h => absurd h (by decide), fun h => absurd h (by omega)⟩
  · have hpositive : ∀ tx ∈ bundle, (0 : Int64) ≤ tx.value := by
      intro tx htx
      rw [Int64.le_iff_toInt_le, Int64.toInt_zero]
      exact (hgiven (slot tx) (hslot ▸ List.mem_map_of_mem htx)).1
    have hskip : ∀ hash, validateSignatures (kerlSponge K E) hash (bundle ++ []) = _ :=
      fun hash => validateSignatures_skip hpositive
    rw [List.append_nil] at hskip
    have hsum : Tangle.bundleValue bundle = 0 := by
      rw [bundleValue_eq_valueOf, hslot, hvalue]
    rw [bundleValidate_signed hne ((wellIndexed_reset b).of_frame hframe) hsealed hsum
      fun tx _ => hskip tx.bundle]
    have hslot' : bundle.map slot = transfers.flatMap Transfer.slots ++ ([] ++ []) :=
      hslot.trans (List.append_nil _).symm
    refine payable_iff hslot' (fun s hs => ?_) (fun s hs => (hgiven s hs).1)
      (fun s hs => absurd hs List.not_mem_nil) (fun s hs => absurd hs List.not_mem_nil)
      (by rw [hvalue]; decide) (by rw [hvalue]; decide) (by rw [hvalue]; rfl)
    rw [List.append_nil, List.append_nil] at hs
    have h := hgiven s hs
    refine abs_le.mpr ?_
    unfold iotaSupply
    omega

/-- **`RC_OK` is returned** where the inputs are given and cover the total, once the search for a
secure hash ends. -/
theorem prepareTransfers_returns (F : Funded K E seed security transfers inputs dest)
    (hw : WholeFragments E security.toNat) (hdest : ∀ address, dest = some address →
      remainder = some address) (finalize : ℕ)
    (hfin : ∀ b, b.map slot = draftSlots security transfers inputs dest →
      ∃ fin, bundleFinalize K E finalize (bundleResetIndexes b) = some fin)
    (N : ClientNode) (beyond : List FlexTrit) (scan : ℕ) (timestamp now : UInt64) :
    ∃ n, ∀ steps ≥ n, ∃ bundle, prepareTransfers K E N beyond seed ⟨scan, finalize, steps⟩ security
      transfers remainder inputs false timestamp now [] = .ok dest bundle := by
  have htotal := toInt_total F.nonneg F.supply
  have hpos := F.pos
  have hne : inputs ≠ [] := by
    rintro rfl
    have hcovered := F.covered
    have hnone : paid (payers [] (asked transfers)) = 0 := rfl
    omega
  let tag := (transfers.getLast?.map (·.tag)).getD []
  let change := Int64.ofInt (paid (payers inputs (asked transfers)) - asked transfers)
  let draft := transfers.flatMap (fun t => transactionEntries E (1 + t.msgLen / 2187) t.address
      t.value t.tag (if timestamp = 0 then now else timestamp)) ++
    spendEntries E security tag now (payers inputs (asked transfers)) ++
    dest.toList.flatMap fun address => transactionEntries E 1 address change tag now
  have hslots : draft.map slot = draftSlots security transfers inputs dest := by
    rw [List.map_append, List.map_append, map_slot_transfers,
      map_slot_spendEntries F.toInt_change.2.2.1, List.append_assoc]
    cases dest <;> rfl
  obtain ⟨fin, hfinal⟩ := hfin draft hslots
  obtain ⟨n, result, hsteps, -⟩ := F.signed beyond hw hslots hfinal
  refine ⟨n, fun steps hle => ⟨result, ?_⟩⟩
  have hsources : ∀ threshold (b : BundleTransactions),
      sourceInputs K E N seed ⟨scan, finalize, steps⟩ security inputs false threshold b =
        .ok inputs b := fun threshold b => congrFun (if_pos hne) b
  rw [prepareTransfers, update_bind, List.nil_append]
  generalize transfers.foldl (fun (total : Int64) t => total + t.value) 0 = totalValue at htotal ⊢
  have hzero : totalValue ≠ 0 := by
    rintro rfl
    rw [Int64.toInt_zero] at htotal
    omega
  rw [if_pos hzero, bind_apply_ok (hsources _ _), addRemainder, if_neg hne,
    addRemainderLoop_eq (fun input hin => (F.spendable input hin).amount) (by rwa [htotal]), htotal,
    if_pos F.covered, settle]
  have hsign : signBundle K E beyond seed ⟨scan, finalize, steps⟩ inputs draft = .ok () result :=
    signBundle_eq_ok.mpr (hsteps steps hle)
  have hchange := F.change
  cases dest with
  | none =>
    rw [if_neg fun h => absurd (hchange.mpr h) (by decide)]
    simp only [draft, Option.toList_none, List.flatMap_nil, List.append_nil] at hsign
    rw [bind_apply_ok hsign]
    rfl
  | some address =>
    obtain rfl := hdest address rfl
    rw [if_pos (hchange.mp rfl)]
    simp only [draft, Option.toList_some, List.flatMap_cons, List.flatMap_nil,
      List.append_nil] at hsign
    have hremainder : ∀ b : BundleTransactions, remainderAddress K E N seed
        ⟨scan, finalize, steps⟩ security (some address) b = .ok address b := fun _ => rfl
    rw [bind_apply_ok (hremainder _), addTransactionEntry, update_bind, bind_apply_ok hsign]
    rfl

/-- A transfer of one token with a message of three fragments. -/
def sampleTransfer : Transfer := ⟨1, 5000, nineAddress, []⟩

/-- An input of three tokens. -/
def sampleInput : ClientInput := ⟨nineInput, 3⟩

theorem funded_sample :
    Funded nullKerl .three [] 1 [sampleTransfer] [sampleInput] (some strayAddress) where
  nonneg t ht := by
    rw [List.mem_singleton.mp ht]
    decide
  supply := by decide
  pos := by decide
  spendable input hin := by
    rw [List.mem_singleton.mp hin]
    exact ⟨rfl, addressGen_nullKerl .three [] 0 (by decide), by decide⟩
  covered := by decide
  change := by decide

end Prepared

end Client

end Entangled
