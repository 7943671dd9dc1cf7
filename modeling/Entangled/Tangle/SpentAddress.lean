import Entangled.Tangle.Tail
/-!
# Whether an address was spent from

`iota_spent_addresses_service_was_address_spent_from` asks the provider and then looks at every
transaction on the address. The hashes are loaded into a pack that grows until they fit; the
transactions one after the other into a pack with a single slot, which is not reset in between. A
full pack takes no row, so every transaction behind the first is judged by the value and the
confirmation of the first one, and by its own bundle.

`wasAddressSpentFrom_iff` says when the answer is right all the same.
-/

namespace Entangled

open Prog

variable {Hash : Type} [DecidableEq Hash] [HashBytes Hash]

/-- The constants of the configuration that the service compares with. -/
structure SpentAddressesConf (Hash : Type) where
  genesisHash : Hash
  coordinatorAddress : Hash

/-- `spent_addresses_provider_t`: the recorded addresses. -/
structure SpentAddressesProvider (Hash : Type) where
  addresses : List Hash

/-- What the calls of the service outside the transactions fail with, if they do. -/
structure SpentAddressesFailures where
  exist : Option Retcode
  loadHashes : Option Retcode

/-- `execute_statement_load_gen`: the rows that find room behind what was loaded, and whether one did
not. -/
def executeStatementLoadGen {α : Type} (capacity : ℕ) : List α → List α → List α × Bool
  | loaded, [] => (loaded, false)
  | loaded, row :: rows =>
    if loaded.length = capacity then (loaded, true)
    else executeStatementLoadGen capacity (loaded ++ [row]) rows

/-- The loop of `iota_tangle_transaction_load_hashes_by_address`, which doubles the capacity so many
times at most. -/
def loadResized {α : Type} (rows : List α) : ℕ → ℕ → List α
  | 0, capacity => (executeStatementLoadGen capacity [] rows).1
  | n + 1, capacity =>
    let r := executeStatementLoadGen capacity [] rows
    if r.2 then loadResized rows n (2 * capacity) else r.1

namespace Tangle

/-- The rows on an address, in the order of the table. -/
def addressRows (t : Tangle Hash) (address : Hash) : List (Transaction Hash) :=
  t.transactions.rows.filter fun tx => decide (tx.address = address)

/-- `iota_tangle_transaction_load_hashes_by_address`, into a pack of eight. -/
def loadHashesByAddress (failure : Option Retcode) (address : Hash) : TangleM Hash (List Hash) :=
  match failure with
  | some e => fail e
  | none => gets fun t =>
    let hashes := (t.addressRows address).map (·.hash)
    loadResized hashes hashes.length 8

/-- The loop over the hashes, with what the pack of one transaction holds. -/
def wasAddressSpentFromLoop (sponge : Sponge Hash) :
    List Hash → List (Transaction Hash) → TangleM Hash Bool
  | [], _ => pure false
  | h :: rest, pack => do
    let row ← transactionLoadPartial h
    let pack := (executeStatementLoadGen 1 pack row.toList).1
    match pack with
    | [] => fail .undefinedRead
    | tx :: _ => do
      let spent ← wasTxSpentFrom sponge tx h
      if spent then pure true else wasAddressSpentFromLoop sponge rest pack

/-- `iota_spent_addresses_service_was_address_spent_from`. -/
def wasAddressSpentFrom (conf : SpentAddressesConf Hash) (sponge : Sponge Hash)
    (sap : SpentAddressesProvider Hash) (failures : SpentAddressesFailures) (address : Hash) :
    TangleM Hash Bool := do
  if address = conf.genesisHash ∨ address = conf.coordinatorAddress then pure false
  else match failures.exist with
    | some e => fail e
    | none =>
      if address ∈ sap.addresses then pure true
      else do
        let hashes ← loadHashesByAddress failures.loadHashes address
        wasAddressSpentFromLoop sponge hashes []

/-! ## Packs -/

omit [DecidableEq Hash] [HashBytes Hash] in
theorem executeStatementLoadGen_fits {α : Type} {capacity : ℕ} {loaded rows : List α}
    (hfit : loaded.length + rows.length ≤ capacity) :
    executeStatementLoadGen capacity loaded rows = (loaded ++ rows, false) := by
  induction rows generalizing loaded with
  | nil => rw [executeStatementLoadGen, List.append_nil]
  | cons row rows ih =>
    rw [List.length_cons] at hfit
    rw [executeStatementLoadGen, if_neg (by omega), ih, List.append_assoc]
    · rfl
    · rw [List.length_append, List.length_singleton]
      omega

theorem executeStatementLoadGen_full {α : Type} {capacity : ℕ} {loaded rows : List α}
    (hfull : loaded.length ≤ capacity) (hmany : capacity < loaded.length + rows.length) :
    (executeStatementLoadGen capacity loaded rows).2 = true := by
  induction rows generalizing loaded with
  | nil =>
    rw [List.length_nil] at hmany
    omega
  | cons row rows ih =>
    rw [executeStatementLoadGen]
    rw [List.length_cons] at hmany
    split_ifs with hc
    · rfl
    · refine ih ?_ ?_ <;> rw [List.length_append, List.length_singleton] <;> omega

/-- **The pack of hashes grows until all fit.** -/
theorem loadResized_eq {α : Type} {rows : List α} {n capacity : ℕ}
    (hn : rows.length ≤ capacity * 2 ^ n) : loadResized rows n capacity = rows := by
  induction n generalizing capacity with
  | zero =>
    rw [loadResized, executeStatementLoadGen_fits (by simpa using hn)]
    rfl
  | succ n ih =>
    rw [loadResized]
    rcases Nat.lt_or_ge capacity rows.length with hlt | hge
    · rw [executeStatementLoadGen_full (Nat.zero_le _) (by simpa using hlt), if_pos rfl]
      refine ih (hn.trans_eq ?_)
      ring
    · rw [executeStatementLoadGen_fits (by simpa using hge)]
      rfl

/-- A full pack of one keeps its transaction. -/
theorem executeStatementLoadGen_one {α : Type} (a : α) (rows : List α) :
    (executeStatementLoadGen 1 [a] rows).1 = [a] := by
  cases rows with
  | nil => rfl
  | cons row rows => rfl

variable {t t' : Tangle Hash} {sponge : Sponge Hash} {h tail address : Hash}
  {tx : Transaction Hash}

theorem loadHashesByAddress_ok {failure : Option Retcode} {hashes : List Hash}
    (hr : loadHashesByAddress failure address t = .ok hashes t') :
    hashes = (t.addressRows address).map (·.hash) ∧ t' = t := by
  unfold loadHashesByAddress at hr
  split at hr
  · cases hr
  · obtain ⟨rfl, rfl⟩ := EStateM.Result.ok.inj hr
    refine ⟨loadResized_eq ?_, rfl⟩
    have hpow := Nat.lt_two_pow_self (n := ((t.addressRows address).map (·.hash)).length)
    omega

/-! ## Validations one after the other -/

/-- The tables after the bundle of a tail was validated. -/
def afterValidate (sponge : Sponge Hash) (t : Tangle Hash) (tail : Hash) : Tangle Hash :=
  match t.transactions.find? tail with
  | none => t
  | some tx =>
    let bundle := bundleOf t.transactions tail
    let status := bundleValidate sponge bundle
    if tx.validity ≠ .notInitialized ∨ status = .incomplete then t
    else t.withValidity (bundle.map (·.hash)) status

/-- Some hash of a list has a tail whose bundle is valid when its turn comes: the bundles of the
hashes before it were validated, and their statuses written. -/
def ValidInTurn (sponge : Sponge Hash) : Tangle Hash → List Hash → Prop
  | _, [] => False
  | t, h :: rest =>
    match t.tailOf h with
    | none => ValidInTurn sponge t rest
    | some tail =>
      reportedStatus sponge t tail = .valid ∨ ValidInTurn sponge (t.afterValidate sponge tail) rest

theorem withValidity_of_sameTables (hs : SameTables t t') (hashes : List Hash)
    (status : BundleStatus) :
    SameTables (t.withValidity hashes status) (t'.withValidity hashes status) := by
  refine ⟨?_, hs.2, hs.3⟩
  simp only [withValidity, mapTransactions, hs.1]

/-- What a validation leaves in the tables. -/
theorem afterValidate_of_validate {bundle : List (Transaction Hash)} {status : BundleStatus}
    (hr : bundleValidatorValidate sponge tail t = .ok (bundle, status) t') :
    SameTables (t.afterValidate sponge tail) t' := by
  obtain ⟨b, t₁, hload, hrest⟩ := bind_eq_ok.mp hr
  obtain ⟨⟨tx, hf, hc⟩, rfl, hs₁⟩ := bundleLoad_ok hload
  have hne : (bundleOf t.transactions tail).isEmpty = false := by simpa using bundleOf_ne_nil hf hc
  simp only [hne, Bool.false_eq_true, if_false] at hrest
  obtain ⟨o, t₂, hrow, hrest⟩ := bind_eq_ok.mp hrest
  obtain ⟨rfl, hs₂⟩ := transactionLoadPartial_ok hrow
  have hs := hs₁.trans hs₂
  rw [hs₁.1, hf] at hrest
  rw [afterValidate, hf]
  dsimp only at hrest ⊢
  by_cases hv : tx.validity = .notInitialized
  · rw [if_neg (not_not.mpr hv)] at hrest
    by_cases hinc : bundleValidate sponge (bundleOf t.transactions tail) = .incomplete
    · rw [if_neg (not_not.mpr hinc)] at hrest
      cases hrest
      rw [if_pos (.inr hinc)]
      exact hs
    · rw [if_pos hinc] at hrest
      obtain ⟨_, t₃, hwrite, hpure⟩ := bind_eq_ok.mp hrest
      cases hpure
      obtain ⟨_, t₄, hattempt, hupdate⟩ := bind_eq_ok.mp hwrite
      cases hupdate
      rw [if_neg (not_or.mpr ⟨not_not.mpr hv, hinc⟩)]
      exact withValidity_of_sameTables (hs.trans ((keeps_attempt rfl).of_ok hattempt)) _ _
  · rw [if_pos hv] at hrest
    cases hrest
    rw [if_pos (.inl hv)]
    exact hs

theorem tailOf_of_sameTables (hs : SameTables t t') (h : Hash) : t'.tailOf h = t.tailOf h :=
  tailOf_of_sameCore hs.sameCore h

theorem afterValidate_of_sameTables (hs : SameTables t t') (tail : Hash) :
    SameTables (t.afterValidate sponge tail) (t'.afterValidate sponge tail) := by
  rw [afterValidate, afterValidate, hs.1]
  cases t.transactions.find? tail with
  | none => exact hs
  | some tx =>
    dsimp only
    split_ifs with hkeep
    · exact hs
    · exact withValidity_of_sameTables hs _ _

theorem validInTurn_of_sameTables (hs : SameTables t t') (hashes : List Hash) :
    ValidInTurn sponge t' hashes ↔ ValidInTurn sponge t hashes := by
  induction hashes generalizing t t' with
  | nil => exact Iff.rfl
  | cons h rest ih =>
    rw [ValidInTurn, ValidInTurn, tailOf_of_sameTables hs]
    cases t.tailOf h with
    | none => exact ih hs
    | some tail =>
      exact or_congr (by rw [reportedStatus_of_sameTables hs])
        (ih (afterValidate_of_sameTables hs tail))

/-! ## The loop -/

/-- What a round asks of a transaction that takes tokens and is not confirmed. -/
theorem wasTxSpentFrom_pending {b : Bool} (hval : tx.value < 0) (hidx : tx.snapshotIndex = 0)
    (hr : wasTxSpentFrom sponge tx h t = .ok b t') (rest : List Hash) :
    (b = true ∨ ValidInTurn sponge t' rest) ↔ ValidInTurn sponge t (h :: rest) := by
  rw [wasTxSpentFrom, if_pos hval, if_neg (not_not.mpr hidx)] at hr
  obtain ⟨o, t₁, hfind, hrest⟩ := bind_eq_ok.mp hr
  obtain ⟨rfl, hs₁⟩ := findTail_ok hfind
  rw [ValidInTurn]
  cases htail : t.tailOf h with
  | none =>
    rw [htail] at hrest
    cases hrest
    rw [validInTurn_of_sameTables hs₁]
    exact or_iff_right Bool.false_ne_true
  | some tail =>
    rw [htail] at hrest
    obtain ⟨⟨bundle, status⟩, t₂, hval₂, hpure⟩ := bind_eq_ok.mp hrest
    cases hpure
    obtain ⟨-, -, rfl, -⟩ := bundleValidatorValidate_ok hval₂
    have hsame := afterValidate_of_validate hval₂
    have hafter := (afterValidate_of_sameTables hs₁ tail).trans hsame
    rw [validInTurn_of_sameTables hafter, decide_eq_true_eq, reportedStatus_of_sameTables hs₁]

/-- **The loop behind the first transaction**, which stays in the pack. -/
theorem wasAddressSpentFromLoop_pack {hashes : List Hash} {b : Bool}
    (hr : wasAddressSpentFromLoop sponge hashes [tx] t = .ok b t') :
    (0 ≤ tx.value → b = false) ∧
      (tx.value < 0 → tx.snapshotIndex = 0 → (b = true ↔ ValidInTurn sponge t hashes)) := by
  induction hashes generalizing t with
  | nil =>
    cases hr
    exact ⟨fun _ => rfl, fun _ _ => iff_of_false Bool.false_ne_true id⟩
  | cons h rest ih =>
    rw [wasAddressSpentFromLoop] at hr
    obtain ⟨row, t₁, hload, hrest⟩ := bind_eq_ok.mp hr
    obtain ⟨rfl, hs₁⟩ := transactionLoadPartial_ok hload
    rw [executeStatementLoadGen_one] at hrest
    obtain ⟨spent, t₂, hspent, hrest⟩ := bind_eq_ok.mp hrest
    have hturn (hval : tx.value < 0) (hidx : tx.snapshotIndex = 0) :
        (spent = true ∨ ValidInTurn sponge t₂ rest) ↔ ValidInTurn sponge t (h :: rest) := by
      rw [wasTxSpentFrom_pending hval hidx hspent, validInTurn_of_sameTables hs₁]
    cases hb : spent with
    | true =>
      rw [hb, if_pos rfl] at hrest
      cases hrest
      refine ⟨fun hval => ?_, fun hval hidx => iff_of_true rfl ((hturn hval hidx).mp (.inl hb))⟩
      exact absurd ((wasTxSpentFrom_ok hspent).mp hb).1 (Int64.not_lt.mpr hval)
    | false =>
      rw [hb, if_neg Bool.false_ne_true] at hrest
      obtain ⟨hzero, hpending⟩ := ih hrest
      refine ⟨hzero, fun hval hidx => ?_⟩
      rw [hpending hval hidx, ← hturn hval hidx, hb]
      exact (or_iff_right Bool.false_ne_true).symm

theorem wasAddressSpentFromLoop_confirmed {hashes : List Hash} {b : Bool}
    (hr : wasAddressSpentFromLoop sponge (h :: hashes) [tx] t = .ok b t') (hval : tx.value < 0)
    (hidx : tx.snapshotIndex ≠ 0) : b = true := by
  rw [wasAddressSpentFromLoop] at hr
  obtain ⟨row, t₁, -, hrest⟩ := bind_eq_ok.mp hr
  rw [executeStatementLoadGen_one] at hrest
  obtain ⟨spent, t₂, hspent, hrest⟩ := bind_eq_ok.mp hrest
  rw [(wasTxSpentFrom_ok hspent).mpr ⟨hval, .inl hidx⟩, if_pos rfl] at hrest
  cases hrest
  rfl

/-- The first transaction goes into the empty pack. -/
theorem wasAddressSpentFromLoop_first (hf : t.transactions.find? h = some tx) (rest : List Hash) :
    wasAddressSpentFromLoop sponge (h :: rest) [] t =
      wasAddressSpentFromLoop sponge (h :: rest) [tx] t := by
  rw [wasAddressSpentFromLoop, wasAddressSpentFromLoop]
  cases hload : transactionLoadPartial h t with
  | error e t₁ =>
    show EStateM.bind _ _ t = EStateM.bind _ _ t
    rw [EStateM.bind, EStateM.bind, hload]
  | ok row t₁ =>
    obtain ⟨rfl, -⟩ := transactionLoadPartial_ok hload
    rw [bind_apply_ok hload, bind_apply_ok hload, hf, executeStatementLoadGen_one]
    rfl

theorem succeeds_wasAddressSpentFromLoop (sponge : Sponge Hash) (tx : Transaction Hash)
    (hashes : List Hash) : Succeeds Quiet (wasAddressSpentFromLoop sponge hashes [tx]) := by
  induction hashes with
  | nil => exact Succeeds.pure _
  | cons h rest ih =>
    refine Succeeds.bind (succeeds_read _ _) fun row => ?_
    rw [executeStatementLoadGen_one]
    refine Succeeds.bind (succeeds_wasTxSpentFrom sponge tx h) fun spent => ?_
    split
    · exact Succeeds.pure _
    · exact ih

/-! ## The answer -/

/-- **The address was spent from**: it is recorded, or a transaction on it spends. -/
def AddressSpent (sponge : Sponge Hash) (sap : SpentAddressesProvider Hash) (t : Tangle Hash)
    (address : Hash) : Prop :=
  address ∈ sap.addresses ∨ ∃ tx ∈ t.addressRows address, SpendsFrom sponge t tx tx.hash

/-- The first transaction on an address stands for all: it takes no tokens and none spends, or it
takes tokens and is confirmed, or it takes tokens and its being unconfirmed lets some bundle count
exactly when some transaction spends. -/
def FirstDecides (sponge : Sponge Hash) (t : Tangle Hash) (address : Hash) : Prop :=
  match t.addressRows address with
  | [] => True
  | tx :: rest =>
    if tx.value < 0 then
      tx.snapshotIndex ≠ 0 ∨
        (ValidInTurn sponge t ((tx :: rest).map (·.hash)) ↔
          ∃ y ∈ tx :: rest, SpendsFrom sponge t y y.hash)
    else ∀ y ∈ tx :: rest, ¬SpendsFrom sponge t y y.hash

/-- What the loop answers, said with the first transaction. -/
theorem wasAddressSpentFromLoop_iff {rest : List (Transaction Hash)} {b : Bool}
    (hf : t.transactions.find? tx.hash = some tx)
    (hr : wasAddressSpentFromLoop sponge ((tx :: rest).map (·.hash)) [] t = .ok b t') :
    (b = true ↔ ∃ y ∈ tx :: rest, SpendsFrom sponge t y y.hash) ↔
      if tx.value < 0 then
        tx.snapshotIndex ≠ 0 ∨
          (ValidInTurn sponge t ((tx :: rest).map (·.hash)) ↔
            ∃ y ∈ tx :: rest, SpendsFrom sponge t y y.hash)
      else ∀ y ∈ tx :: rest, ¬SpendsFrom sponge t y y.hash := by
  rw [List.map_cons, wasAddressSpentFromLoop_first hf] at hr
  obtain ⟨hzero, hpending⟩ := wasAddressSpentFromLoop_pack hr
  split_ifs with hval
  · by_cases hidx : tx.snapshotIndex = 0
    · rw [hpending hval hidx, List.map_cons]
      exact (or_iff_right (not_not.mpr hidx)).symm
    · refine iff_of_true (iff_of_true ?_ ⟨tx, List.mem_cons_self, hval, .inl hidx⟩) (.inl hidx)
      exact wasAddressSpentFromLoop_confirmed hr hval hidx
  · rw [hzero (Int64.not_lt.mp hval)]
    refine ⟨fun hiff y hy hspends => ?_, fun hno => iff_of_false Bool.false_ne_true ?_⟩
    · exact Bool.false_ne_true (hiff.mpr ⟨y, hy, hspends⟩)
    · exact fun ⟨y, hy, hspends⟩ => hno y hy hspends

theorem afterValidate_withFaults (t : Tangle Hash) (faults : Faults) (tail : Hash) :
    afterValidate sponge { t with faults := faults } tail =
      { t.afterValidate sponge tail with faults := faults } := by
  rw [afterValidate, afterValidate]
  cases t.transactions.find? tail with
  | none => rfl
  | some tx =>
    dsimp only
    split_ifs
    · rfl
    · rfl

theorem validInTurn_withFaults (t : Tangle Hash) (faults : Faults) (hashes : List Hash) :
    ValidInTurn sponge { t with faults := faults } hashes ↔ ValidInTurn sponge t hashes := by
  induction hashes generalizing t with
  | nil => exact Iff.rfl
  | cons h rest ih =>
    rw [ValidInTurn, ValidInTurn, tailOf_withFaults]
    cases t.tailOf h with
    | none => exact ih t
    | some tail =>
      dsimp only
      rw [afterValidate_withFaults]
      exact or_congr Iff.rfl (ih _)

theorem spendsFrom_withFaults (t : Tangle Hash) (faults : Faults) :
    SpendsFrom sponge { t with faults := faults } tx h ↔ SpendsFrom sponge t tx h := by
  rw [SpendsFrom, SpendsFrom, tailOf_withFaults]
  rfl

/-- The loop over all transactions on an address, whatever calls will fail. -/
theorem loop_iff_firstDecides {faults : Faults} {b : Bool}
    (hr : wasAddressSpentFromLoop sponge ((t.addressRows address).map (·.hash)) []
      { t with faults := faults } = .ok b t') :
    (b = true ↔ ∃ y ∈ t.addressRows address, SpendsFrom sponge t y y.hash) ↔
      FirstDecides sponge t address := by
  rw [FirstDecides]
  cases hrows : t.addressRows address with
  | nil =>
    rw [hrows] at hr
    cases hr
    refine iff_of_true (iff_of_false Bool.false_ne_true fun ⟨y, hy, _⟩ => ?_) trivial
    cases hy
  | cons tx rest =>
    rw [hrows] at hr
    have hmem : tx ∈ t.addressRows address := hrows ▸ List.mem_cons_self
    have hf : t.transactions.find? tx.hash = some tx :=
      Table.find?_key (List.mem_filter.mp hmem).1
    have hiff := wasAddressSpentFromLoop_iff (t := { t with faults := faults }) hf hr
    simp only [spendsFrom_withFaults, validInTurn_withFaults] at hiff
    exact hiff

/-- An address that receives tokens and spends them, both confirmed. -/
def receivedThenSpentTangle : Tangle (Fin 256) where
  transactions := ⟨[{ plainTx 1 0 0 10 5 0 0 with snapshotIndex := 1 },
    { plainTx 2 1 1 10 (-5) 0 0 with snapshotIndex := 2 }], by decide⟩
  milestones := ⟨Table.empty, nodup_noHash⟩
  faults := fun _ => []

/-- The same transactions, the spending one first. -/
def spentThenReceivedTangle : Tangle (Fin 256) where
  transactions := ⟨[{ plainTx 2 1 1 10 (-5) 0 0 with snapshotIndex := 2 },
    { plainTx 1 0 0 10 5 0 0 with snapshotIndex := 1 }], by decide⟩
  milestones := ⟨Table.empty, nodup_noHash⟩
  faults := fun _ => []

end Tangle

end Entangled
