import Entangled.Tangle.Validity
import Entangled.Transaction.Codec
/-!
# Transaction validation

`iota_consensus_transaction_validate`, on what `transaction_deserialize` made of 8019
trits. The value is 81 of them, which reach far beyond an `int64_t`, and
`trits_to_long` wraps. The validator compares the absolute value of the word with the
supply; it never looks at the trits, and the least word has no absolute value. So what
is accepted is the exact value of the trits when that lies strictly inside the words,
and only then.
-/

namespace Entangled

namespace Codec

open Ternary Trinary

/-- `transaction_validator_t`, with what it reads of the snapshot and of the requester. -/
structure TransactionValidator where
  mwm : ℕ
  genesisHash : List FlexTrit
  snapshotTimestamp : UInt64
  solidEntryPoints : List (List FlexTrit)
  requestedHashes : List (List FlexTrit)

/-- `MAX_TIMESTAMP_FUTURE_MS`. -/
def maxTimestampFutureMs : UInt64 := 2 * 60 * 60 * 1000

/-- The first loop of `transaction_weight_magnitude`, from byte `pos` down: where it stops and
what it counted. At the first byte the counter wraps. -/
def weightLoop (E : Encoding) (hash : List FlexTrit) : ℕ → ℕ → ℕ × ℕ
  | 0, n => (255, n)
  | pos + 1, n =>
    if hash.getD pos 0 = E.nullValue then weightLoop E hash pos (n + E.numTritsPerFlexTrit)
    else (pos, n)

/-- `transaction_weight_magnitude`. For a hash of nulls it reads behind the hash, where `stray`
stands. -/
def transactionWeightMagnitude (E : Encoding) (stray : FlexTrit) (tx : IotaTransaction) : ℕ :=
  let (pos, n) := weightLoop E tx.hash (E.numFlexTritsForTrits 243) 0
  if 0 < pos then
    let w := E.numTritsPerFlexTrit
    let trits := (flexTritsToTrits E (List.replicate w 0) w [tx.hash.getD pos stray] w w).1
    (n + (trits.reverse.takeWhile (· = 0)).length) % 256
  else n % 256

/-- `has_invalid_timestamp` at the time `now`. -/
def hasInvalidTimestamp (tv : TransactionValidator) (now : UInt64) (tx : IotaTransaction) : Bool :=
  let timestampMs :=
    if tx.attachmentTimestamp = 0 then tx.timestamp * 1000 else tx.attachmentTimestamp
  let isTooFuturistic := decide (now + maxTimestampFutureMs < timestampMs)
  let isBelowSnapshot :=
    decide (timestampMs < tv.snapshotTimestamp * 1000) && !tv.solidEntryPoints.contains tx.hash
  if tv.requestedHashes.contains tx.hash then false
  else if isTooFuturistic then true
  else if isBelowSnapshot then tx.hash != tv.genesisHash
  else false

/-- `iota_consensus_transaction_validate`. -/
def transactionValidate (E : Encoding) (tv : TransactionValidator) (now : UInt64)
    (stray : FlexTrit) (tx : IotaTransaction) : Bool :=
  if transactionWeightMagnitude E stray tx < tv.mwm then false
  else if hasInvalidTimestamp tv now tx then false
  else if Int64.ofInt iotaSupply < llabs tx.value then false
  else if tx.value ≠ 0 ∧ flexTritsAt E tx.address 243 (243 - 1) ≠ 0 then false
  else true

variable {E : Encoding} {tv : TransactionValidator} {now : UInt64} {stray : FlexTrit}
  {tx : IotaTransaction} {ts : List ℤ}

/-- The integer the value trits of a serialized transaction denote. -/
def exactValue (ts : List ℤ) : ℤ := value ((ts.drop 6804).take 81)

/-- What an accepted transaction has passed of the checks on its value. -/
theorem tolerated_of_transactionValidate (h : transactionValidate E tv now stray tx = true) :
    Tolerated tx.value := by
  unfold transactionValidate at h
  split_ifs at h with h₁ h₂ h₃ h₄
  exact (not_lt_llabs_iff tx.value).mp h₃

theorem value_read (ts : List ℤ) : (Fields.read ts).value = exactValue ts := by
  show value (((ts.drop 6561).drop 243).take 81) = _
  rw [List.drop_drop, exactValue]

/-- **What is accepted is exact**, for every encoding, when the value trits denote a number
strictly inside the words, and otherwise it is not: a transaction that the validator accepts
has the exact value of its trits, at most the supply, just in that case. The hash may be the
computed one or any other. -/
theorem transactionValidate_exact_iff {curl : Curl} {r : Reader} {computeHash : Bool}
    (hash : List FlexTrit) (hts : Trits ts) (hl : ts.length = 8019) (hr : r.Sized E)
    (htx : transactionDeserialize E curl r (pack E ts) computeHash = some tx)
    (h : transactionValidate E tv now stray { tx with hash } = true) :
    (exactValue ts = tx.value.toInt ∧ |exactValue ts| ≤ iotaSupply) ↔
      -2 ^ 63 < exactValue ts ∧ exactValue ts < 2 ^ 63 := by
  have hval : tx.value = Int64.ofInt (exactValue ts) := by
    rw [transactionDeserialize_pack hts hl hr] at htx
    rw [← Option.some_inj.mp htx, ← value_read]
    rfl
  have htol : Tolerated tx.value := by
    have hall := tolerated_of_transactionValidate h
    exact hall
  constructor
  · rintro ⟨-, hle⟩
    unfold iotaSupply at hle
    rw [abs_le] at hle
    omega
  · rintro ⟨hlow, hhigh⟩
    have hexact : tx.value.toInt = exactValue ts := by
      rw [hval]
      exact Word.toInt_ofInt ⟨hlow.le, hhigh⟩
    refine ⟨hexact.symm, ?_⟩
    rcases htol with hmin | hle
    · -- the least word is the image of the least integer only
      rw [hmin, toInt_minValue] at hexact
      omega
    · rwa [hexact] at hle

/-- A validator that asks for no work, on a network that starts now. -/
def laxValidator : TransactionValidator := ⟨0, [], 0, [], []⟩

/-- Trits that are null but for the value field, which denotes `v`. -/
def valueTrits (v : ℤ) : List ℤ := List.replicate 6804 0 ++ (digits 81 v ++ List.replicate 1134 0)

theorem trits_valueTrits (v : ℤ) : Trits (valueTrits v) :=
  trits_append.mpr ⟨trits_replicate _, trits_append.mpr ⟨trits_digits _ _, trits_replicate _⟩⟩

theorem length_valueTrits (v : ℤ) : (valueTrits v).length = 8019 := by
  rw [valueTrits, List.length_append, List.length_append, List.length_replicate,
    List.length_replicate, length_digits]

theorem exactValue_valueTrits {v : ℤ} (h : 2 * |v| < 3 ^ 81) : exactValue (valueTrits v) = v := by
  rw [exactValue, valueTrits, List.drop_left' List.length_replicate,
    List.take_left' (length_digits 81 v), value_digits h]

theorem drop_append_replicate {l : List ℤ} {b k : ℕ} (h : l.length ≤ k) :
    (l ++ List.replicate b 0).drop k = List.replicate (l.length + b - k) 0 := by
  rw [List.drop_append, List.drop_of_length_le h, List.nil_append, List.drop_replicate]
  congr 1
  omega

theorem drop_valueTrits (v : ℤ) {k : ℕ} (h : 6885 ≤ k) :
    ∃ n, (valueTrits v).drop k = List.replicate n 0 := by
  have hl : (List.replicate 6804 0 ++ digits 81 v).length = 6885 := by
    rw [List.length_append, List.length_replicate, length_digits]
  rw [valueTrits, ← List.append_assoc, drop_append_replicate (hl.le.trans h)]
  exact ⟨_, rfl⟩

theorem take_drop_replicate {l : List ℤ} {a k n : ℕ} (h : k + n ≤ a) :
    ((List.replicate a 0 ++ l).drop k).take n = List.replicate n 0 := by
  rw [List.drop_append_of_le_length (by rw [List.length_replicate]; omega), List.drop_replicate,
    List.take_append_of_le_length (by rw [List.length_replicate]; omega), List.take_replicate,
    Nat.min_eq_left (by omega)]

/-- The transaction of null trits with such a value is accepted under any hash. -/
theorem transactionValidate_read_valueTrits (v : ℤ) (hash : List FlexTrit) (now : UInt64)
    (stray : FlexTrit) (hv : Tolerated (Int64.ofInt (exactValue (valueTrits v)))) :
    transactionValidate E laxValidator now stray
      ((Fields.read (valueTrits v)).transaction E hash) = true := by
  have htime : ∀ k, 6885 ≤ k → value (((valueTrits v).drop k).take 27) = 0 := by
    intro k hk
    obtain ⟨n, hn⟩ := drop_valueTrits v hk
    rw [hn, List.take_replicate, value_replicate_zero]
  have hstamp : (Fields.read (valueTrits v)).timestamp = 0 := by
    simp only [Fields.read, Fields.ofSegments, Fields.layout, Fields.cut, List.getD_cons_zero,
      List.getD_cons_succ, List.drop_drop, Nat.reduceAdd]
    exact htime _ (by decide)
  have hattach : (Fields.read (valueTrits v)).attachmentTimestamp = 0 := by
    simp only [Fields.read, Fields.ofSegments, Fields.layout, Fields.cut, List.getD_cons_zero,
      List.getD_cons_succ, List.drop_drop, Nat.reduceAdd]
    exact htime _ (by decide)
  have haddr : (Fields.read (valueTrits v)).address = List.replicate 243 0 := by
    simp only [Fields.read, Fields.ofSegments, Fields.layout, Fields.cut, List.getD_cons_zero,
      List.getD_cons_succ, valueTrits]
    exact take_drop_replicate (by omega)
  have hlast : flexTritsAt E (pack E (List.replicate 243 0)) 243 (243 - 1) = 0 := by
    rw [flexTritsAt_pack (trits_replicate 243) (List.prefix_refl _)
      (by rw [List.length_replicate]; decide) (by decide)]
    decide
  have hweight : ∀ tx : IotaTransaction,
      ¬ transactionWeightMagnitude E stray tx < laxValidator.mwm := fun _ => Nat.not_lt_zero _
  unfold transactionValidate
  rw [if_neg (hweight _), if_neg, if_neg, if_neg]
  · rintro ⟨-, hne⟩
    apply hne
    show flexTritsAt E (pack E (Fields.read (valueTrits v)).address) 243 (243 - 1) = 0
    rw [haddr, hlast]
  · rw [← value_read] at hv
    exact (not_lt_llabs_iff _).mpr hv
  · -- the time stamp is zero, which is neither late nor early
    have hzero : Int64.toUInt64 0 = 0 := by decide
    simp [hasInvalidTimestamp, Fields.transaction, hstamp, hattach, laxValidator, hzero]

/-- **Every alias of a tolerated word is accepted** by the lax validator: of the value trits
nothing but the word is looked at. -/
theorem transactionValidate_valueTrits (v : ℤ) (curl : Curl) (computeHash : Bool) (now : UInt64)
    (stray : FlexTrit) {r : Reader} (hr : r.Sized E)
    (hv : Tolerated (Int64.ofInt (exactValue (valueTrits v)))) :
    ∃ tx, transactionDeserialize E curl r (pack E (valueTrits v)) computeHash = some tx ∧
      tx.value = Int64.ofInt (exactValue (valueTrits v)) ∧
      transactionValidate E laxValidator now stray tx = true :=
  ⟨_, transactionDeserialize_pack (trits_valueTrits v) (length_valueTrits v) hr computeHash,
    by rw [← value_read]; rfl, transactionValidate_read_valueTrits v _ now stray hv⟩

/-- **A value beyond the words is accepted.** Trits that denote `2 ^ 64 + 1000` are taken for a
value of `1000`. -/
theorem transactionValidate_accepts_alias :
    ∃ tx, transactionDeserialize .five nullCurl ⟨0, List.replicate 17 0, List.replicate 81 0⟩
        (pack .five (valueTrits (2 ^ 64 + 1000))) true = some tx ∧
      transactionValidate .five laxValidator 0 0 tx = true ∧
      exactValue (valueTrits (2 ^ 64 + 1000)) = 2 ^ 64 + 1000 ∧ tx.value = 1000 ∧
      ¬ (exactValue (valueTrits (2 ^ 64 + 1000)) = tx.value.toInt ∧
        |exactValue (valueTrits (2 ^ 64 + 1000))| ≤ iotaSupply) := by
  have hexact : exactValue (valueTrits (2 ^ 64 + 1000)) = 2 ^ 64 + 1000 :=
    exactValue_valueTrits (by decide)
  have hword : Int64.ofInt (2 ^ 64 + 1000) = 1000 := by decide
  obtain ⟨tx, htx, hval, hacc⟩ := transactionValidate_valueTrits (E := .five) (2 ^ 64 + 1000)
    nullCurl true 0 0 (r := ⟨0, List.replicate 17 0, List.replicate 81 0⟩)
    ⟨List.length_replicate, List.length_replicate⟩ (by rw [hexact, hword]; exact .inr (by decide))
  rw [hexact, hword] at hval
  refine ⟨tx, htx, hacc, hexact, hval, ?_⟩
  rw [hexact, hval]
  decide

/-- The value of trits that denote `-1000` is exact. -/
theorem transactionValidate_exact_small :
    ∃ tx, transactionDeserialize .five nullCurl ⟨0, List.replicate 17 0, List.replicate 81 0⟩
        (pack .five (valueTrits (-1000))) true = some tx ∧
      transactionValidate .five laxValidator 0 0 tx = true ∧
      ((exactValue (valueTrits (-1000)) = tx.value.toInt ∧
        |exactValue (valueTrits (-1000))| ≤ iotaSupply) ↔
          -2 ^ 63 < exactValue (valueTrits (-1000)) ∧ exactValue (valueTrits (-1000)) < 2 ^ 63) := by
  have hexact : exactValue (valueTrits (-1000)) = -1000 := exactValue_valueTrits (by decide)
  obtain ⟨tx, htx, -, hacc⟩ := transactionValidate_valueTrits (E := .five) (-1000)
    nullCurl true 0 0 (r := ⟨0, List.replicate 17 0, List.replicate 81 0⟩)
    ⟨List.length_replicate, List.length_replicate⟩ (by rw [hexact]; exact .inr (by decide))
  exact ⟨tx, htx, hacc, transactionValidate_exact_iff tx.hash (trits_valueTrits _)
    (length_valueTrits _) ⟨List.length_replicate, List.length_replicate⟩ htx hacc⟩

end Codec

end Entangled
