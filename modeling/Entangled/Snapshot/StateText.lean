import Entangled.Common.Word
import Entangled.Snapshot.StateDelta
import Entangled.Snapshot.Text
/-!
# State deltas as text

`state_delta_serialize_str` writes a line for every entry, and
`state_delta_deserialize_str` adds an entry for every line and accepts the text
when the balances come to the supply. What the reader does is told by the
entries at the head of the text and by what comes behind them
(`deserializeLoop_eq`).

The size announced for a delta is sixteen digits a line. A balance of sixteen
digits fills its line up, and the NUL at the end has no room of its own
(`roundTrip_iff`).
-/

namespace Entangled

namespace StateDelta

open Prog Snapshot Ternary Trinary Tokens Decimal

variable {E : Encoding} {d : StateDelta (List FlexTrit)} {rs : List (Record Int8)}
variable {m m' : Heap (List FlexTrit)} {es : List (List FlexTrit × Int64)} {buffer str : List Int8}

/-! ## Writing -/

/-- `PRId64`. -/
def printInt64 (v : Int64) : List Int8 :=
  if v < 0 then 45 :: decimal v.toInt.natAbs else decimal v.toInt.natAbs

/-- `state_delta_serialized_str_size`. The hash table counts its entries in an `unsigned`. -/
def serializedStrSize (d : StateDelta (List FlexTrit)) : ℕ :=
  d.rows.length % 2 ^ 32 * (81 + 1 + 16 + 1)

/-- Entries as lines. -/
def linesOf (es : List (List FlexTrit × Int64)) : List (List FlexTrit × List Int8) :=
  es.map fun e => (e.1, printInt64 e.2)

/-- `state_delta_serialize_str`. The offset is an `uint32_t`. -/
def serializeStr (E : Encoding) (d : StateDelta (List FlexTrit)) (str : List Int8) :
    Option (Except TextRetcode Unit × List Int8) :=
  (putLines E (2 ^ 32) (linesOf d.rows) 0 str).bind fun (converted, offset, str) =>
    if converted then (put str offset [0]).map fun str => (.ok (), str)
    else some (.error .snapshotStateDeltaFailedDeserializing, str)

/-! ## Reading -/

/-- `sscanf` with `PRId64`: a number that an `int64_t` does not hold is undefined, and `some none`
is no number. -/
def scanInt64 (token : List Int8) : Option (Option Int64) :=
  match scan token with
  | none => some none
  | some s => if Word.Fits s.value then some (some (Int64.ofInt s.value)) else none

/-- `state_delta_destroy`. -/
def destroy (m : Heap (List FlexTrit)) : Heap (List FlexTrit) := { m with state := Table.empty }

/-- The loop of `state_delta_deserialize_str`, on the records that `strtok` cuts. -/
def deserializeLoop (E : Encoding) : List (Record Int8) → UInt64 → Heap (List FlexTrit) →
    Option (Except TextRetcode Unit × Heap (List FlexTrit))
  | [], supply, m =>
    if supply ≠ UInt64.ofInt iotaSupply then some (.error .snapshotInvalidSupply, destroy m)
    else some (.ok (), m)
  | r :: rs, supply, m =>
    (readTrytes E (keyMemory r)).bind fun (address, numTrytes) =>
      if numTrytes ≠ 81 then some (.error .snapshotInvalidFile, m)
      else
        match r.value with
        | none => some (.error .snapshotInvalidFile, m)
        | some token =>
          (scanInt64 token).bind fun
            | none => some (.error .snapshotInvalidFile, m)
            | some value =>
              if value < 0 then some (.error .snapshotInconsistentSnapshot, destroy m)
              else
                match add address value m with
                | .error e m => some (.error (.of e), m)
                | .ok _ m =>
                  -- the sum is an `uint64_t`
                  deserializeLoop E rs
                    (if 0 < value then supply + UInt64.ofInt value.toInt else supply) m

/-- `state_delta_deserialize_str`. -/
def deserializeStr (E : Encoding) (text : List Int8) (m : Heap (List FlexTrit)) :
    Option (Except TextRetcode Unit × Heap (List FlexTrit)) :=
  match records 59 10 text with
  | [] => some (.error .snapshotInvalidFile, m)
  | rs => deserializeLoop E rs 0 m

/-! ## What a record says -/

/-- What is wrong with a record that adds no entry. -/
inductive Flaw
  | undefined
  | malformed
  | negative
  deriving DecidableEq

/-- The entry of a record. -/
def entryOf (E : Encoding) (r : Record Int8) : Except Flaw (List FlexTrit × Int64) :=
  match readTrytes E (keyMemory r) with
  | none => .error .undefined
  | some (address, _) =>
    match r.value with
    | none => .error .malformed
    | some token =>
      match scanInt64 token with
      | none => .error .undefined
      | some none => .error .malformed
      | some (some value) => if value < 0 then .error .negative else .ok (address, value)

/-- The entries of the records up to the first one that adds none. -/
def leadingEntries (E : Encoding) : List (Record Int8) → List (List FlexTrit × Int64)
  | [] => []
  | r :: rs =>
    match entryOf E r with
    | .error _ => []
    | .ok e => e :: leadingEntries E rs

/-- What is wrong with the first record that adds none. -/
def flawOf (E : Encoding) : List (Record Int8) → Option Flaw
  | [] => none
  | r :: rs =>
    match entryOf E r with
    | .error f => some f
    | .ok _ => flawOf E rs

/-- The balances of entries, added up. -/
def balances (es : List (List FlexTrit × Int64)) : ℤ := (es.map fun e => e.2.toInt).sum

/-- How the loop ends behind the entries. -/
def finish (flaw : Option Flaw) (supply : UInt64) (m : Heap (List FlexTrit)) :
    Option (Except TextRetcode Unit × Heap (List FlexTrit)) :=
  match flaw with
  | some .undefined => none
  | some .malformed => some (.error .snapshotInvalidFile, m)
  | some .negative => some (.error .snapshotInconsistentSnapshot, destroy m)
  | none =>
    if supply ≠ UInt64.ofInt iotaSupply then some (.error .snapshotInvalidSupply, destroy m)
    else some (.ok (), m)

/-- One record, for what it says. -/
theorem deserializeLoop_cons {r : Record Int8} {supply : UInt64} :
    deserializeLoop E (r :: rs) supply m =
      match entryOf E r with
      | .error f => finish (some f) supply m
      | .ok e =>
        match add e.1 e.2 m with
        | .error c m => some (.error (.of c), m)
        | .ok _ m => deserializeLoop E rs (supply + UInt64.ofInt e.2.toInt) m := by
  rw [deserializeLoop, entryOf]
  rcases hread : readTrytes E (keyMemory r) with _ | ⟨address, n⟩
  · rfl
  obtain rfl := readTrytes_count hread
  rw [Option.bind_some]
  dsimp only
  rw [if_neg (not_not.mpr rfl)]
  rcases r.value with _ | token
  · rfl
  dsimp only
  rcases scanInt64 token with _ | _ | value
  · rfl
  · rfl
  rw [Option.bind_some]
  dsimp only
  by_cases hneg : value < 0
  · rw [if_pos hneg, if_pos hneg]
    rfl
  rw [if_neg hneg, if_neg hneg]
  dsimp only
  -- a balance of zero is not added, which is the same
  have hsum : (if 0 < value then supply + UInt64.ofInt value.toInt else supply) =
      supply + UInt64.ofInt value.toInt := by
    by_cases hpos : 0 < value
    · rw [if_pos hpos]
    · have hzero : value = 0 := by
        rw [Int64.lt_iff_toInt_lt] at hneg hpos
        apply Int64.toInt_inj.mp
        omega
      rw [if_neg hpos, hzero]
      exact (UInt64.add_zero supply).symm
  rw [hsum]

/-- **What the reader does**: it adds the entries at the head, as long as memory lasts, and ends
with what comes behind them. -/
theorem deserializeLoop_eq (rs : List (Record Int8)) (x : ℤ) (m : Heap (List FlexTrit)) :
    deserializeLoop E rs (UInt64.ofInt x) m =
      match forEach add (leadingEntries E rs) m with
      | .error c m => some (.error (.of c), m)
      | .ok _ m => finish (flawOf E rs) (UInt64.ofInt (x + balances (leadingEntries E rs))) m := by
  induction rs generalizing x m with
  | nil =>
    show deserializeLoop E [] _ m = finish none (UInt64.ofInt (x + 0)) m
    rw [Int.add_zero]
    rfl
  | cons r rs ih =>
    rw [deserializeLoop_cons, leadingEntries, flawOf]
    rcases entryOf E r with f | e
    · show finish (some f) _ m = finish (some f) _ m
      cases f <;> rfl
    · dsimp only
      rw [forEach]
      rcases hadd : add e.1 e.2 m with ⟨u, m₁⟩ | ⟨c, m₁⟩
      · rw [bind_apply_ok hadd]
        dsimp only
        rw [← UInt64.ofInt_add, ih, balances, balances, List.map_cons, List.sum_cons,
          Int.add_assoc]
      · rw [bind_apply_error hadd]

/-- A text with a record is read by the loop. -/
theorem deserializeStr_eq {text : List Int8} (h : records 59 10 text ≠ [])
    (m : Heap (List FlexTrit)) :
    deserializeStr E text m =
      match forEach add (leadingEntries E (records 59 10 text)) m with
      | .error c m => some (.error (.of c), m)
      | .ok _ m =>
        finish (flawOf E (records 59 10 text))
          (UInt64.ofInt (balances (leadingEntries E (records 59 10 text)))) m := by
  have hloop := deserializeLoop_eq (E := E) (records 59 10 text) 0 m
  rw [Int.zero_add] at hloop
  rw [← hloop, deserializeStr]
  split
  · next hnil => exact absurd hnil h
  · rfl

/-! ## The text of a ledger -/

/-- A ledger state: no balance is negative, and they come to the supply. -/
structure LedgerState (E : Encoding) where
  delta : StateDelta (List FlexTrit)
  hashes : ∀ e ∈ delta.rows, IsHash E e.1
  nonneg : ∀ e ∈ delta.rows, 0 ≤ e.2
  total : total delta = iotaSupply

/-- The characters of a line: a hash, the digits, and two separators. -/
def lineSize (e : List FlexTrit × Int64) : ℕ := (decimal e.2.toInt.toNat).length + 83

/-- **A ledger survives as text**: written to a buffer of the size announced, and read again into
an empty delta. -/
def RoundTrip (E : Encoding) (d : StateDelta (List FlexTrit)) : Prop :=
  ∀ buffer : List Int8, buffer.length = serializedStrSize d →
    ∃ str m, serializeStr E d buffer = some (.ok (), str) ∧
      deserializeStr E (stringOf str) ⟨Table.empty, []⟩ = some (.ok (), m) ∧
      ∀ a, m.state.find? a = d.find? a

theorem printInt64_of_nonneg {v : Int64} (h : 0 ≤ v) :
    0 ≤ v.toInt ∧ printInt64 v = decimal v.toInt.toNat := by
  have hv : 0 ≤ v.toInt := by
    rwa [Int64.le_iff_toInt_le] at h
  have hneg : ¬ v < 0 := by
    rw [Int64.lt_iff_toInt_lt]
    show ¬ v.toInt < 0
    omega
  refine ⟨hv, ?_⟩
  rw [printInt64, if_neg hneg, show v.toInt.natAbs = v.toInt.toNat by omega]

/-- A balance is scanned as it was printed. -/
theorem scanInt64_print {v : Int64} (h : 0 ≤ v) : scanInt64 (printInt64 v) = some (some v) := by
  obtain ⟨hv, hprint⟩ := printInt64_of_nonneg h
  have hscan := scan_decimal v.toInt.toNat [] (by simp)
  have hvalue : Scanned.value ⟨false, v.toInt.toNat, []⟩ = v.toInt := by
    show ((v.toInt.toNat : ℕ) : ℤ) = v.toInt
    omega
  rw [List.append_nil] at hscan
  rw [scanInt64, hprint, hscan]
  dsimp only
  rw [hvalue, if_pos (Word.fits_toInt v), Int64.ofInt_toInt]

/-- The entry of a line. -/
theorem entryOf_recordOf {e : List FlexTrit × Int64} {rest : List Int8} (hhash : IsHash E e.1)
    (hnonneg : 0 ≤ e.2) : entryOf E (recordOf E e.1 (printInt64 e.2) rest) = .ok e := by
  have hneg : ¬ e.2 < 0 := Int64.not_lt.mpr hnonneg
  rw [entryOf, readTrytes_recordOf hhash]
  simp only [recordOf, scanInt64_print hnonneg, if_neg hneg]

/-- **Lines are read as the entries they were written for.** -/
theorem records_linesOf (hes : ∀ e ∈ es, IsHash E e.1 ∧ 0 ≤ e.2) :
    leadingEntries E (records 59 10 (text E (linesOf es))) = es ∧
      flawOf E (records 59 10 (text E (linesOf es))) = none := by
  induction es with
  | nil => exact ⟨rfl, rfl⟩
  | cons e es ih =>
    obtain ⟨hhash, hnonneg⟩ := hes e List.mem_cons_self
    obtain ⟨hentries, hflaw⟩ := ih fun e' he' => hes e' (List.mem_cons_of_mem _ he')
    have hdigits : 10 ∉ printInt64 e.2 ∧ printInt64 e.2 ≠ [] := by
      rw [(printInt64_of_nonneg hnonneg).2]
      exact ⟨(decimal_not_mem _).1, decimal_ne_nil _⟩
    have htext : text E (linesOf (e :: es)) =
        line E e.1 (printInt64 e.2) ++ text E (linesOf es) := text_cons
    rw [htext, records_line hhash _ hdigits.1 hdigits.2, leadingEntries, flawOf,
      entryOf_recordOf hhash hnonneg]
    exact ⟨congrArg (e :: ·) hentries, hflaw⟩

theorem length_text_linesOf (hes : ∀ e ∈ es, IsHash E e.1 ∧ 0 ≤ e.2) :
    (text E (linesOf es)).length = (es.map lineSize).sum := by
  induction es with
  | nil => rfl
  | cons e es ih =>
    obtain ⟨hhash, hnonneg⟩ := hes e List.mem_cons_self
    have hline : (text E (linesOf (e :: es))).length =
        (printInt64 e.2).length + 83 + (text E (linesOf es)).length :=
      length_text_cons _ hhash
    rw [hline, ih fun e' he' => hes e' (List.mem_cons_of_mem _ he'),
      (printInt64_of_nonneg hnonneg).2, List.map_cons, List.sum_cons, lineSize]

theorem LedgerState.entries (L : LedgerState E) :
    ∀ e ∈ L.delta.rows, IsHash E e.1 ∧ 0 ≤ e.2 :=
  fun e he => ⟨L.hashes e he, L.nonneg e he⟩

/-- The text of a ledger is read back. -/
theorem LedgerState.read (L : LedgerState E) :
    ∃ m, deserializeStr E (text E (linesOf L.delta.rows)) ⟨Table.empty, []⟩ = some (.ok (), m) ∧
      m.state = L.delta := by
  have hes := L.entries
  obtain ⟨hentries, hflaw⟩ := records_linesOf hes
  obtain ⟨m, hm⟩ := (copy_ok_iff L.delta []).mpr (by simp)
  refine ⟨m, ?_, rows_copy rfl hm⟩
  have hrecords : records 59 10 (text E (linesOf L.delta.rows)) ≠ [] := by
    intro hnil
    have htotal := L.total
    rw [StateDelta.total, ← hentries, hnil] at htotal
    exact absurd htotal (show (0 : ℤ) ≠ iotaSupply by decide)
  rw [deserializeStr_eq hrecords, hentries, hflaw]
  have hcopy : forEach add L.delta.rows ⟨Table.empty, []⟩ = .ok () m := hm
  rw [hcopy]
  show finish none (UInt64.ofInt (StateDelta.total L.delta)) m = _
  rw [L.total, finish, if_neg (not_not.mpr rfl)]

/-! ## What a text takes -/

/-- The record an entry is of. -/
theorem entryOf_ok {r : Record Int8} {e : List FlexTrit × Int64} (h : entryOf E r = .ok e) :
    ∃ n token, readTrytes E (keyMemory r) = some (e.1, n) ∧ r.value = some token ∧
      scanInt64 token = some (some e.2) ∧ 0 ≤ e.2 := by
  unfold entryOf at h
  rcases hread : readTrytes E (keyMemory r) with _ | ⟨address, n⟩
  · rw [hread] at h
    contradiction
  rw [hread] at h
  dsimp only at h
  rcases hvalue : r.value with _ | token
  · rw [hvalue] at h
    contradiction
  rw [hvalue] at h
  dsimp only at h
  rcases hscan : scanInt64 token with _ | _ | value
  · rw [hscan] at h
    contradiction
  · rw [hscan] at h
    contradiction
  rw [hscan] at h
  dsimp only at h
  split at h
  · contradiction
  · next hneg =>
    obtain rfl := Except.ok.inj h
    exact ⟨n, token, rfl, rfl, hscan, Int64.not_lt.mp hneg⟩

/-- A balance takes at least its digits. -/
theorem length_of_scanInt64 {token : List Int8} {v : Int64} (h : scanInt64 token = some (some v))
    (hv : 0 ≤ v) : (decimal v.toInt.toNat).length ≤ token.length := by
  unfold scanInt64 at h
  split at h
  · simp at h
  · next s hscan =>
    split at h
    · next hfits =>
      have hlen := length_of_scan hscan
      have hvalue : v.toInt = s.value := by
        rw [← Option.some.inj (Option.some.inj h), Word.toInt_ofInt hfits]
      have hnonneg := (printInt64_of_nonneg hv).1
      have hmagnitude : v.toInt.toNat = s.magnitude := by
        rw [hvalue, Scanned.value] at hnonneg ⊢
        split_ifs at hnonneg ⊢ with hneg
        · omega
        · omega
      rw [hmagnitude]
      omega
    · contradiction

/-- An entry takes a record, with the digits of its balance and the trytes of its hash. -/
theorem lineSize_le {r : Record Int8} {e : List FlexTrit × Int64} (h : entryOf E r = .ok e)
    (hhash : IsHash E e.1) : lineSize e ≤ r.room := by
  obtain ⟨n, token, hread, hvalue, hscan, hnonneg⟩ := entryOf_ok h
  have hkey := hhash.length_key hread
  have hdigits := length_of_scanInt64 hscan hnonneg
  rw [Record.room, hvalue, Option.elim_some, lineSize]
  omega

/-- A new entry goes behind those there are; a second one for an address is dropped. -/
theorem rows_add {e : List FlexTrit × Int64} (h : add e.1 e.2 m = .ok () m') :
    m' = m ∨ m'.state.rows = m.state.rows ++ [e] := by
  by_cases hmem : e.1 ∈ m.state.keys
  · rw [add_of_mem hmem] at h
    exact Or.inl (EStateM.Result.ok.inj h).2.symm
  · right
    rw [add_ok hmem h]
    exact Table.rows_insert (r := e) hmem

theorem rows_kept (h : forEach add es m = .ok () m') : m.state.rows <+: m'.state.rows := by
  induction es generalizing m with
  | nil =>
    obtain ⟨-, rfl⟩ := EStateM.Result.ok.inj h
    exact List.prefix_rfl
  | cons e es ih =>
    obtain ⟨_, m₁, hadd, hrest⟩ := bind_eq_ok.mp h
    rcases rows_add hadd with rfl | hrows
    · exact ih hrest
    · refine List.IsPrefix.trans ?_ (ih hrest)
      rw [hrows]
      exact List.prefix_append _ _

/-- The entries a delta got from records take no more than these. -/
theorem sum_lineSize_le (rs : List (Record Int8))
    (hadd : forEach add (leadingEntries E rs) m = .ok () m')
    (hhash : ∀ e ∈ m'.state.rows, IsHash E e.1) :
    (m'.state.rows.map lineSize).sum ≤
      (m.state.rows.map lineSize).sum + (rs.map Record.room).sum := by
  induction rs generalizing m with
  | nil =>
    obtain ⟨-, rfl⟩ := EStateM.Result.ok.inj hadd
    exact Nat.le_add_right _ _
  | cons r rs ih =>
    rw [leadingEntries] at hadd
    rw [List.map_cons, List.sum_cons]
    rcases hentry : entryOf E r with f | e
    · rw [hentry] at hadd
      obtain ⟨-, rfl⟩ := EStateM.Result.ok.inj hadd
      exact Nat.le_add_right _ _
    · rw [hentry] at hadd
      obtain ⟨_, m₁, hone, hrest⟩ := bind_eq_ok.mp hadd
      have hle := ih hrest
      rcases rows_add hone with rfl | hrows
      · omega
      · have hmem : e ∈ m'.state.rows := by
          refine (rows_kept hrest).subset ?_
          rw [hrows]
          exact List.mem_append_right _ List.mem_cons_self
        have hroom := lineSize_le hentry (hhash e hmem)
        rw [hrows, List.map_append, List.sum_append, List.map_singleton, List.sum_singleton] at hle
        omega

theorem finish_ok {flaw : Option Flaw} {supply : UInt64}
    (h : finish flaw supply m = some (.ok (), m')) :
    flaw = none ∧ supply = UInt64.ofInt iotaSupply ∧ m = m' := by
  rcases flaw with _ | _ | _ | _
  · rw [finish] at h
    split at h
    · simp at h
    · next hsupply =>
      exact ⟨rfl, not_not.mp hsupply, (Prod.mk.inj (Option.some.inj h)).2⟩
  all_goals simp [finish] at h

/-- A text that gives a ledger is long enough for its lines. -/
theorem LedgerState.sum_le (L : LedgerState E) {text : List Int8}
    (hread : deserializeStr E text ⟨Table.empty, []⟩ = some (.ok (), m))
    (hsame : ∀ a, m.state.find? a = L.delta.find? a) :
    (L.delta.rows.map lineSize).sum ≤ text.length + 1 := by
  have hrecords : records 59 10 text ≠ [] := by
    intro hnil
    rw [deserializeStr, hnil] at hread
    simp at hread
  have hkeys : ∀ e ∈ m.state.rows, IsHash E e.1 := by
    intro e he
    have hfind := Table.find?_key he
    rw [hsame] at hfind
    exact L.hashes e (Table.mem_of_find? hfind)
  rw [deserializeStr_eq hrecords] at hread
  rcases hadd : forEach add (leadingEntries E (records 59 10 text)) ⟨Table.empty, []⟩ with
    ⟨u, m₁⟩ | ⟨c, m₁⟩
  · rw [hadd] at hread
    have hm : m₁ = m := (finish_ok hread).2.2
    have hle := sum_lineSize_le _ hadd (hm ▸ hkeys)
    have hroom := sum_room_le 59 10 text
    have hsum : (m.state.rows.map lineSize).sum = (L.delta.rows.map lineSize).sum := by
      rw [Table.sum_rows_eq_finsum, Table.sum_rows_eq_finsum]
      exact finsum_congr fun a => by rw [hsame]
    rw [hm, hsum] at hle
    exact hle.trans ((Nat.zero_add _).le.trans hroom)
  · rw [hadd] at hread
    simp at hread

/-! ## The room announced -/

/-- Every line of a ledger takes at most sixteen digits. -/
theorem LedgerState.lt_supply (L : LedgerState E) {e : List FlexTrit × Int64}
    (he : e ∈ L.delta.rows) : 0 ≤ e.2.toInt ∧ e.2.toInt < 10 ^ 16 := by
  have hnonneg : ∀ x ∈ L.delta.rows.map fun e => e.2.toInt, 0 ≤ x := by
    intro x hx
    obtain ⟨e', he', rfl⟩ := List.mem_map.mp hx
    exact (printInt64_of_nonneg (L.nonneg e' he')).1
  have hle := List.single_le_sum hnonneg _ (List.mem_map_of_mem he)
  have htotal : (L.delta.rows.map fun e => e.2.toInt).sum = 2779530283277761 := L.total
  rw [htotal] at hle
  have := hnonneg _ (List.mem_map_of_mem he)
  omega

/-- Numbers within a bound come to less than the bound each when one is less. -/
theorem sum_lt_iff {α : Type} {f : α → ℕ} {k : ℕ} {l : List α} (h : ∀ x ∈ l, f x ≤ k) :
    (l.map f).sum < l.length * k ↔ ∃ x ∈ l, f x < k := by
  induction l with
  | nil => simp
  | cons x l ih =>
    have hx := h x List.mem_cons_self
    have hl : ∀ y ∈ l, f y ≤ k := fun y hy => h y (List.mem_cons_of_mem _ hy)
    have hsum : (l.map f).sum ≤ l.length * k := by
      simpa using List.sum_le_card_nsmul (l.map f) k (by simpa using hl)
    have hiff := ih hl
    simp only [List.map_cons, List.sum_cons, List.length_cons, List.mem_cons, exists_eq_or_imp,
      ← hiff]
    rw [Nat.succ_mul]
    omega

/-- The room announced is that of the lines with sixteen digits each, and not more. -/
theorem LedgerState.room_iff (L : LedgerState E) :
    (L.delta.rows.map lineSize).sum < L.delta.rows.length * 99 ↔
      ∃ e ∈ L.delta.rows, e.2.toInt < 10 ^ 15 := by
  have hlines : ∀ e ∈ L.delta.rows, lineSize e ≤ 99 ∧ (lineSize e < 99 ↔ e.2.toInt < 10 ^ 15) := by
    intro e he
    obtain ⟨hnonneg, hlt⟩ := L.lt_supply he
    have h16 := length_decimal_le_iff (k := 16) (n := e.2.toInt.toNat) (by decide)
    have h15 := length_decimal_le_iff (k := 15) (n := e.2.toInt.toNat) (by decide)
    rw [lineSize]
    omega
  rw [sum_lt_iff fun e he => (hlines e he).1]
  exact exists_congr fun e => and_congr_right fun he => (hlines e he).2

/-- Where the writer ends, and with it the string it leaves. -/
theorem LedgerState.written (L : LedgerState E)
    (h : serializeStr E L.delta buffer = some (.ok (), str)) :
    (L.delta.rows.map lineSize).sum % 2 ^ 32 < buffer.length ∧
      (stringOf str).length ≤ (L.delta.rows.map lineSize).sum % 2 ^ 32 := by
  have hes := L.entries
  have hls : ∀ l ∈ linesOf L.delta.rows, IsHash E l.1 := by
    intro l hl
    obtain ⟨e, he, rfl⟩ := List.mem_map.mp hl
    exact L.hashes e he
  obtain ⟨⟨converted, offset, str₁⟩, hlines, hend⟩ := Option.bind_eq_some_iff.mp h
  obtain ⟨rfl, hlen, hwraps, -⟩ := putLines_offset hls hlines
  have hoffset := hwraps (Nat.two_pow_pos 32)
  dsimp only at hend
  rw [if_pos rfl] at hend
  obtain ⟨str₂, hput, heq⟩ := Option.map_eq_some_iff.mp hend
  obtain rfl := (Prod.mk.inj heq).2
  rw [Nat.zero_add, length_text_linesOf hes] at hoffset
  have hfit := (put_length hput).1
  rw [hlen, List.length_singleton] at hfit
  rw [← hoffset]
  exact ⟨hfit, length_stringOf_put hput⟩

/-- A buffer that holds the lines and a NUL holds the text. -/
theorem LedgerState.write (L : LedgerState E) (hcount : (L.delta.rows.map lineSize).sum < 2 ^ 32)
    (hbuffer : (L.delta.rows.map lineSize).sum < buffer.length) :
    ∃ str, serializeStr E L.delta buffer = some (.ok (), str) ∧
      stringOf str = text E (linesOf L.delta.rows) := by
  have hes := L.entries
  have hls : ∀ l ∈ linesOf L.delta.rows, IsHash E l.1 ∧ 0 ∉ l.2 := by
    intro l hl
    obtain ⟨e, he, rfl⟩ := List.mem_map.mp hl
    refine ⟨L.hashes e he, ?_⟩
    rw [(printInt64_of_nonneg (L.nonneg e he)).2]
    exact (decimal_not_mem _).2
  have hlen := length_text_linesOf hes
  obtain ⟨tail, htail, hlines⟩ := putLines_eq [] (fun l hl => (hls l hl).1)
    (show [].length + (text E (linesOf L.delta.rows)).length < 2 ^ 32 by
      rw [hlen]; simpa using hcount)
    (show (text E (linesOf L.delta.rows)).length < buffer.length by rw [hlen]; exact hbuffer)
  have hput := put_append (text E (linesOf L.delta.rows))
    (show [(0 : Int8)].length ≤ tail.length by rw [List.length_singleton]; omega)
  rw [List.nil_append, List.nil_append, List.length_nil, Nat.zero_add] at hlines
  refine ⟨text E (linesOf L.delta.rows) ++ [0] ++ tail.drop 1, ?_, ?_⟩
  · rw [serializeStr, hlines, Option.bind_some]
    dsimp only
    rw [if_pos rfl, hput, Option.map_some]
    rfl
  · rw [List.append_assoc]
    exact stringOf_append (zero_not_mem_text (fun l hl => (hls l hl).1) fun l hl => (hls l hl).2)

/-- A ledger that survives as text fits the room announced, and wraps no offset. -/
theorem RoundTrip.room {L : LedgerState E} (H : RoundTrip E L.delta) :
    (L.delta.rows.map lineSize).sum < L.delta.rows.length * 99 ∧
      (L.delta.rows.map lineSize).sum < 2 ^ 32 := by
  obtain ⟨str, m, hwrite, hread, hsame⟩ :=
    H (List.replicate (serializedStrSize L.delta) 0) List.length_replicate
  obtain ⟨hfit, hlen⟩ := L.written hwrite
  have hle := L.sum_le hread hsame
  have hmod := Nat.mod_le L.delta.rows.length (2 ^ 32)
  rw [List.length_replicate, serializedStrSize] at hfit
  omega

/-- **Exactly when a ledger survives as text**: some balance has less than sixteen digits, and the
lines are no more than an `uint32_t` counts. -/
theorem roundTrip_iff (L : LedgerState E) :
    RoundTrip E L.delta ↔
      (∃ e ∈ L.delta.rows, e.2.toInt < 10 ^ 15) ∧ (L.delta.rows.map lineSize).sum < 2 ^ 32 := by
  rw [← L.room_iff]
  constructor
  · intro H
    exact H.room
  · rintro ⟨hroom, hcount⟩ buffer hbuffer
    have hlines : L.delta.rows.length ≤ (L.delta.rows.map lineSize).sum := by
      have hone : ∀ x ∈ L.delta.rows.map lineSize, 1 ≤ x := by
        intro x hx
        obtain ⟨e, -, rfl⟩ := List.mem_map.mp hx
        exact Nat.le_add_left _ _
      simpa using List.length_le_sum_of_one_le _ hone
    rw [serializedStrSize, Nat.mod_eq_of_lt (by omega)] at hbuffer
    obtain ⟨str, hwrite, htext⟩ := L.write hcount (hbuffer ▸ hroom)
    obtain ⟨m, hread, hm⟩ := L.read
    refine ⟨str, m, hwrite, by rw [htext, hread], fun a => by rw [hm]⟩

/-- All tokens at one address. -/
def genesis {a : List FlexTrit} (h : IsHash E a) : LedgerState E where
  delta := ⟨[(a, 2779530283277761)], List.nodup_singleton _⟩
  hashes e he := by
    rw [List.mem_singleton.mp he]
    exact h
  nonneg e he := by
    rw [List.mem_singleton.mp he]
    exact (by decide : (0 : Int64) ≤ 2779530283277761)
  total := (by decide : (2779530283277761 : Int64).toInt + 0 = iotaSupply)

theorem lineSize_supply (a : List FlexTrit) : lineSize (a, 2779530283277761) = 99 := by
  have hvalue : (2779530283277761 : Int64).toInt.toNat = 2779530283277761 := by decide
  have h15 := length_decimal_le_iff (k := 15) (n := 2779530283277761) (by decide)
  have h16 := length_decimal_le_iff (k := 16) (n := 2779530283277761) (by decide)
  rw [lineSize, hvalue]
  omega

/-- The supply has sixteen digits: its line fills the room up, and the NUL is written behind it. -/
theorem genesis_overruns : ¬ RoundTrip .three (genesis (isHash_zeros .three)).delta := by
  intro H
  have hroom : lineSize (_, 2779530283277761) + 0 < 1 * 99 := H.room.1
  rw [lineSize_supply] at hroom
  omega

end StateDelta

end Entangled
