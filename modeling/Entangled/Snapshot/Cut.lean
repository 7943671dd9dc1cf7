import Entangled.Common.Shortened
import Entangled.Snapshot.Metadata
import Entangled.Snapshot.Vetting
/-!
# Snapshot files cut short

A file that is not written to its end has a beginning of the text. Of the line it breaks off in,
there are no number, or the first digits of it (`records_cut`).

The reader of a state checks the total, so that nothing but lines of balance zero can be missing
from a state that is read (`LedgerState.read_cut`). The reader of metadata checks nothing: the
entry points behind the cut are not there, and the last one may have a smaller index
(`Hashed.read_cut`).
-/

namespace Entangled

namespace Snapshot

open Tokens Decimal Trinary Ternary

variable {E : Encoding} {a : List FlexTrit} {digits p : List Int8}
variable {l : List FlexTrit × List Int8} {ls : List (List FlexTrit × List Int8)}

/-! ## Lines -/

/-- A cut is in the first line or behind it. -/
theorem prefix_text_cons (h : p <+: text E (l :: ls)) :
    (p <+: line E l.1 l.2 ∧ p ≠ line E l.1 l.2) ∨
      ∃ p', p = line E l.1 l.2 ++ p' ∧ p' <+: text E ls := by
  rw [text_cons] at h
  by_cases hwhole : line E l.1 l.2 <+: p
  · obtain ⟨p', rfl⟩ := hwhole
    exact Or.inr ⟨p', rfl, (List.prefix_append_right_inj _).mp h⟩
  · rcases List.prefix_or_prefix_of_prefix h (List.prefix_append (line E l.1 l.2) _) with hp | hp
    · exact Or.inl ⟨hp, fun heq => hwhole (heq ▸ List.prefix_rfl)⟩
    · exact absurd hp hwhole

/-- **A line that is cut** has no record, one without a value, or one with the first digits. -/
theorem records_cut (h : IsHash E a) (hdigits : 10 ∉ digits) (hp : p <+: line E a digits)
    (hne : p ≠ line E a digits) :
    records 59 10 p = [] ∨ (∃ key behind, records 59 10 p = [⟨key, behind, none⟩]) ∨
      ∃ ds, ds ≠ [] ∧ ds <+: digits ∧ records 59 10 p = [⟨trytesOf E a, some ds, some ds⟩] := by
  obtain ⟨hsemicolon, hkey⟩ := separators_not_mem h
  rcases List.prefix_or_prefix_of_prefix hp (List.prefix_append (trytesOf E a) _) with
    htrytes | ⟨q, rfl⟩
  · by_cases h0 : p = []
    · exact Or.inl (by rw [h0]; rfl)
    · refine Or.inr (Or.inl ⟨p, none, records_key (strtok_end ?_ h0) rfl⟩)
      exact fun hmem => hsemicolon (htrytes.subset hmem)
  · rw [line, List.prefix_append_right_inj] at hp
    rcases q with _ | ⟨c, ds⟩
    · refine Or.inr (Or.inl ⟨trytesOf E a, none, ?_⟩)
      rw [List.append_nil]
      exact records_key (strtok_end hsemicolon hkey) rfl
    · obtain ⟨rfl, hds⟩ := List.cons_prefix_cons.mp hp
      have hfirst : ds <+: digits := by
        rcases List.prefix_concat_iff.mp hds with heq | hfirst
        · exact absurd (by rw [line, heq]) hne
        · exact hfirst
      have hcut : strtok 59 (trytesOf E a ++ 59 :: ds) = some (trytesOf E a, some ds) :=
        strtok_append hsemicolon hkey
      by_cases h0 : ds = []
      · rw [h0] at hcut ⊢
        exact Or.inr (Or.inl ⟨_, _, records_key hcut rfl⟩)
      · have hvalue := strtok_end (d := 10) (fun hmem => hdigits (hfirst.subset hmem)) h0
        exact Or.inr (Or.inr ⟨ds, h0, hfirst, records_last hcut hvalue⟩)

/-- The first digits of a number. -/
theorem scan_prefix {ds : List Int8} {n : ℕ} (h0 : ds ≠ []) (h : ds <+: decimal n) :
    ∃ k, scan ds = some ⟨false, n / 10 ^ k, []⟩ := by
  obtain ⟨k, hk⟩ := number_prefix h
  have hscan : scan (ds ++ []) = some ⟨false, number ds, []⟩ :=
    scan_digits (fun c hc => isDigit_of_mem (h.subset hc)) h0 (by simp)
  rw [List.append_nil, hk] at hscan
  exact ⟨k, hscan⟩

end Snapshot

/-! ## The state -/

namespace StateDelta

open Prog Snapshot Ternary Trinary Tokens Decimal

variable {E : Encoding} {p : List Int8} {alloc : List Bool} {m : Heap (List FlexTrit)}
variable {es : List (List FlexTrit × Int64)}

/-- An entry with the last digits of its balance cut off. -/
def Fewer (e' e : List FlexTrit × Int64) : Prop :=
  e'.1 = e.1 ∧ ∃ k, e'.2.toInt = e.2.toInt / 10 ^ k

theorem Fewer.bounds {e' e : List FlexTrit × Int64} (h : Fewer e' e) (he : 0 ≤ e.2.toInt) :
    0 ≤ e'.2.toInt ∧ e'.2.toInt ≤ e.2.toInt := by
  obtain ⟨-, k, hk⟩ := h
  have hpos : (0 : ℤ) < 10 ^ k := by positivity
  rw [hk]
  exact ⟨Int.ediv_nonneg he hpos.le, Int.ediv_le_self _ he⟩

theorem Fewer.eq_of_toInt {e' e : List FlexTrit × Int64} (h : Fewer e' e)
    (hvalue : e'.2.toInt = e.2.toInt) : e' = e :=
  Prod.ext h.1 (Int64.toInt_inj.mp hvalue)

/-- The first digits of a balance are a balance. -/
theorem scanInt64_prefix {ds : List Int8} {v : Int64} (hv : 0 ≤ v) (h0 : ds ≠ [])
    (h : ds <+: printInt64 v) :
    ∃ w : Int64, scanInt64 ds = some (some w) ∧ 0 ≤ w ∧ ∃ k, w.toInt = v.toInt / 10 ^ k := by
  obtain ⟨hnonneg, hprint⟩ := printInt64_of_nonneg hv
  rw [hprint] at h
  obtain ⟨k, hscan⟩ := scan_prefix h0 h
  have hvalue : Scanned.value ⟨false, v.toInt.toNat / 10 ^ k, []⟩ = v.toInt / 10 ^ k := by
    show ((v.toInt.toNat / 10 ^ k : ℕ) : ℤ) = _
    rw [Int.natCast_ediv, Int.toNat_of_nonneg hnonneg]
    norm_cast
  have hpos : (0 : ℤ) < 10 ^ k := by positivity
  have hlow : 0 ≤ v.toInt / 10 ^ k := Int.ediv_nonneg hnonneg hpos.le
  have hhigh : v.toInt / 10 ^ k ≤ v.toInt := Int.ediv_le_self _ hnonneg
  have hbounds := Word.fits_toInt v
  have hfits : Word.Fits (v.toInt / 10 ^ k) := by
    rw [Word.Fits] at hbounds ⊢
    omega
  refine ⟨Int64.ofInt (v.toInt / 10 ^ k), ?_, ?_, k, Word.toInt_ofInt hfits⟩
  · rw [scanInt64, hscan]
    dsimp only
    rw [hvalue, if_pos hfits]
  · rw [Int64.le_iff_toInt_le, Word.toInt_ofInt hfits]
    exact hlow

/-- What is read of the entry that the cut is in. -/
theorem entryOf_cut {e : List FlexTrit × Int64} {ds : List Int8} (hhash : IsHash E e.1)
    (hnonneg : 0 ≤ e.2) (h0 : ds ≠ []) (h : ds <+: printInt64 e.2) :
    ∃ e', entryOf E ⟨trytesOf E e.1, some ds, some ds⟩ = .ok e' ∧ Fewer e' e := by
  obtain ⟨w, hscan, hw, k, hk⟩ := scanInt64_prefix hnonneg h0 h
  have hread : readTrytes E (keyMemory ⟨trytesOf E e.1, some ds, some ds⟩) = some (e.1, 81) :=
    hhash.readTrytes_eq
  refine ⟨(e.1, w), ?_, rfl, k, hk⟩
  rw [entryOf, hread]
  dsimp only
  rw [hscan]
  dsimp only
  rw [if_neg (Int64.not_lt.mpr hw)]

/-- **The entries of a text that is cut**, where none of its lines is malformed. -/
theorem leadingEntries_cut (hes : ∀ e ∈ es, IsHash E e.1 ∧ 0 ≤ e.2)
    (hp : p <+: text E (linesOf es)) (hflaw : flawOf E (records 59 10 p) = none) :
    Shortened Fewer (leadingEntries E (records 59 10 p)) es := by
  induction es generalizing p with
  | nil =>
    rw [List.prefix_nil.mp hp]
    exact .nil []
  | cons e es ih =>
    obtain ⟨hhash, hnonneg⟩ := hes e List.mem_cons_self
    have hdigits : 10 ∉ printInt64 e.2 ∧ printInt64 e.2 ≠ [] := by
      rw [(printInt64_of_nonneg hnonneg).2]
      exact ⟨(decimal_not_mem _).1, decimal_ne_nil _⟩
    rcases prefix_text_cons hp with ⟨hline, hne⟩ | ⟨p', rfl, hp'⟩
    · rcases records_cut hhash hdigits.1 hline hne with
        hnil | ⟨key, behind, hone⟩ | ⟨ds, h0, hds, hone⟩
      · rw [hnil]
        exact .nil _
      · -- a key without a value is malformed, if it can be read at all
        rw [hone, flawOf, entryOf] at hflaw
        rcases hread : readTrytes E (keyMemory ⟨key, behind, none⟩) with _ | ⟨address, n⟩
        · rw [hread] at hflaw
          contradiction
        · rw [hread] at hflaw
          contradiction
      · obtain ⟨e', hentry, hfewer⟩ := entryOf_cut hhash hnonneg h0 hds
        rw [hone, leadingEntries, hentry]
        exact .last es hfewer
    · have hrecords := records_line hhash p' hdigits.1 hdigits.2
      dsimp only at hflaw hp' ⊢
      rw [hrecords, flawOf, entryOf_recordOf hhash hnonneg] at hflaw
      rw [hrecords, leadingEntries, entryOf_recordOf hhash hnonneg]
      exact .cons e (ih (fun e' he' => hes e' (List.mem_cons_of_mem _ he')) hp' hflaw)

/-- A text that is read has no line that is malformed, and its balances come to the supply. -/
theorem entries_of_read {text : List Int8}
    (h : deserializeStr E text ⟨Table.empty, alloc⟩ = some (.ok (), m)) :
    forEach add (leadingEntries E (records 59 10 text)) ⟨Table.empty, alloc⟩ = .ok () m ∧
      flawOf E (records 59 10 text) = none ∧
      UInt64.ofInt (balances (leadingEntries E (records 59 10 text))) =
        UInt64.ofInt iotaSupply := by
  have hrecords : records 59 10 text ≠ [] := by
    intro hnil
    rw [deserializeStr, hnil] at h
    simp at h
  rw [deserializeStr_eq hrecords] at h
  rcases hadd : forEach add (leadingEntries E (records 59 10 text)) ⟨Table.empty, alloc⟩ with
    ⟨u, m₁⟩ | ⟨c, m₁⟩
  · rw [hadd] at h
    obtain ⟨hflaw, hsupply, rfl⟩ := finish_ok h
    exact ⟨rfl, hflaw, hsupply⟩
  · rw [hadd] at h
    simp at h

/-- Entries of different addresses are what a delta gets. -/
theorem rows_of_entries (hnd : (es.map Prod.fst).Nodup)
    (h : forEach add es ⟨Table.empty, alloc⟩ = .ok () m) : m.state.rows = es := by
  have hall := rows_forEach_add (f := Prod.snd) (m := ⟨Table.empty, alloc⟩) hnd h
  rwa [List.map_id'] at hall

theorem LedgerState.nodup_cut (L : LedgerState E) {es : List (List FlexTrit × Int64)}
    (h : Shortened Fewer es L.delta.rows) : (es.map Prod.fst).Nodup :=
  L.delta.nodup.sublist (h.map_prefix fun _ _ hfewer => hfewer.1).sublist

/-- The text of a ledger gives the ledger, whatever memory there was. -/
theorem LedgerState.read_whole (L : LedgerState E)
    (h : deserializeStr E (text E (linesOf L.delta.rows)) ⟨Table.empty, alloc⟩ =
      some (.ok (), m)) : m.state = L.delta := by
  obtain ⟨hentries, -⟩ := records_linesOf L.entries
  have hadd := (entries_of_read h).1
  rw [hentries] at hadd
  exact Table.ext (rows_of_entries L.delta.nodup hadd)

/-- **A state file that is cut** is only read where nothing but lines of balance zero is missing. -/
theorem LedgerState.read_cut (L : LedgerState E) (hp : p <+: text E (linesOf L.delta.rows))
    (h : deserializeStr E p ⟨Table.empty, alloc⟩ = some (.ok (), m)) :
    ∃ dropped, L.delta.rows = m.state.rows ++ dropped ∧ ∀ e ∈ dropped, e.2 = 0 := by
  obtain ⟨hadd, hflaw, hsupply⟩ := entries_of_read h
  have hcut := leadingEntries_cut L.entries hp hflaw
  have hrows := rows_of_entries (L.nodup_cut hcut) hadd
  have hnonneg : ∀ e ∈ L.delta.rows, 0 ≤ e.2.toInt := fun e he =>
    (printInt64_of_nonneg (L.nonneg e he)).1
  have hle := hcut.sum_le (f := fun e => e.2.toInt) (fun _ _ hfewer => hfewer.bounds) hnonneg
  have htotal : (L.delta.rows.map fun e => e.2.toInt).sum = iotaSupply := L.total
  -- no sum of balances is so large that an `uint64_t` would not tell it from the supply
  have hsum : ((leadingEntries E (records 59 10 p)).map fun e => e.2.toInt).sum = iotaSupply := by
    have hlow : 0 ≤ ((leadingEntries E (records 59 10 p)).map fun e => e.2.toInt).sum := by
      refine List.sum_nonneg fun x hx => ?_
      obtain ⟨e, he, rfl⟩ := List.mem_map.mp hx
      exact hcut.nonneg (f := fun e => e.2.toInt) (fun _ _ hfewer => hfewer.bounds) hnonneg e he
    have hdvd := unsigned_eq_iff.mp hsupply
    have hsmall : iotaSupply = 2779530283277761 := rfl
    rw [balances] at hdvd
    rw [htotal] at hle
    omega
  obtain ⟨dropped, hsplit, hzero⟩ := hcut.append_of_sum_eq (f := fun e => e.2.toInt)
    (fun _ _ hfewer => hfewer.bounds) (fun _ _ hfewer => hfewer.eq_of_toInt) hnonneg
    (hsum.trans htotal.symm)
  refine ⟨dropped, hrows ▸ hsplit, fun e he => Int64.toInt_inj.mp (hzero e he)⟩

end StateDelta

/-! ## The metadata -/

namespace Metadata

open Snapshot Ternary Trinary Tokens Decimal

variable {E : Encoding} {p : List Int8} {M : Hashed E} {s s' : Reader} {rs : List (Record Int8)}
variable {es : List (List FlexTrit × UInt64)}

/-- An entry point with the last digits of its index cut off. -/
def Lower (e' e : List FlexTrit × UInt64) : Prop :=
  e'.1 = e.1 ∧ ∃ k, e'.2.toNat = e.2.toNat / 10 ^ k

/-- The entry points of the records up to the first one that adds none. -/
def leadingPoints (E : Encoding) : List (Record Int8) → List (List FlexTrit × UInt64)
  | [] => []
  | r :: rs =>
    match pointOf E r with
    | .error _ => []
    | .ok e => e :: leadingPoints E rs

/-- A new entry point finds memory or not. -/
theorem Reader.mapAdd_of_not_mem {e : List FlexTrit × UInt64}
    (hmem : e.1 ∉ s.metadata.solidEntryPoints.keys) :
    (s.mapAdd e.1 e.2).1 = false ∨ s.mapAdd e.1 e.2 = (true, { s with
      metadata := { s.metadata with solidEntryPoints := s.metadata.solidEntryPoints.insert e }
      alloc := s.alloc.tail }) := by
  rw [Reader.mapAdd, if_neg hmem]
  dsimp only
  split
  · exact Or.inl rfl
  · exact Or.inr rfl

/-- A reader that ends well has added the entry points at the head. -/
theorem deserializeLoop_ok
    (hnd : (s.metadata.solidEntryPoints.keys ++ (leadingPoints E rs).map Prod.fst).Nodup)
    (h : deserializeLoop E rs s = some (.ok (), s')) :
    s'.metadata.hash = s.metadata.hash ∧ s'.metadata.index = s.metadata.index ∧
      s'.metadata.timestamp = s.metadata.timestamp ∧
      s'.metadata.solidEntryPoints.rows =
        s.metadata.solidEntryPoints.rows ++ leadingPoints E rs ∧
      s'.alloc = s.alloc.drop (leadingPoints E rs).length := by
  induction rs generalizing s with
  | nil =>
    obtain ⟨-, rfl⟩ := Prod.mk.inj (Option.some.inj h)
    exact ⟨rfl, rfl, rfl, (List.append_nil _).symm, rfl⟩
  | cons r rs ih =>
    rw [deserializeLoop_cons] at h
    rw [leadingPoints] at hnd ⊢
    rcases hpoint : pointOf E r with f | e
    · rw [hpoint] at h
      cases f with
      | undefined => contradiction
      | malformed => exact absurd (Prod.mk.inj (Option.some.inj h)).1 (by simp)
      | cut =>
        obtain ⟨-, rfl⟩ := Prod.mk.inj (Option.some.inj h)
        exact ⟨rfl, rfl, rfl, (List.append_nil _).symm, rfl⟩
    · rw [hpoint] at h hnd
      dsimp only at h hnd ⊢
      rw [List.map_cons] at hnd
      have hmem : e.1 ∉ s.metadata.solidEntryPoints.keys := fun hx =>
        (List.nodup_append.mp hnd).2.2 e.1 hx e.1 List.mem_cons_self rfl
      have hkeys : (s.metadata.solidEntryPoints.insert e).keys =
          s.metadata.solidEntryPoints.keys ++ [e.1] := by
        rw [Table.keys, Table.rows_insert hmem, List.map_append]
        rfl
      rcases Reader.mapAdd_of_not_mem hmem with hfull | hadd
      · rcases hadd : s.mapAdd e.1 e.2 with ⟨found, s₁⟩
        rw [hadd] at h hfull
        dsimp only at hfull
        rw [hfull] at h
        exact absurd (Prod.mk.inj (Option.some.inj h)).1 (by simp)
      · rw [hadd] at h
        obtain ⟨hhash, hindex, htimestamp, hrows, halloc⟩ := ih (by
          show ((s.metadata.solidEntryPoints.insert e).keys ++ _).Nodup
          rw [hkeys, List.append_assoc]
          exact hnd) h
        refine ⟨hhash, hindex, htimestamp, ?_, ?_⟩
        · rw [hrows]
          show (s.metadata.solidEntryPoints.insert e).rows ++ _ = _
          rw [Table.rows_insert hmem, List.append_assoc]
          rfl
        · rw [halloc, List.drop_tail, List.length_cons]

/-- The first digits of an index are an index. -/
theorem scanUInt64_prefix {ds : List Int8} {v : UInt64} (h0 : ds ≠ [])
    (h : ds <+: decimal v.toNat) :
    ∃ w : UInt64, scanUInt64 ds = some (some (w, [])) ∧ ∃ k, w.toNat = v.toNat / 10 ^ k := by
  obtain ⟨k, hscan⟩ := scan_prefix h0 h
  have hle : v.toNat / 10 ^ k ≤ v.toNat := Nat.div_le_self _ _
  have hlt : v.toNat / 10 ^ k < 2 ^ 64 := hle.trans_lt v.toNat_lt
  refine ⟨UInt64.ofNat (v.toNat / 10 ^ k), ?_, k, UInt64.toNat_ofNat_of_lt' hlt⟩
  have hmod : ∀ n : ℕ, n < 2 ^ 64 → ((n : ℤ) % 2 ^ 64).toNat = n := by
    intro n hn
    omega
  have hvalue : UInt64.ofInt (Scanned.value ⟨false, v.toNat / 10 ^ k, []⟩) =
      UInt64.ofNat (v.toNat / 10 ^ k) := by
    show UInt64.ofNat (((v.toNat / 10 ^ k : ℕ) : ℤ) % 2 ^ 64).toNat = _
    rw [hmod _ hlt]
  rw [scanUInt64, hscan]
  dsimp only
  rw [if_pos hlt, hvalue]

theorem pointOf_recordOf {e : List FlexTrit × UInt64} {rest : List Int8} (hhash : IsHash E e.1) :
    pointOf E (recordOf E e.1 (decimal e.2.toNat) rest) = .ok e := by
  have hscan := scanUInt64_decimal (v := e.2) [] (by simp)
  rw [List.append_nil] at hscan
  rw [pointOf, readTrytes_recordOf hhash]
  simp only [recordOf, hscan]

/-- The entry points of lines. -/
theorem leadingPoints_linesOf (hes : ∀ e ∈ es, IsHash E e.1) :
    leadingPoints E (records 59 10 (text E (linesOf es))) = es := by
  induction es with
  | nil => rfl
  | cons e es ih =>
    have hhash := hes e List.mem_cons_self
    have htext : text E (linesOf (e :: es)) =
        line E e.1 (decimal e.2.toNat) ++ text E (linesOf es) := text_cons
    rw [htext, records_line hhash _ (decimal_not_mem _).1 (decimal_ne_nil _), leadingPoints,
      pointOf_recordOf hhash]
    exact congrArg (e :: ·) (ih fun e' he' => hes e' (List.mem_cons_of_mem _ he'))

/-- **The entry points of a text that is cut**, and no more records than there were lines. -/
theorem leadingPoints_cut (hes : ∀ e ∈ es, IsHash E e.1) (hp : p <+: text E (linesOf es)) :
    Shortened Lower (leadingPoints E (records 59 10 p)) es ∧
      (records 59 10 p).length ≤ es.length := by
  induction es generalizing p with
  | nil =>
    rw [List.prefix_nil.mp hp]
    exact ⟨.nil [], le_rfl⟩
  | cons e es ih =>
    have hhash := hes e List.mem_cons_self
    rcases prefix_text_cons hp with ⟨hline, hne⟩ | ⟨p', rfl, hp'⟩
    · rcases records_cut hhash (decimal_not_mem _).1 hline hne with
        hnil | ⟨key, behind, hone⟩ | ⟨ds, h0, hds, hone⟩
      · rw [hnil]
        exact ⟨.nil _, Nat.zero_le _⟩
      · rw [hone]
        refine ⟨?_, Nat.succ_le_succ (Nat.zero_le _)⟩
        rw [leadingPoints, pointOf]
        rcases readTrytes E (keyMemory ⟨key, behind, none⟩) with _ | ⟨address, n⟩
        · exact .nil _
        · exact .nil _
      · obtain ⟨w, hscan, k, hk⟩ := scanUInt64_prefix h0 hds
        have hread : readTrytes E (keyMemory ⟨trytesOf E e.1, some ds, some ds⟩) =
            some (e.1, 81) := hhash.readTrytes_eq
        have hentry : pointOf E ⟨trytesOf E e.1, some ds, some ds⟩ = .ok (e.1, w) := by
          rw [pointOf, hread]
          dsimp only
          rw [hscan]
        rw [hone]
        refine ⟨?_, Nat.succ_le_succ (Nat.zero_le _)⟩
        rw [leadingPoints, hentry]
        exact .last es ⟨rfl, k, hk⟩
    · obtain ⟨hcut, hlen⟩ := ih (fun e' he' => hes e' (List.mem_cons_of_mem _ he')) hp'
      dsimp only
      rw [records_line hhash p' (decimal_not_mem _).1 (decimal_ne_nil _), leadingPoints,
        pointOf_recordOf hhash]
      exact ⟨.cons e hcut, Nat.succ_le_succ hlen⟩

/-- **Numbers that are all read** are all there, with the line end of each. -/
theorem scanFields_cut {vs values : List UInt64} {t rest : List Int8}
    (hp : p <+: numberLines (vs.map UInt64.toNat) ++ t)
    (h : scanFields vs.length p = some (values, some rest)) :
    values = vs ∧ p = numberLines (vs.map UInt64.toNat) ++ rest ∧ rest <+: t := by
  induction vs generalizing p values with
  | nil =>
    obtain ⟨rfl, hrest⟩ := Prod.mk.inj (Option.some.inj h)
    obtain rfl := Option.some.inj hrest
    exact ⟨rfl, rfl, hp⟩
  | cons v vs ih =>
    rw [List.map_cons, numberLines_cons, List.append_assoc] at hp
    rw [List.length_cons, scanFields] at h
    by_cases hwhole : decimal v.toNat ++ [10] <+: p
    · obtain ⟨p', rfl⟩ := hwhole
      rw [scanField_decimal, Option.bind_some] at h
      obtain ⟨⟨values', rest'⟩, hrest, heq⟩ := Option.map_eq_some_iff.mp h
      obtain ⟨rfl, rfl⟩ := Prod.mk.inj heq
      obtain ⟨rfl, hp', ht⟩ := ih ((List.prefix_append_right_inj _).mp hp) hrest
      refine ⟨rfl, ?_, ht⟩
      rw [List.map_cons, numberLines_cons, List.append_assoc _ _ rest, ← hp']
    · -- the line is cut: there is no digit, or nothing behind the digits
      exfalso
      rcases List.prefix_or_prefix_of_prefix hp (List.prefix_append _ _) with hline | hline
      · rcases List.prefix_concat_iff.mp hline with heq | hdigits
        · exact hwhole (heq ▸ List.prefix_rfl)
        · by_cases h0 : p = []
          · have hnone : scanField p = some none := by rw [h0]; rfl
            rw [hnone] at h
            exact absurd (Prod.mk.inj (Option.some.inj h)).2 (by simp)
          · obtain ⟨w, hscan, -⟩ := scanUInt64_prefix h0 hdigits
            have hnone : scanField p = none := by
              rw [scanField, hscan, Option.bind_some]
              exact if_neg fun hrest => hrest.2 rfl
            rw [hnone] at h
            contradiction
      · exact hwhole hline

/-- **Metadata that is cut and read** has its hash and its numbers, and the entry points of the
lines that are there. -/
theorem Hashed.read_prefix (M : Hashed E) (hcount : M.data.solidEntryPoints.rows.length < 2 ^ 32)
    (hempty : s.metadata.solidEntryPoints = Table.empty) (hp : p <+: textOf E M.data)
    (h : deserializeStr E p s = some (.ok (), s')) :
    ∃ rest, rest <+: text E (linesOf M.data.solidEntryPoints.rows) ∧
      (p = textOf E M.data → rest = text E (linesOf M.data.solidEntryPoints.rows)) ∧
      s'.metadata.hash = M.data.hash ∧ s'.metadata.index = M.data.index ∧
      s'.metadata.timestamp = M.data.timestamp ∧
      s'.metadata.solidEntryPoints.rows = leadingPoints E (records 59 10 rest) ∧
      s'.alloc = s.alloc.drop (leadingPoints E (records 59 10 rest)).length := by
  have hlen : 82 ≤ p.length := by
    obtain ⟨⟨read, n⟩, hread, hbehind⟩ := Option.bind_eq_some_iff.mp h
    obtain rfl := readTrytes_count hread
    by_contra hshort
    dsimp only at hbehind
    rw [if_neg (not_not.mpr rfl), if_pos (Nat.not_le.mp hshort)] at hbehind
    contradiction
  have hhash := M.hash.length_trytesOf
  have htext : textOf E M.data = trytesOf E M.data.hash ++ [10] ++
      (numberLines [M.data.index.toNat, M.data.timestamp.toNat, mapSize M.data, 0] ++
        text E (linesOf M.data.solidEntryPoints.rows)) := List.append_assoc _ _ _
  rw [htext] at hp ⊢
  have hhead := List.prefix_append (trytesOf E M.data.hash ++ [10])
    (numberLines [M.data.index.toNat, M.data.timestamp.toNat, mapSize M.data, 0] ++
      text E (linesOf M.data.solidEntryPoints.rows))
  obtain ⟨p', rfl⟩ := List.prefix_of_prefix_length_le hhead hp (by
    rw [List.length_append, hhash, List.length_singleton]
    exact hlen)
  rw [List.prefix_append_right_inj] at hp
  have hread : readTrytes E (trytesOf E M.data.hash ++ [10] ++ p' ++ [0]) =
      some (M.data.hash, 81) := by
    rw [List.append_assoc, List.append_assoc, M.hash.readTrytes_eq]
  have hdrop : (trytesOf E M.data.hash ++ [10] ++ p').drop 82 = p' :=
    List.drop_left' (by rw [List.length_append, hhash, List.length_singleton])
  have hsize : mapSize M.data = M.data.solidEntryPoints.rows.length := Nat.mod_eq_of_lt hcount
  -- all four numbers are there
  obtain ⟨values, rest, hnumbers⟩ : ∃ values rest, scanFields 4 p' = some (values, some rest) := by
    rw [deserializeStr, hread, Option.bind_some] at h
    dsimp only at h
    rw [if_neg (not_not.mpr rfl), if_neg (Nat.not_lt.mpr hlen), hdrop] at h
    obtain ⟨⟨values, _ | rest⟩, hnumbers, hend⟩ := Option.bind_eq_some_iff.mp h
    · exact absurd (Prod.mk.inj (Option.some.inj hend)).1 (by simp)
    · exact ⟨values, rest, hnumbers⟩
  have hcutNumbers : p' <+: numberLines
      ([M.data.index, M.data.timestamp, UInt64.ofNat (mapSize M.data), 0].map UInt64.toNat) ++
        text E (linesOf M.data.solidEntryPoints.rows) := by
    simp only [List.map_cons, List.map_nil, toNat_mapSize, UInt64.toNat_zero]
    exact hp
  obtain ⟨rfl, rfl, hrest⟩ := scanFields_cut hcutNumbers hnumbers
  obtain ⟨hcut, hrecords⟩ := leadingPoints_cut M.points hrest
  rw [deserializeStr_eq s hread hlen (by rw [hdrop]; exact hnumbers), toNat_mapSize, hsize,
    List.take_of_length_le hrecords] at h
  have hnd : ((leadingPoints E (records 59 10 rest)).map Prod.fst).Nodup :=
    M.data.solidEntryPoints.nodup.sublist (hcut.map_prefix fun _ _ hlower => hlower.1).sublist
  obtain ⟨h1, h2, h3, hrows, halloc⟩ := deserializeLoop_ok (by
    rw [hempty]
    exact hnd) h
  refine ⟨rest, hrest, fun heq => ?_, h1, h2, h3, ?_, halloc⟩
  · simp only [List.map_cons, List.map_nil, toNat_mapSize, UInt64.toNat_zero] at heq
    exact List.append_cancel_left (List.append_cancel_left heq)
  · rw [hrows, hempty]
    rfl

theorem SnapshotMetadata.ext {m' m : SnapshotMetadata} (hhash : m'.hash = m.hash)
    (hindex : m'.index = m.index) (htimestamp : m'.timestamp = m.timestamp)
    (hpoints : m'.solidEntryPoints = m.solidEntryPoints) : m' = m := by
  cases m'
  cases m
  congr

/-- Metadata with the hash and the numbers of other metadata, and the first of its entry points. -/
structure CutOf (m' m : SnapshotMetadata) : Prop where
  hash : m'.hash = m.hash
  index : m'.index = m.index
  timestamp : m'.timestamp = m.timestamp
  points : Shortened Lower m'.solidEntryPoints.rows m.solidEntryPoints.rows

/-- **A metadata file that is cut**, where it is read. -/
theorem Hashed.read_cut (M : Hashed E) (hcount : M.data.solidEntryPoints.rows.length < 2 ^ 32)
    (hempty : s.metadata.solidEntryPoints = Table.empty) (hp : p <+: textOf E M.data)
    (h : deserializeStr E p s = some (.ok (), s')) : CutOf s'.metadata M.data := by
  obtain ⟨rest, hrest, -, hhash, hindex, htimestamp, hrows, -⟩ := M.read_prefix hcount hempty hp h
  refine ⟨hhash, hindex, htimestamp, ?_⟩
  rw [hrows]
  exact (leadingPoints_cut M.points hrest).1

/-- The text of metadata gives the metadata, whatever memory there was. -/
theorem Hashed.read_whole (M : Hashed E) (hcount : M.data.solidEntryPoints.rows.length < 2 ^ 32)
    (hempty : s.metadata.solidEntryPoints = Table.empty)
    (h : deserializeStr E (textOf E M.data) s = some (.ok (), s')) :
    s'.metadata = M.data ∧ s'.alloc = s.alloc.drop M.data.solidEntryPoints.rows.length := by
  obtain ⟨rest, -, hwhole, hhash, hindex, htimestamp, hrows, halloc⟩ :=
    M.read_prefix hcount hempty List.prefix_rfl h
  rw [hwhole rfl, leadingPoints_linesOf M.points] at hrows halloc
  exact ⟨SnapshotMetadata.ext hhash hindex htimestamp (Table.ext hrows), halloc⟩

end Metadata

end Entangled
