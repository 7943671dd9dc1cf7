import Entangled.Snapshot.Text
/-!
# Snapshot metadata as text

The text of a snapshot's metadata is its hash, its index, its timestamp, the
number of its entry points and of its seen milestones, each on a line, and then
a line for every entry point. The node keeps no seen milestones and writes that
there are none.

`iota_snapshot_metadata_serialized_str_size` announces room for the lines of
hash, index and timestamp, with twenty digits each, and for those of the entry
points; the two counts and the NUL have none (`survives_iff`). The reader does
not look at the separators and checks no length (`rejects_iff`).
-/

namespace Entangled

namespace Metadata

open Snapshot Ternary Trinary Tokens Decimal

/-- `snapshot_metadata_t`. -/
structure SnapshotMetadata where
  hash : List FlexTrit
  index : UInt64
  timestamp : UInt64
  solidEntryPoints : Table (Prod.fst : List FlexTrit × UInt64 → List FlexTrit)

variable {E : Encoding} {front tail buffer str str' text : List Int8} {n offset offset' : ℕ}
variable {es : List (List FlexTrit × UInt64)}

/-! ## Writing -/

/-- `hash_to_uint64_t_map_size`. The hash table counts its entries in an `unsigned`. -/
def mapSize (m : SnapshotMetadata) : ℕ := m.solidEntryPoints.rows.length % 2 ^ 32

/-- `iota_snapshot_metadata_serialized_str_size`. -/
def serializedStrSize (m : SnapshotMetadata) : ℕ :=
  81 + 1 + 20 + 1 + 20 + 1 + mapSize m * (20 + 1 + 81 + 1)

/-- `sprintf` of numbers, each on a line: the offset behind them, and the buffer. -/
def putNumbers : List ℕ → ℕ → List Int8 → Option (ℕ × List Int8)
  | [], offset, str => some (offset, str)
  | n :: ns, offset, str =>
    (put str offset (decimal n ++ [10, 0])).bind fun str =>
      putNumbers ns (offset + ((decimal n).length + 1)) str

/-- Entry points as lines. -/
def linesOf (es : List (List FlexTrit × UInt64)) : List (List FlexTrit × List Int8) :=
  es.map fun e => (e.1, decimal e.2.toNat)

/-- `iota_snapshot_metadata_serialize_str`. -/
def serializeStr (E : Encoding) (m : SnapshotMetadata) (str : List Int8) :
    Option (Except TextRetcode Unit × List Int8) :=
  (putTrytes E str 0 m.hash).bind fun (str, numTrits) =>
    if numTrits ≠ 243 then some (.error .snapshotMetadataFailedSerializing, str)
    else
      (put str 81 [10]).bind fun str =>
        -- the last number is that of the seen milestones
        (putNumbers [m.index.toNat, m.timestamp.toNat, mapSize m, 0] 82 str).bind
          fun (offset, str) =>
            (putLines E (2 ^ 64) (linesOf m.solidEntryPoints.rows) offset str).bind
              fun (converted, offset, str) =>
                if converted then (put str offset [0]).map fun str => (.ok (), str)
                else some (.error .snapshotMetadataFailedSerializing, str)

/-- Numbers on lines of their own. -/
def numberLines (ns : List ℕ) : List Int8 := ns.flatMap fun n => decimal n ++ [10]

/-- The text of metadata. -/
def textOf (E : Encoding) (m : SnapshotMetadata) : List Int8 :=
  trytesOf E m.hash ++ [10] ++
    numberLines [m.index.toNat, m.timestamp.toNat, mapSize m, 0] ++
      Snapshot.text E (linesOf m.solidEntryPoints.rows)

theorem numberLines_cons (n : ℕ) (ns : List ℕ) :
    numberLines (n :: ns) = decimal n ++ [10] ++ numberLines ns := List.flatMap_cons

theorem length_numberLines_cons (n : ℕ) (ns : List ℕ) :
    (numberLines (n :: ns)).length = (decimal n).length + 1 + (numberLines ns).length := by
  rw [numberLines_cons, List.length_append, List.length_append, List.length_singleton]

/-- Numbers are written where there is room for their lines and a NUL. -/
theorem putNumbers_eq (front : List Int8) (ns : List ℕ)
    (h : (numberLines ns).length < tail.length) :
    ∃ tail', tail'.length + (numberLines ns).length = tail.length ∧
      putNumbers ns front.length (front ++ tail) =
        some ((front ++ numberLines ns).length, front ++ numberLines ns ++ tail') := by
  induction ns generalizing front tail with
  | nil => exact ⟨tail, rfl, by simp [putNumbers, numberLines]⟩
  | cons n ns ih =>
    have hlen := length_numberLines_cons n ns
    have hput := put_append front (show (decimal n ++ [10, 0]).length ≤ tail.length by
      rw [List.length_append, List.length_cons, List.length_singleton]; omega)
    have hdigits : (decimal n ++ [10, 0]).length = (decimal n).length + 2 := by
      rw [List.length_append, List.length_cons, List.length_singleton]
    rw [hdigits] at hput
    obtain ⟨tail', htail', hrest⟩ := ih (front ++ (decimal n ++ [10]))
      (show _ < (0 :: tail.drop ((decimal n).length + 2)).length by
        rw [List.length_cons, List.length_drop]; omega)
    rw [List.length_cons, List.length_drop] at htail'
    have hfront : (front ++ (decimal n ++ [10])).length = front.length + ((decimal n).length + 1) := by
      rw [List.length_append, List.length_append, List.length_singleton]
    have hsplit : front ++ (decimal n ++ [10, 0]) ++ tail.drop ((decimal n).length + 2) =
        front ++ (decimal n ++ [10]) ++ 0 :: tail.drop ((decimal n).length + 2) := by
      simp
    refine ⟨tail', by omega, ?_⟩
    rw [putNumbers, hput, Option.bind_some, hsplit, ← hfront, hrest, numberLines_cons,
      List.append_assoc front]

/-- Numbers that are written are behind where they start. -/
theorem putNumbers_fits {ns : List ℕ} (h : putNumbers ns offset str = some (offset', str')) :
    offset' = offset + (numberLines ns).length ∧ str'.length = str.length := by
  induction ns generalizing offset str with
  | nil =>
    obtain ⟨rfl, rfl⟩ := Prod.mk.inj (Option.some.inj h)
    exact ⟨rfl, rfl⟩
  | cons n ns ih =>
    obtain ⟨str₁, hput, hrest⟩ := Option.bind_eq_some_iff.mp h
    obtain ⟨hoffset, hlen⟩ := ih hrest
    rw [hoffset, hlen, (put_length hput).2, length_numberLines_cons]
    exact ⟨by omega, rfl⟩

/-- Metadata with hashes for its hashes. -/
structure Hashed (E : Encoding) where
  data : SnapshotMetadata
  hash : IsHash E data.hash
  points : ∀ e ∈ data.solidEntryPoints.rows, IsHash E e.1

variable {M : Hashed E}

theorem Hashed.lines (M : Hashed E) :
    ∀ l ∈ linesOf M.data.solidEntryPoints.rows, IsHash E l.1 ∧ 0 ∉ l.2 := by
  intro l hl
  obtain ⟨e, he, rfl⟩ := List.mem_map.mp hl
  exact ⟨M.points e he, (decimal_not_mem _).2⟩

theorem Hashed.length_textOf (M : Hashed E) :
    (textOf E M.data).length =
      82 + (numberLines [M.data.index.toNat, M.data.timestamp.toNat, mapSize M.data, 0]).length +
        (Snapshot.text E (linesOf M.data.solidEntryPoints.rows)).length := by
  rw [textOf, List.length_append, List.length_append, List.length_append, M.hash.length_trytesOf,
    List.length_singleton]

theorem zero_not_mem_numberLines (ns : List ℕ) : 0 ∉ numberLines ns := by
  intro hmem
  obtain ⟨n, -, hmem⟩ := List.mem_flatMap.mp hmem
  rcases List.mem_append.mp hmem with hdigit | hline
  · exact (decimal_not_mem n).2 hdigit
  · exact absurd (List.mem_singleton.mp hline) (by decide)

theorem Hashed.zero_not_mem_textOf (M : Hashed E) : 0 ∉ textOf E M.data := by
  rw [textOf, List.mem_append, List.mem_append, List.mem_append]
  rintro (((htryte | hline) | hnumber) | htext)
  · exact zero_not_mem_alphabet (M.hash.mem_alphabet htryte)
  · exact absurd (List.mem_singleton.mp hline) (by decide)
  · exact zero_not_mem_numberLines _ hnumber
  · exact zero_not_mem_text (fun l hl => (M.lines l hl).1) (fun l hl => (M.lines l hl).2) htext

/-- What is written, with its NUL, fits the buffer. -/
theorem Hashed.written (M : Hashed E) (hbuffer : buffer.length < 2 ^ 64)
    (h : serializeStr E M.data buffer = some (.ok (), str)) :
    (textOf E M.data).length < buffer.length := by
  obtain ⟨⟨str₀, numTrits⟩, htrytes, h⟩ := Option.bind_eq_some_iff.mp h
  obtain ⟨rfl, -, hlen₀⟩ := M.hash.putTrytes_length htrytes
  dsimp only at h
  rw [if_neg (not_not.mpr rfl)] at h
  obtain ⟨str₁, hline, h⟩ := Option.bind_eq_some_iff.mp h
  obtain ⟨⟨offset₂, str₂⟩, hnumbers, h⟩ := Option.bind_eq_some_iff.mp h
  obtain ⟨⟨converted, offset₃, str₃⟩, hlines, h⟩ := Option.bind_eq_some_iff.mp h
  have hlen₁ := (put_length hline).2
  obtain ⟨hoffset₂, hlen₂⟩ := putNumbers_fits hnumbers
  have hlen : str₂.length = buffer.length := by omega
  have hls : ∀ l ∈ linesOf M.data.solidEntryPoints.rows, IsHash E l.1 := fun l hl => (M.lines l hl).1
  obtain ⟨rfl, hlen₃, -, hfits⟩ := putLines_offset hls hlines
  have hoffset₃ := hfits (hlen.symm ▸ hbuffer)
  dsimp only at h hlen₃
  rw [if_pos rfl] at h
  obtain ⟨str₄, hnul, -⟩ := Option.map_eq_some_iff.mp h
  have hfit := (put_length hnul).1
  rw [List.length_singleton] at hfit
  rw [M.length_textOf]
  omega

/-- Where the text and a NUL fit, the text is written. -/
theorem Hashed.write (M : Hashed E) (hcount : (textOf E M.data).length < 2 ^ 64)
    (hbuffer : (textOf E M.data).length < buffer.length) :
    ∃ str, serializeStr E M.data buffer = some (.ok (), str) ∧ stringOf str = textOf E M.data := by
  have hlen := M.length_textOf
  have hhash := M.hash.length_trytesOf
  have htrytes := M.hash.putTrytes_eq [] (show 81 ≤ buffer.length by omega)
  rw [List.nil_append, List.nil_append, List.length_nil] at htrytes
  have hline := put_append (trytesOf E M.data.hash)
    (show [(10 : Int8)].length ≤ (buffer.drop 81).length by
      rw [List.length_drop, List.length_singleton]; omega)
  rw [hhash] at hline
  obtain ⟨tail₁, htail₁, hnumbers⟩ := putNumbers_eq (trytesOf E M.data.hash ++ [10])
    [M.data.index.toNat, M.data.timestamp.toNat, mapSize M.data, 0]
    (show _ < ((buffer.drop 81).drop 1).length by rw [List.length_drop, List.length_drop]; omega)
  rw [List.length_drop, List.length_drop] at htail₁
  have hfront : (trytesOf E M.data.hash ++ [10]).length = 82 := by
    rw [List.length_append, hhash, List.length_singleton]
  rw [hfront] at hnumbers
  obtain ⟨tail₂, htail₂, hlines⟩ := putLines_eq
    (trytesOf E M.data.hash ++ [10] ++
      numberLines [M.data.index.toNat, M.data.timestamp.toNat, mapSize M.data, 0])
    (fun l hl => (M.lines l hl).1)
    (show _ + (Snapshot.text E (linesOf M.data.solidEntryPoints.rows)).length < 2 ^ 64 by
      rw [List.length_append, hfront]; omega)
    (show (Snapshot.text E (linesOf M.data.solidEntryPoints.rows)).length < tail₁.length by omega)
  have hnul := put_append (textOf E M.data)
    (show [(0 : Int8)].length ≤ tail₂.length by rw [List.length_singleton]; omega)
  have hend : (trytesOf E M.data.hash ++ [10] ++
      numberLines [M.data.index.toNat, M.data.timestamp.toNat, mapSize M.data, 0]).length +
        (Snapshot.text E (linesOf M.data.solidEntryPoints.rows)).length =
      (textOf E M.data).length := List.length_append.symm
  refine ⟨textOf E M.data ++ [0] ++ tail₂.drop 1, ?_, ?_⟩
  · rw [serializeStr, htrytes, Option.bind_some]
    dsimp only
    rw [if_neg (not_not.mpr rfl), hline, Option.bind_some, List.length_singleton, hnumbers,
      Option.bind_some]
    dsimp only
    rw [hlines, hend, Option.bind_some]
    dsimp only
    rw [if_pos rfl, ← textOf, hnul]
    rfl
  · rw [List.append_assoc]
    exact stringOf_append M.zero_not_mem_textOf

/-! ## Reading -/

/-- Metadata that is read, with the numbers read beside it and the outcomes of the next
allocations. -/
structure Reader where
  metadata : SnapshotMetadata
  numSolidEntryPoints : UInt64
  numSeenEntryPoint : UInt64
  alloc : List Bool

/-- `sscanf` with `PRIu64`: a number that an `uint64_t` does not hold is undefined, and `some none`
is no number. A number with a minus is taken modulo `2 ^ 64`. -/
def scanUInt64 (text : List Int8) : Option (Option (UInt64 × List Int8)) :=
  match scan text with
  | none => some none
  | some s => if s.magnitude < 2 ^ 64 then some (some (UInt64.ofInt s.value, s.rest)) else none

/-- A number with what is behind it and the character it ends with. What was scanned is counted
in an `int`, and behind the end of the text nothing can be read. -/
def scanField (text : List Int8) : Option (Option (UInt64 × List Int8)) :=
  (scanUInt64 text).bind fun
    | none => some none
    | some (value, rest) =>
      if text.length - rest.length < 2 ^ 31 ∧ rest ≠ [] then some (some (value, rest.tail)) else none

/-- So many numbers, up to the first one that is none; and the text behind all of them. -/
def scanFields : ℕ → List Int8 → Option (List UInt64 × Option (List Int8))
  | 0, text => some ([], some text)
  | k + 1, text =>
    (scanField text).bind fun
      | none => some ([], none)
      | some (value, text) => (scanFields k text).map fun p => (value :: p.1, p.2)

/-- Where the numbers go. -/
def fields : List (UInt64 → Reader → Reader) :=
  [fun v s => { s with metadata := { s.metadata with index := v } },
    fun v s => { s with metadata := { s.metadata with timestamp := v } },
    fun v s => { s with numSolidEntryPoints := v },
    fun v s => { s with numSeenEntryPoint := v }]

/-- Numbers put where they go. -/
def Reader.setFields (s : Reader) (values : List UInt64) : Reader :=
  (fields.zip values).foldl (fun s p => p.1 p.2 s) s

/-- `hash_to_uint64_t_map_add` to the entry points: whether there was memory. -/
def Reader.mapAdd (s : Reader) (hash : List FlexTrit) (index : UInt64) : Bool × Reader :=
  if hash ∈ s.metadata.solidEntryPoints.keys then (true, s)
  else
    let added := { s with
      metadata := { s.metadata with
        solidEntryPoints := s.metadata.solidEntryPoints.insert (hash, index) }
      alloc := s.alloc.tail }
    match s.alloc with
    | true :: _ => (false, { s with alloc := s.alloc.tail })
    | _ => (true, added)

/-- The loop of `iota_snapshot_metadata_deserialize_str`, on the records that `strtok` cuts. -/
def deserializeLoop (E : Encoding) : List (Record Int8) → Reader →
    Option (Except TextRetcode Unit × Reader)
  | [], s => some (.ok (), s)
  | r :: rs, s =>
    (readTrytes E (keyMemory r)).bind fun (currHash, numTrytes) =>
      if numTrytes ≠ 81 then some (.error .snapshotMetadataFailedDeserializing, s)
      else
        match r.value with
        | none => some (.ok (), s)
        | some token =>
          (scanUInt64 token).bind fun
            | none => some (.error .snapshotMetadataFailedDeserializing, s)
            | some (snapshotIndex, _) =>
              match s.mapAdd currHash snapshotIndex with
              | (false, s) => some (.error (.of .oom), s)
              | (true, s) => deserializeLoop E rs s

/-- `iota_snapshot_metadata_deserialize_str`. -/
def deserializeStr (E : Encoding) (text : List Int8) (s : Reader) :
    Option (Except TextRetcode Unit × Reader) :=
  (readTrytes E (text ++ [0])).bind fun (read, numTrytes) =>
    let s := { s with metadata := { s.metadata with hash := read } }
    if numTrytes ≠ 81 then some (.error .snapshotMetadataFailedDeserializing, s)
    else if text.length < 82 then none
    else
      (scanFields 4 (text.drop 82)).bind fun (values, text) =>
        let s := s.setFields values
        match text with
        | none => some (.error .snapshotMetadataFailedDeserializing, s)
        | some text =>
          deserializeLoop E ((records 59 10 text).take s.numSolidEntryPoints.toNat) s

/-! ## There and back -/

/-- **Metadata survives as text**: written to a buffer of the size announced, and read again into
metadata without entry points. -/
def RoundTrip (E : Encoding) (m : SnapshotMetadata) : Prop :=
  ∀ buffer : List Int8, buffer.length = serializedStrSize m →
    ∀ s : Reader, s.metadata.solidEntryPoints = Table.empty → s.alloc = [] →
      ∃ str s', serializeStr E m buffer = some (.ok (), str) ∧
        deserializeStr E (stringOf str) s = some (.ok (), s') ∧
        s'.metadata.hash = m.hash ∧ s'.metadata.index = m.index ∧
        s'.metadata.timestamp = m.timestamp ∧
        ∀ a, s'.metadata.solidEntryPoints.find? a = m.solidEntryPoints.find? a

/-- A number is scanned as it was printed. -/
theorem scanUInt64_decimal {v : UInt64} (rest : List Int8)
    (hrest : ∀ c ∈ rest.head?, isDigit c = false) :
    scanUInt64 (decimal v.toNat ++ rest) = some (some (v, rest)) := by
  have hvalue : UInt64.ofInt (Scanned.value ⟨false, v.toNat, rest⟩) = v := by
    have hlt := v.toNat_lt
    show UInt64.ofNat ((v.toNat : ℤ) % 2 ^ 64).toNat = v
    have hmod : ((v.toNat : ℤ) % 2 ^ 64).toNat = v.toNat := by omega
    rw [hmod]
    exact UInt64.ofNat_toNat
  rw [scanUInt64, scan_decimal v.toNat rest hrest]
  dsimp only
  rw [hvalue, if_pos v.toNat_lt]

theorem scanField_decimal (v : UInt64) (rest : List Int8) :
    scanField (decimal v.toNat ++ [10] ++ rest) = some (some (v, rest)) := by
  have hwidth := (length_decimal_le_iff (k := 20) (n := v.toNat) (by decide)).mpr
    (v.toNat_lt.trans (by decide))
  have hscan := scanUInt64_decimal (v := v) (10 :: rest) (by simp [isDigit])
  rw [List.append_assoc, List.singleton_append, scanField, hscan, Option.bind_some]
  dsimp only
  rw [if_pos, List.tail_cons]
  refine ⟨?_, List.cons_ne_nil _ _⟩
  rw [List.length_append]
  omega

/-- Numbers on lines are scanned as they were printed. -/
theorem scanFields_numberLines (vs : List UInt64) (rest : List Int8) :
    scanFields vs.length (numberLines (vs.map UInt64.toNat) ++ rest) = some (vs, some rest) := by
  induction vs with
  | nil => rfl
  | cons v vs ih =>
    rw [List.length_cons, List.map_cons, numberLines_cons, List.append_assoc, scanFields,
      scanField_decimal, Option.bind_some]
    dsimp only
    rw [ih]
    rfl

/-- The reader, once the four numbers are read. -/
theorem deserializeStr_eq {hash : List FlexTrit} {index timestamp count seen : UInt64}
    {rest : List Int8} (s : Reader) (hread : readTrytes E (text ++ [0]) = some (hash, n))
    (hlen : 82 ≤ text.length)
    (hnumbers : scanFields 4 (text.drop 82) = some ([index, timestamp, count, seen], some rest)) :
    deserializeStr E text s = deserializeLoop E ((records 59 10 rest).take count.toNat)
      ⟨⟨hash, index, timestamp, s.metadata.solidEntryPoints⟩, count, seen, s.alloc⟩ := by
  obtain rfl := readTrytes_count hread
  rw [deserializeStr, hread, Option.bind_some]
  dsimp only
  rw [if_neg (not_not.mpr rfl), if_neg (Nat.not_lt.mpr hlen), hnumbers, Option.bind_some]
  rfl

/-- A new entry point, with memory to spare. -/
theorem Reader.mapAdd_nil {s : Reader} {a : List FlexTrit} {v : UInt64}
    (hmem : a ∉ s.metadata.solidEntryPoints.keys) (halloc : s.alloc = []) :
    s.mapAdd a v = (true, { s with
      metadata := { s.metadata with solidEntryPoints := s.metadata.solidEntryPoints.insert (a, v) }
      alloc := [] }) := by
  simp only [Reader.mapAdd, if_neg hmem, halloc, List.tail_nil]

/-- Entry points are read as they were written. -/
theorem deserializeLoop_lines (hes : ∀ e ∈ es, IsHash E e.1) {s : Reader}
    (hnd : (s.metadata.solidEntryPoints.keys ++ es.map Prod.fst).Nodup) (halloc : s.alloc = []) :
    ∃ s', deserializeLoop E (records 59 10 (Snapshot.text E (linesOf es))) s = some (.ok (), s') ∧
      s'.metadata.hash = s.metadata.hash ∧ s'.metadata.index = s.metadata.index ∧
      s'.metadata.timestamp = s.metadata.timestamp ∧
      s'.metadata.solidEntryPoints.rows = s.metadata.solidEntryPoints.rows ++ es := by
  induction es generalizing s with
  | nil => exact ⟨s, rfl, rfl, rfl, rfl, (List.append_nil _).symm⟩
  | cons e es ih =>
    have he := hes e List.mem_cons_self
    have htext : Snapshot.text E (linesOf (e :: es)) =
        line E e.1 (decimal e.2.toNat) ++ Snapshot.text E (linesOf es) := text_cons
    have hmem : e.1 ∉ s.metadata.solidEntryPoints.keys := by
      rw [List.map_cons, List.nodup_append] at hnd
      exact fun hx => hnd.2.2 e.1 hx e.1 List.mem_cons_self rfl
    have hscan := scanUInt64_decimal (v := e.2) [] (by simp)
    rw [List.append_nil] at hscan
    have hkeys : (s.metadata.solidEntryPoints.insert e).keys =
        s.metadata.solidEntryPoints.keys ++ [e.1] := by
      rw [Table.keys, Table.rows_insert hmem, List.map_append]
      rfl
    rw [htext, records_line he _ (decimal_not_mem _).1 (decimal_ne_nil _), deserializeLoop,
      readTrytes_recordOf he, Option.bind_some]
    dsimp only
    rw [if_neg (not_not.mpr rfl)]
    simp only [recordOf, hscan, Option.bind_some, Reader.mapAdd_nil hmem halloc]
    obtain ⟨s', hrest, hhash, hindex, htimestamp, hrows⟩ := ih
      (fun e' he' => hes e' (List.mem_cons_of_mem _ he'))
      (s := { s with
        metadata := { s.metadata with
          solidEntryPoints := s.metadata.solidEntryPoints.insert (e.1, e.2) }
        alloc := [] })
      (by
        show ((s.metadata.solidEntryPoints.insert e).keys ++ es.map Prod.fst).Nodup
        rw [hkeys]
        simpa using hnd) rfl
    refine ⟨s', hrest, hhash, hindex, htimestamp, ?_⟩
    rw [hrows]
    show (s.metadata.solidEntryPoints.insert e).rows ++ es = _
    rw [Table.rows_insert hmem, List.append_assoc, List.singleton_append]

/-- The records of lines, one for each. -/
theorem length_records_lines (hes : ∀ e ∈ es, IsHash E e.1) :
    (records 59 10 (Snapshot.text E (linesOf es))).length = es.length := by
  induction es with
  | nil => rfl
  | cons e es ih =>
    have htext : Snapshot.text E (linesOf (e :: es)) =
        line E e.1 (decimal e.2.toNat) ++ Snapshot.text E (linesOf es) := text_cons
    rw [htext, records_line (hes e List.mem_cons_self) _ (decimal_not_mem _).1 (decimal_ne_nil _),
      List.length_cons, ih fun e' he' => hes e' (List.mem_cons_of_mem _ he'), List.length_cons]

theorem toNat_mapSize (m : SnapshotMetadata) : (UInt64.ofNat (mapSize m)).toNat = mapSize m := by
  have hlt : mapSize m < 2 ^ 32 := Nat.mod_lt _ (Nat.two_pow_pos 32)
  exact UInt64.toNat_ofNat_of_lt' (show mapSize m < 2 ^ 64 by omega)

/-- The hash at the head of the text. -/
theorem Hashed.readTrytes_textOf (M : Hashed E) :
    readTrytes E (textOf E M.data ++ [0]) = some (M.data.hash, 81) := by
  have hsplit : textOf E M.data ++ [0] = trytesOf E M.data.hash ++ ([10] ++
      numberLines [M.data.index.toNat, M.data.timestamp.toNat, mapSize M.data, 0] ++
        Snapshot.text E (linesOf M.data.solidEntryPoints.rows) ++ [0]) := by
    simp only [textOf, List.append_assoc]
  rw [hsplit, M.hash.readTrytes_eq]

/-- The four numbers behind the hash. -/
theorem Hashed.scanFields_textOf (M : Hashed E) :
    scanFields 4 ((textOf E M.data).drop 82) =
      some ([M.data.index, M.data.timestamp, UInt64.ofNat (mapSize M.data), 0],
        some (Snapshot.text E (linesOf M.data.solidEntryPoints.rows))) := by
  have hdrop : (textOf E M.data).drop 82 =
      numberLines [M.data.index.toNat, M.data.timestamp.toNat, mapSize M.data, 0] ++
        Snapshot.text E (linesOf M.data.solidEntryPoints.rows) := by
    rw [textOf, List.append_assoc, List.drop_left']
    rw [List.length_append, M.hash.length_trytesOf, List.length_singleton]
  have hnumbers := scanFields_numberLines
    [M.data.index, M.data.timestamp, UInt64.ofNat (mapSize M.data), 0]
    (Snapshot.text E (linesOf M.data.solidEntryPoints.rows))
  simp only [List.map_cons, List.map_nil, toNat_mapSize, UInt64.toNat_zero] at hnumbers
  rw [hdrop]
  exact hnumbers

/-- The text of metadata is read back. -/
theorem Hashed.read (M : Hashed E) (hcount : M.data.solidEntryPoints.rows.length < 2 ^ 32)
    {s : Reader} (hempty : s.metadata.solidEntryPoints = Table.empty) (halloc : s.alloc = []) :
    ∃ s', deserializeStr E (textOf E M.data) s = some (.ok (), s') ∧
      s'.metadata.hash = M.data.hash ∧ s'.metadata.index = M.data.index ∧
      s'.metadata.timestamp = M.data.timestamp ∧
      s'.metadata.solidEntryPoints = M.data.solidEntryPoints := by
  have hlen := M.length_textOf
  have hsize : mapSize M.data = M.data.solidEntryPoints.rows.length := Nat.mod_eq_of_lt hcount
  have hnd : (s.metadata.solidEntryPoints.keys ++ M.data.solidEntryPoints.keys).Nodup := by
    rw [hempty]
    exact M.data.solidEntryPoints.nodup
  obtain ⟨s', hloop, hh, hi, ht, hrows⟩ := deserializeLoop_lines M.points
    (s := ⟨⟨M.data.hash, M.data.index, M.data.timestamp, s.metadata.solidEntryPoints⟩,
      UInt64.ofNat (mapSize M.data), 0, s.alloc⟩) hnd halloc
  have htake : (records 59 10 (Snapshot.text E (linesOf M.data.solidEntryPoints.rows))).take
      (UInt64.ofNat (mapSize M.data)).toNat =
        records 59 10 (Snapshot.text E (linesOf M.data.solidEntryPoints.rows)) := by
    rw [toNat_mapSize, hsize, ← length_records_lines M.points, List.take_length]
  refine ⟨s', ?_, hh, hi, ht, Table.ext ?_⟩
  · rw [deserializeStr_eq s M.readTrytes_textOf (by omega) M.scanFields_textOf, htake, hloop]
  · rw [hrows, hempty]
    rfl

/-- The characters of the lines of entry points. -/
theorem length_text_linesOf (hes : ∀ e ∈ es, IsHash E e.1) :
    (Snapshot.text E (linesOf es)).length =
      83 * es.length + (es.map fun e => (decimal e.2.toNat).length).sum := by
  induction es with
  | nil => rfl
  | cons e es ih =>
    have hline : (Snapshot.text E (linesOf (e :: es))).length =
        (decimal e.2.toNat).length + 83 + (Snapshot.text E (linesOf es)).length :=
      length_text_cons _ (hes e List.mem_cons_self)
    rw [hline, ih fun e' he' => hes e' (List.mem_cons_of_mem _ he'), List.map_cons, List.sum_cons,
      List.length_cons]
    omega

/-- The room announced has twenty digits for each of the numbers and twenty more for what it
leaves out: it must take the digits, the two counts and the NUL. -/
def Fits (m : SnapshotMetadata) : Prop :=
  m.solidEntryPoints.rows.length < 2 ^ 32 ∧
    (decimal m.index.toNat).length + (decimal m.timestamp.toNat).length +
      (decimal m.solidEntryPoints.rows.length).length +
        (m.solidEntryPoints.rows.map fun e => (decimal e.2.toNat).length).sum ≤
      36 + 20 * m.solidEntryPoints.rows.length

/-- The text and its NUL fit the room announced. -/
theorem Hashed.fits_iff (M : Hashed E) :
    (textOf E M.data).length < serializedStrSize M.data ↔ Fits M.data := by
  have hzero : (decimal 0).length = 1 := rfl
  have hsize : mapSize M.data = M.data.solidEntryPoints.rows.length % 2 ^ 32 := rfl
  rw [M.length_textOf, length_text_linesOf M.points, serializedStrSize]
  simp only [length_numberLines_cons, hzero]
  have hnil : (numberLines []).length = 0 := rfl
  have hcount := length_decimal_pos (mapSize M.data)
  have hindex := length_decimal_pos M.data.index.toNat
  have htimestamp := length_decimal_pos M.data.timestamp.toNat
  constructor
  · intro h
    have hlt : M.data.solidEntryPoints.rows.length < 2 ^ 32 := by
      by_contra hge
      omega
    rw [hsize, Nat.mod_eq_of_lt hlt] at h hcount
    exact ⟨hlt, by omega⟩
  · rintro ⟨hlt, hle⟩
    rw [hsize, Nat.mod_eq_of_lt hlt]
    omega

theorem serializedStrSize_lt (m : SnapshotMetadata) : serializedStrSize m < 2 ^ 64 := by
  have hsize : mapSize m < 2 ^ 32 := Nat.mod_lt _ (Nat.two_pow_pos 32)
  rw [serializedStrSize]
  omega

/-- **Exactly when metadata survives as text**: its digits fit the room announced. -/
theorem survives_iff (M : Hashed E) : RoundTrip E M.data ↔ Fits M.data := by
  have hsize := serializedStrSize_lt M.data
  rw [← M.fits_iff]
  constructor
  · intro H
    have hbuffer : (List.replicate (serializedStrSize M.data) (0 : Int8)).length =
        serializedStrSize M.data := List.length_replicate
    obtain ⟨str, -, hwrite, -⟩ := H _ hbuffer ⟨⟨[], 0, 0, Table.empty⟩, 0, 0, []⟩ rfl rfl
    have hlt := M.written (hbuffer.symm ▸ hsize) hwrite
    rwa [hbuffer] at hlt
  · intro hfits buffer hbuffer s hempty halloc
    obtain ⟨str, hwrite, htext⟩ := M.write (hfits.trans hsize) (hbuffer.symm ▸ hfits)
    obtain ⟨s', hread, hhash, hindex, htimestamp, hpoints⟩ :=
      M.read (M.fits_iff.mp hfits).1 hempty halloc
    exact ⟨str, s', hwrite, htext ▸ hread, hhash, hindex, htimestamp, fun a => by rw [hpoints]⟩

/-! ## Texts that are not of this form -/

/-- A number in digits that an `uint64_t` holds. -/
def Number (cs : List Int8) : Prop :=
  cs ≠ [] ∧ (∀ c ∈ cs, isDigit c = true) ∧ number cs < 2 ^ 64

/-- Trytes of a hash. -/
def Trytes (cs : List Int8) : Prop := cs.length = 81 ∧ ∀ c ∈ cs, c ∈ tryteAlphabet

/-- Lines of a hash and a number. -/
def Lines : List (List Int8 × List Int8) → List Int8
  | [] => []
  | l :: ls => l.1 ++ 59 :: (l.2 ++ 10 :: Lines ls)

/-- **The format of the file**: the hash, the four numbers, and as many lines as the last two of
them say, the seen milestones behind the entry points. -/
structure WellFormed (text : List Int8) : Prop where
  form : ∃ hash index timestamp count seen : List Int8,
    ∃ points milestones : List (List Int8 × List Int8),
      Trytes hash ∧ (∀ cs ∈ [index, timestamp, count, seen], Number cs) ∧
        (∀ l ∈ points ++ milestones, Trytes l.1 ∧ Number l.2) ∧
        points.length = number count ∧ milestones.length = number seen ∧
        text = hash ++ 10 :: (index ++ 10 :: (timestamp ++ 10 :: (count ++ 10 :: (seen ++ 10 ::
          Lines (points ++ milestones)))))

/-- **A malformed text is refused** without a read behind its end. -/
def Rejects (E : Encoding) (text : List Int8) : Prop :=
  ¬ WellFormed text →
    ∀ s : Reader, s.metadata.solidEntryPoints = Table.empty →
      ∃ ret s', deserializeStr E text s = some (ret, s') ∧ ret ≠ .ok ()

/-- What is wrong with a record that adds no entry point. -/
inductive Flaw
  | undefined
  | malformed
  | cut
  deriving DecidableEq

/-- The entry point of a record. -/
def pointOf (E : Encoding) (r : Record Int8) : Except Flaw (List FlexTrit × UInt64) :=
  match readTrytes E (keyMemory r) with
  | none => .error .undefined
  | some (currHash, _) =>
    match r.value with
    | none => .error .cut
    | some token =>
      match scanUInt64 token with
      | none => .error .undefined
      | some none => .error .malformed
      | some (some (index, _)) => .ok (currHash, index)

/-- What is wrong with the first record that adds no entry point. -/
def flawOf (E : Encoding) : List (Record Int8) → Option Flaw
  | [] => none
  | r :: rs =>
    match pointOf E r with
    | .error f => some f
    | .ok _ => flawOf E rs

/-- A text that is read up to a number which is none: one of the four behind the hash, or that of an
entry point. -/
def StopsAtNumber (E : Encoding) (text : List Int8) : Prop :=
  82 ≤ text.length ∧ readTrytes E (text ++ [0]) ≠ none ∧
    ((∃ values, scanFields 4 (text.drop 82) = some (values, none)) ∨
      ∃ index timestamp count seen rest,
        scanFields 4 (text.drop 82) = some ([index, timestamp, count, seen], some rest) ∧
          flawOf E ((records 59 10 rest).take count.toNat) = some .malformed)

/-- One record, for what it says. -/
theorem deserializeLoop_cons {r : Record Int8} {rs : List (Record Int8)} {s : Reader} :
    deserializeLoop E (r :: rs) s =
      match pointOf E r with
      | .error .undefined => none
      | .error .malformed => some (.error .snapshotMetadataFailedDeserializing, s)
      | .error .cut => some (.ok (), s)
      | .ok e =>
        match s.mapAdd e.1 e.2 with
        | (false, s) => some (.error (.of .oom), s)
        | (true, s) => deserializeLoop E rs s := by
  rw [deserializeLoop, pointOf]
  rcases hread : readTrytes E (keyMemory r) with _ | ⟨hash, n⟩
  · rfl
  obtain rfl := readTrytes_count hread
  rw [Option.bind_some]
  dsimp only
  rw [if_neg (not_not.mpr rfl)]
  rcases r.value with _ | token
  · rfl
  dsimp only
  rcases scanUInt64 token with _ | _ | ⟨index, rest⟩
  · rfl
  · rfl
  · rfl

/-- A number that is none is an error, if there is memory up to there or not. -/
theorem deserializeLoop_malformed {rs : List (Record Int8)} (s : Reader)
    (h : flawOf E rs = some .malformed) :
    ∃ ret s', deserializeLoop E rs s = some (ret, s') ∧ ret ≠ .ok () := by
  induction rs generalizing s with
  | nil => contradiction
  | cons r rs ih =>
    rw [flawOf] at h
    rw [deserializeLoop_cons]
    rcases hpoint : pointOf E r with f | e
    · rw [hpoint] at h
      obtain rfl := Option.some.inj h
      exact ⟨_, _, rfl, by simp⟩
    · rw [hpoint] at h
      dsimp only
      rcases s.mapAdd e.1 e.2 with ⟨_ | _, s₁⟩
      · exact ⟨_, _, rfl, by simp⟩
      · exact ih s₁ h

/-- With memory to spare nothing else is an error. -/
theorem malformed_of_error {rs : List (Record Int8)} {s s' : Reader}
    {ret : Except TextRetcode Unit} (halloc : s.alloc = [])
    (h : deserializeLoop E rs s = some (ret, s')) (hret : ret ≠ .ok ()) :
    flawOf E rs = some .malformed := by
  induction rs generalizing s with
  | nil => exact absurd (Prod.mk.inj (Option.some.inj h)).1.symm hret
  | cons r rs ih =>
    rw [deserializeLoop_cons] at h
    rw [flawOf]
    rcases hpoint : pointOf E r with f | e
    · rw [hpoint] at h
      cases f with
      | undefined => contradiction
      | malformed => rfl
      | cut => exact absurd (Prod.mk.inj (Option.some.inj h)).1.symm hret
    · rw [hpoint] at h
      dsimp only at h ⊢
      by_cases hmem : e.1 ∈ s.metadata.solidEntryPoints.keys
      · rw [Reader.mapAdd, if_pos hmem] at h
        exact ih halloc h
      · rw [Reader.mapAdd_nil hmem halloc] at h
        exact ih rfl h

/-- Numbers that are all there are as many as asked for. -/
theorem scanFields_length {k : ℕ} {values : List UInt64} {rest : List Int8}
    (h : scanFields k text = some (values, some rest)) : values.length = k := by
  induction k generalizing text values with
  | zero =>
    obtain ⟨rfl, -⟩ := Prod.mk.inj (Option.some.inj h)
    rfl
  | succ k ih =>
    rw [scanFields] at h
    obtain ⟨_ | ⟨value, behind⟩, -, h⟩ := Option.bind_eq_some_iff.mp h
    · exact absurd (Prod.mk.inj (Option.some.inj h)).2 (by simp)
    · obtain ⟨⟨values', rest'⟩, hrest, heq⟩ := Option.map_eq_some_iff.mp h
      obtain ⟨rfl, rfl⟩ := Prod.mk.inj heq
      rw [List.length_cons, ih hrest]

/-- A reader that stops at a number refuses the text, whatever memory there is. -/
theorem StopsAtNumber.error (h : StopsAtNumber E text) (s : Reader) :
    ∃ ret s', deserializeStr E text s = some (ret, s') ∧ ret ≠ .ok () := by
  obtain ⟨hlen, hread, hstop⟩ := h
  obtain ⟨⟨hash, n⟩, hread⟩ := Option.ne_none_iff_exists'.mp hread
  rcases hstop with ⟨values, hnone⟩ | ⟨index, timestamp, count, seen, rest, hnumbers, hflaw⟩
  · obtain rfl := readTrytes_count hread
    have hrun : deserializeStr E text s = some (.error .snapshotMetadataFailedDeserializing,
        Reader.setFields { s with metadata := { s.metadata with hash := hash } } values) := by
      rw [deserializeStr, hread, Option.bind_some]
      dsimp only
      rw [if_neg (not_not.mpr rfl), if_neg (Nat.not_lt.mpr hlen), hnone]
      rfl
    exact ⟨_, _, hrun, by simp⟩
  · rw [deserializeStr_eq s hread hlen hnumbers]
    exact deserializeLoop_malformed _ hflaw

/-- With memory to spare, a text is refused only at a number. -/
theorem stopsAtNumber_of_error {s s' : Reader} {ret : Except TextRetcode Unit}
    (halloc : s.alloc = []) (h : deserializeStr E text s = some (ret, s')) (hret : ret ≠ .ok ()) :
    StopsAtNumber E text := by
  obtain ⟨⟨hash, n⟩, hread, hbehind⟩ := Option.bind_eq_some_iff.mp h
  have hdefined : readTrytes E (text ++ [0]) ≠ none := by
    rw [hread]
    exact Option.some_ne_none _
  obtain rfl := readTrytes_count hread
  dsimp only at hbehind
  rw [if_neg (not_not.mpr rfl)] at hbehind
  by_cases hlen : text.length < 82
  · rw [if_pos hlen] at hbehind
    contradiction
  rw [if_neg hlen] at hbehind
  obtain ⟨⟨values, _ | rest⟩, hnumbers, -⟩ := Option.bind_eq_some_iff.mp hbehind
  · exact ⟨Nat.not_lt.mp hlen, hdefined, Or.inl ⟨values, hnumbers⟩⟩
  · obtain ⟨index, timestamp, count, seen, rfl⟩ :=
      List.length_eq_four.mp (scanFields_length hnumbers)
    rw [deserializeStr_eq s hread (Nat.not_lt.mp hlen) hnumbers] at h
    have hflaw := malformed_of_error (s := ⟨⟨hash, index, timestamp, _⟩, count, seen, s.alloc⟩)
      halloc h hret
    exact ⟨Nat.not_lt.mp hlen, hdefined,
      Or.inr ⟨index, timestamp, count, seen, rest, hnumbers, hflaw⟩⟩

/-- **Exactly when a text is settled as it should**: it is of the format, or the reader stops at a
number that is none. -/
theorem rejects_iff (E : Encoding) (text : List Int8) :
    Rejects E text ↔ WellFormed text ∨ StopsAtNumber E text := by
  rw [Rejects, ← or_iff_not_imp_left]
  refine or_congr_right ⟨fun H => ?_, fun hstop s _ => hstop.error s⟩
  obtain ⟨ret, s', h, hret⟩ := H ⟨⟨[], 0, 0, Table.empty⟩, 0, 0, []⟩ rfl
  exact stopsAtNumber_of_error rfl h hret

/-- **Metadata as text**: what survives it, and which texts are settled as they should. -/
theorem metadata_iff (E : Encoding) :
    (∀ M : Hashed E, RoundTrip E M.data ↔ Fits M.data) ∧
      ∀ text, Rejects E text ↔ WellFormed text ∨ StopsAtNumber E text :=
  ⟨survives_iff, rejects_iff E⟩

/-- Metadata with one number for index and timestamp, and no entry points. -/
def pointless {a : List FlexTrit} (h : IsHash E a) (v : UInt64) : Hashed E where
  data := ⟨a, v, v, Table.empty⟩
  hash := h
  points _ he := absurd he List.not_mem_nil

/-- Two numbers of twenty digits leave no room for a count. -/
theorem not_fits_pointless {a : List FlexTrit} (h : IsHash E a) {v : UInt64}
    (hv : 10 ^ 19 ≤ v.toNat) : ¬ Fits (pointless h v).data := by
  rintro ⟨-, hle⟩
  have hdigits := length_decimal_le_iff (k := 19) (n := v.toNat) (by decide)
  have hroom : (decimal v.toNat).length + (decimal v.toNat).length + (decimal 0).length + 0 ≤
    36 + 20 * 0 := hle
  omega

/-- A line is known by where it ends. -/
theorem line_inj {cs cs' rest rest' : List Int8} (h : 10 ∉ cs) (h' : 10 ∉ cs')
    (heq : cs ++ 10 :: rest = cs' ++ 10 :: rest') : cs = cs' ∧ rest = rest' := by
  have hboundary : ∀ ds : List Int8, 10 ∉ ds → ∀ c ∈ ds, (c != 10) = true :=
    fun ds hds c hc => bne_iff_ne.mpr fun h10 => hds (h10 ▸ hc)
  obtain ⟨htake, hdrop⟩ := span_of_boundary cs (10 :: rest) (hboundary cs h) (by simp)
  obtain ⟨htake', hdrop'⟩ := span_of_boundary cs' (10 :: rest') (hboundary cs' h') (by simp)
  rw [← heq] at htake' hdrop'
  exact ⟨htake.symm.trans htake', (List.cons.inj (hdrop.symm.trans hdrop')).2⟩

theorem Number.not_mem {cs : List Int8} (h : Number cs) : 10 ∉ cs := by
  intro hmem
  exact absurd (h.2.1 10 hmem) (by decide)

/-- A text that ends before the entry points it says there are. -/
def truncated (E : Encoding) (a : List FlexTrit) : List Int8 :=
  trytesOf E a ++ 10 :: numberLines [0, 0, 1, 0]

theorem not_wellFormed_truncated {a : List FlexTrit} (h : IsHash E a) :
    ¬ WellFormed (truncated E a) := by
  rintro ⟨hash, index, timestamp, count, seen, points, milestones, hhash, hnumbers, -, hcount, -,
    heq⟩
  have hlines : numberLines [0, 0, 1, 0] = [48] ++ 10 :: ([48] ++ 10 :: ([49] ++ 10 ::
      ([48] ++ 10 :: []))) := by decide
  obtain ⟨-, heq⟩ := List.append_inj heq (h.length_trytesOf.trans hhash.1.symm)
  rw [hlines] at heq
  have hzero : (10 : Int8) ∉ [48] := by decide
  have hdigit : (10 : Int8) ∉ [49] := by decide
  obtain ⟨-, heq⟩ := line_inj hzero (hnumbers index (by simp)).not_mem (List.cons.inj heq).2
  obtain ⟨-, heq⟩ := line_inj hzero (hnumbers timestamp (by simp)).not_mem heq
  obtain ⟨hone, heq⟩ := line_inj hdigit (hnumbers count (by simp)).not_mem heq
  obtain ⟨-, heq⟩ := line_inj hzero (hnumbers seen (by simp)).not_mem heq
  have hpoints : points.length = 1 := hcount.trans (hone ▸ by decide)
  obtain ⟨l, rfl⟩ := List.length_eq_one_iff.mp hpoints
  exact absurd heq (by simp [Lines])

theorem deserializeStr_truncated {a : List FlexTrit} (h : IsHash E a) (s : Reader) :
    ∃ s', deserializeStr E (truncated E a) s = some (.ok (), s') := by
  have hhash := h.length_trytesOf
  have hsplit : truncated E a ++ [0] = trytesOf E a ++ (10 :: numberLines [0, 0, 1, 0] ++ [0]) := by
    rw [truncated, List.append_assoc]
  have hread : readTrytes E (truncated E a ++ [0]) = some (a, 81) := by
    rw [hsplit, h.readTrytes_eq]
  have hlen : 82 ≤ (truncated E a).length := by
    rw [truncated, List.length_append, List.length_cons]
    omega
  have hdrop : (truncated E a).drop 82 = numberLines [0, 0, 1, 0] ++ [] := by
    rw [truncated, List.drop_append, List.drop_of_length_le (by omega), hhash, List.append_nil]
    rfl
  have hnumbers : scanFields 4 ((truncated E a).drop 82) = some ([0, 0, 1, 0], some []) := by
    rw [hdrop]
    exact scanFields_numberLines [0, 0, 1, 0] []
  rw [deserializeStr_eq s hread hlen hnumbers]
  exact ⟨_, rfl⟩

/-- Numbers of twenty digits overrun the buffer, no text at all is read behind its end, and entry
points that are not there are not missed. -/
theorem metadata_fails :
    ¬ RoundTrip .three (pointless (isHash_zeros .three) 18446744073709551615).data ∧
      ¬ Rejects .three [] ∧
      ¬ Rejects .three (truncated .three (pack .three (List.replicate 243 0))) := by
  have hzeros := isHash_zeros .three
  refine ⟨fun H => ?_, fun H => ?_, fun H => ?_⟩
  · exact not_fits_pointless hzeros (by decide) ((survives_iff _).mp H)
  · have hmalformed : ¬ WellFormed [] := by
      rintro ⟨hash, index, timestamp, count, seen, points, milestones, -, -, -, -, -, heq⟩
      simp at heq
    obtain ⟨ret, s', hread, -⟩ := H hmalformed ⟨⟨[], 0, 0, Table.empty⟩, 0, 0, []⟩ rfl
    contradiction
  · obtain ⟨ret, s', hread, hret⟩ := H (not_wellFormed_truncated hzeros)
      ⟨⟨[], 0, 0, Table.empty⟩, 0, 0, []⟩ rfl
    obtain ⟨s₁, hok⟩ := deserializeStr_truncated hzeros ⟨⟨[], 0, 0, Table.empty⟩, 0, 0, []⟩
    rw [hok] at hread
    exact hret (Prod.mk.inj (Option.some.inj hread)).1.symm

end Metadata

end Entangled
