import Entangled.Snapshot.Cut
/-!
# The files of a snapshot

A snapshot is kept in two files, the state and the metadata, and `iota_snapshot_write_to_file`
overwrites the first and then the second in place. An `Attempt` says how far that comes: `fopen`
may fail, `fwrite` may say it wrote less than it should, what is buffered may not reach the file,
and the process may stop anywhere. In each case the file has a beginning of the text.

`load_interrupted` is what the node makes of the files afterwards. A state that is cut is refused,
but nothing ties the two files together.
-/

namespace Entangled

namespace SnapshotFiles

open Prog Snapshot StateDelta Metadata Ternary Trinary

variable {E : Encoding}

/-! ## Files -/

/-- What the functions on files return. The value of a comparison is no return code of the
library. -/
inductive FileRetcode
  | text (e : TextRetcode)
  | fileDoesNotExist
  | failedToOpenFile
  | failedReadFile
  | failedWriteFile
  | comparison
  deriving DecidableEq, Repr

/-- What becomes of an attempt to overwrite a file: what `fwrite` counts and what is in the file
after `fclose`, or what is in it when the process stops, if it was opened by then. -/
inductive Attempt
  | fails
  | writes (counted reached : ℕ)
  | stops (reached : Option ℕ)
  deriving DecidableEq, Repr

/-- `iota_utils_overwrite_file`, and the file. A process that stops returns nothing. -/
def overwriteFile (attempt : Attempt) (content : List Int8) (file : Option (List Int8)) :
    Option (Except FileRetcode Unit) × Option (List Int8) :=
  match attempt with
  | .fails => (some (.error .failedToOpenFile), file)
  | .writes counted reached =>
    (some (if counted < content.length then .error .failedWriteFile else .ok ()),
      some (content.take reached))
  | .stops none => (none, file)
  | .stops (some reached) => (none, some (content.take reached))

/-- What becomes of an attempt to read a file. -/
inductive Reading
  | denied
  | unsized
  | failed
  | whole
  deriving DecidableEq, Repr

/-- `iota_utils_read_file_into_buffer`. There is no buffer where `fseek` does not find the end of
the file, and no error either. -/
def readFileIntoBuffer (reading : Reading) (file : Option (List Int8)) :
    Except FileRetcode (Option (List Int8)) :=
  match file, reading with
  | none, _ => .error .fileDoesNotExist
  | some _, .denied => .error .failedToOpenFile
  | some _, .unsized => .ok none
  | some _, .failed => .error .failedReadFile
  | some content, .whole => .ok (some content)

/-! ## Snapshots -/

/-- `snapshot_t`. -/
structure Snapshot where
  state : StateDelta (List FlexTrit)
  metadata : SnapshotMetadata

/-- The two files in the directory of the snapshots. -/
structure Files where
  state : Option (List Int8)
  metadata : Option (List Int8)
  deriving DecidableEq

/-- The room for either text. -/
def bufferSize (s : Snapshot) : ℕ :=
  max (StateDelta.serializedStrSize s.state) (Metadata.serializedStrSize s.metadata)

/-- `iota_snapshot_write_to_file`, with what becomes of the two files. -/
def writeToFile (E : Encoding) (s : Snapshot) (memory : Bool) (first second : Attempt)
    (files : Files) : Option (Option (Except FileRetcode Unit) × Files) :=
  if memory = false then some (some (.error (.text (.of .oom))), files)
  else
    (StateDelta.serializeStr E s.state (List.replicate (bufferSize s) 0)).bind fun
      | (.error e, _) => some (some (.error (.text e)), files)
      | (.ok _, buffer) =>
        match overwriteFile first (stringOf buffer) files.state with
        | (some (.ok _), file) =>
          (Metadata.serializeStr E s.metadata buffer).bind fun
            | (.error e, _) => some (some (.error (.text e)), { files with state := file })
            | (.ok _, buffer) =>
              let p := overwriteFile second (stringOf buffer) files.metadata
              some (p.1, ⟨file, p.2⟩)
        | (ret, file) => some (ret, { files with state := file })

/-- `iota_snapshot_reset`. The hash is left as it is. -/
def reset (s : Snapshot) : Snapshot :=
  ⟨Table.empty, { s.metadata with index := 0, timestamp := 0, solidEntryPoints := Table.empty }⟩

/-- `iota_snapshot_metadata_read_from_file`. -/
def metadataReadFromFile (E : Encoding) (reading : Reading) (file : Option (List Int8))
    (r : Reader) : Option (Except FileRetcode Unit × Reader) :=
  match readFileIntoBuffer reading file with
  | .error e => some (.error e, r)
  | .ok none => some (.ok (), r)
  | .ok (some buffer) =>
    (Metadata.deserializeStr E (stringOf buffer) r).map fun p => (p.1.mapError .text, p.2)

/-- `iota_snapshot_state_read_from_file`. -/
def stateReadFromFile (E : Encoding) (reading : Reading) (file : Option (List Int8))
    (m : Heap (List FlexTrit)) : Option (Except FileRetcode Unit × Heap (List FlexTrit)) :=
  match readFileIntoBuffer reading file with
  | .error e => some (.error e, m)
  | .ok none => some (.ok (), m)
  | .ok (some buffer) =>
    (StateDelta.deserializeStr E (stringOf buffer) m).map fun p => (p.1.mapError .text, p.2)

/-- `iota_snapshot_load_local_snapshot`, with what becomes of reading the two files and with the
outcomes of the allocations. -/
def loadLocalSnapshot (E : Encoding) (files : Files) (first second : Reading)
    (alloc : List Bool) (s : Snapshot) : Option (Except FileRetcode Unit × Snapshot) :=
  (metadataReadFromFile E first files.metadata ⟨s.metadata, 0, 0, alloc⟩).bind fun
    -- `ret` is what the comparison with `RC_OK` gives
    | (.error _, r) => some (.error .comparison, ⟨s.state, r.metadata⟩)
    | (.ok _, r) =>
      (stateReadFromFile E second files.state ⟨s.state, r.alloc⟩).map fun p =>
        (p.1, ⟨p.2.state, r.metadata⟩)

/-! ## Snapshots that can be written -/

/-- A snapshot whose texts can be written: a ledger, hashes where there should be, and room for
either text and its NUL, with no offset that wraps. -/
structure Storable (E : Encoding) where
  ledger : LedgerState E
  hashed : Hashed E
  offsets : (ledger.delta.rows.map lineSize).sum < 2 ^ 32
  stateRoom : (ledger.delta.rows.map lineSize).sum < bufferSize ⟨ledger.delta, hashed.data⟩
  metadataRoom : (textOf E hashed.data).length < bufferSize ⟨ledger.delta, hashed.data⟩
  points : hashed.data.solidEntryPoints.rows.length < 2 ^ 32

namespace Storable

variable (W : Storable E)

def snapshot : Snapshot := ⟨W.ledger.delta, W.hashed.data⟩

def stateText : List Int8 := text E (StateDelta.linesOf W.ledger.delta.rows)

def metadataText : List Int8 := textOf E W.hashed.data

/-- The two files with the texts. -/
def files : Files := ⟨some W.stateText, some W.metadataText⟩

theorem length_stateText : W.stateText.length = (W.ledger.delta.rows.map lineSize).sum :=
  StateDelta.length_text_linesOf W.ledger.entries

theorem zero_not_mem_stateText : 0 ∉ W.stateText := by
  refine zero_not_mem_text (fun l hl => ?_) (fun l hl => ?_)
  · obtain ⟨e, he, rfl⟩ := List.mem_map.mp hl
    exact W.ledger.hashes e he
  · obtain ⟨e, he, rfl⟩ := List.mem_map.mp hl
    rw [(printInt64_of_nonneg (W.ledger.nonneg e he)).2]
    exact (decimal_not_mem _).2

theorem zero_not_mem_metadataText : 0 ∉ W.metadataText := W.hashed.zero_not_mem_textOf

end Storable

variable {W old new : Storable E} {files files' : Files} {first second : Attempt}
variable {r₁ r₂ : Reading} {alloc : List Bool} {s s' : Snapshot} {p q content : List Int8}

/-- The beginning of a string is a string. -/
theorem stringOf_cut (h0 : 0 ∉ content) (hp : p <+: content) : stringOf p = p :=
  List.takeWhile_eq_self_iff.mpr fun _ hc => bne_iff_ne.mpr fun h => h0 (h ▸ hp.subset hc)

/-! ## Writing -/

theorem bufferSize_lt (s : Snapshot) : bufferSize s < 2 ^ 64 := by
  have hmod : s.state.rows.length % 2 ^ 32 < 2 ^ 32 := Nat.mod_lt _ (Nat.two_pow_pos 32)
  refine max_lt ?_ (serializedStrSize_lt s.metadata)
  rw [StateDelta.serializedStrSize]
  omega

/-- The buffer keeps its length. -/
theorem length_serializeStr {L : LedgerState E} {buffer str : List Int8}
    (h : StateDelta.serializeStr E L.delta buffer = some (.ok (), str)) :
    str.length = buffer.length := by
  have hls : ∀ l ∈ StateDelta.linesOf L.delta.rows, IsHash E l.1 := by
    intro l hl
    obtain ⟨e, he, rfl⟩ := List.mem_map.mp hl
    exact L.hashes e he
  obtain ⟨⟨converted, offset, str₁⟩, hlines, hend⟩ := Option.bind_eq_some_iff.mp h
  obtain ⟨rfl, hlen, -⟩ := putLines_offset hls hlines
  dsimp only at hend
  rw [if_pos rfl] at hend
  obtain ⟨str₂, hput, heq⟩ := Option.map_eq_some_iff.mp hend
  obtain rfl := (Prod.mk.inj heq).2
  exact (put_length hput).2.trans hlen

/-- **What is written**, where there is memory: each file gets its text, as far as that comes. -/
theorem writeToFile_eq (W : Storable E) (first second : Attempt) (files : Files) :
    writeToFile E W.snapshot true first second files =
      some (match overwriteFile first W.stateText files.state with
        | (some (.ok _), file) =>
          let p := overwriteFile second W.metadataText files.metadata
          (p.1, ⟨file, p.2⟩)
        | (ret, file) => (ret, { files with state := file })) := by
  have hbuffer : (List.replicate (bufferSize W.snapshot) (0 : Int8)).length =
      bufferSize W.snapshot :=
    List.length_replicate
  obtain ⟨str, hwrite, htext⟩ := W.ledger.write W.offsets (hbuffer.symm ▸ W.stateRoom)
  have hlen := length_serializeStr hwrite
  obtain ⟨str', hwrite', htext'⟩ := W.hashed.write
    (W.metadataRoom.trans (bufferSize_lt _)) (by rw [hlen, hbuffer]; exact W.metadataRoom)
  have hstate : StateDelta.serializeStr E W.snapshot.state
      (List.replicate (bufferSize W.snapshot) 0) = some (.ok (), str) := hwrite
  have hmetadata : Metadata.serializeStr E W.snapshot.metadata str = some (.ok (), str') := hwrite'
  rw [writeToFile, if_neg (by simp), hstate, Option.bind_some]
  dsimp only
  rw [htext, ← Storable.stateText]
  rcases overwriteFile first W.stateText files.state with ⟨_ | _ | _, file⟩
  · rfl
  · rfl
  · dsimp only
    rw [hmetadata, Option.bind_some]
    dsimp only
    rw [htext', ← Storable.metadataText]

theorem overwriteFile_writes {content : List Int8} {n : ℕ} (hn : content.length ≤ n)
    (file : Option (List Int8)) :
    overwriteFile (.writes n n) content file = (some (.ok ()), some content) := by
  rw [overwriteFile, if_neg (Nat.not_lt.mpr hn), List.take_of_length_le hn]

/-- A file that is overwritten is as it was, or has a beginning of what was to be written. -/
theorem overwriteFile_cases (attempt : Attempt) (content : List Int8) (file : Option (List Int8)) :
    (overwriteFile attempt content file).2 = file ∧
        (overwriteFile attempt content file).1 ≠ some (.ok ()) ∨
      ∃ p, p <+: content ∧ (overwriteFile attempt content file).2 = some p := by
  rcases attempt with _ | ⟨counted, reached⟩ | _ | reached
  · exact Or.inl ⟨rfl, by simp [overwriteFile]⟩
  · exact Or.inr ⟨_, List.take_prefix reached content, rfl⟩
  · exact Or.inl ⟨rfl, by simp [overwriteFile]⟩
  · exact Or.inr ⟨_, List.take_prefix reached content, rfl⟩

/-- **What is in the files** when a snapshot is written over another one: what was there, or a
beginning of the new state beside the old metadata or a beginning of the new. -/
theorem writeToFile_files (first second : Attempt) {ret : Option (Except FileRetcode Unit)}
    (h : writeToFile E new.snapshot true first second old.files = some (ret, files)) :
    files = old.files ∨ ∃ p q, files = ⟨some p, some q⟩ ∧ p <+: new.stateText ∧
      (q = old.metadataText ∨ q <+: new.metadataText) := by
  rw [writeToFile_eq] at h
  have hfirst := overwriteFile_cases first new.stateText old.files.state
  have hsecond := overwriteFile_cases second new.metadataText old.files.metadata
  rcases hstate : overwriteFile first new.stateText old.files.state with ⟨_ | e | _, file⟩
  all_goals
    rw [hstate] at h hfirst
    dsimp only at h hfirst
    obtain ⟨-, rfl⟩ := Prod.mk.inj (Option.some.inj h)
  · rcases hfirst with ⟨rfl, -⟩ | ⟨p, hp, rfl⟩
    · exact Or.inl rfl
    · exact Or.inr ⟨p, _, rfl, hp, Or.inl rfl⟩
  · rcases hfirst with ⟨rfl, -⟩ | ⟨p, hp, rfl⟩
    · exact Or.inl rfl
    · exact Or.inr ⟨p, _, rfl, hp, Or.inl rfl⟩
  · rcases hfirst with ⟨-, hok⟩ | ⟨p, hp, rfl⟩
    · exact absurd rfl hok
    · rcases hsecond with ⟨hkept, -⟩ | ⟨q, hq, hcut⟩
      · exact Or.inr ⟨p, _, by rw [hkept]; rfl, hp, Or.inl rfl⟩
      · exact Or.inr ⟨p, q, by rw [hcut], hp, Or.inr hq⟩

/-! ## Loading -/

/-- A file that is read. -/
theorem readFileIntoBuffer_ok {reading : Reading} {file : Option (List Int8)}
    {buffer : Option (List Int8)} (hsized : reading ≠ .unsized)
    (h : readFileIntoBuffer reading file = .ok buffer) : buffer = file ∧ file ≠ none := by
  rcases file with _ | content
  · contradiction
  · cases reading with
    | denied => contradiction
    | unsized => exact absurd rfl hsized
    | failed => contradiction
    | whole => exact ⟨(Except.ok.inj h).symm, Option.some_ne_none _⟩

theorem metadataReadFromFile_ok {r r' : Reader} (h₁ : r₁ ≠ .unsized)
    (h : metadataReadFromFile E r₁ (some q) r = some (.ok (), r')) :
    Metadata.deserializeStr E (stringOf q) r = some (.ok (), r') := by
  unfold metadataReadFromFile at h
  rcases hbuffer : readFileIntoBuffer r₁ (some q) with e | buffer
  · rw [hbuffer] at h
    exact absurd (Prod.mk.inj (Option.some.inj h)).1 (by simp)
  · rw [hbuffer, (readFileIntoBuffer_ok h₁ hbuffer).1] at h
    obtain ⟨⟨_ | _, r₂⟩, hread, heq⟩ := Option.map_eq_some_iff.mp h
    · exact absurd (Prod.mk.inj heq).1 (by simp [Except.mapError])
    · obtain ⟨-, rfl⟩ := Prod.mk.inj heq
      exact hread

theorem stateReadFromFile_ok {m m' : Heap (List FlexTrit)} (h₂ : r₂ ≠ .unsized)
    (h : stateReadFromFile E r₂ (some p) m = some (.ok (), m')) :
    StateDelta.deserializeStr E (stringOf p) m = some (.ok (), m') := by
  unfold stateReadFromFile at h
  rcases hbuffer : readFileIntoBuffer r₂ (some p) with e | buffer
  · rw [hbuffer] at h
    exact absurd (Prod.mk.inj (Option.some.inj h)).1 (by simp)
  · rw [hbuffer, (readFileIntoBuffer_ok h₂ hbuffer).1] at h
    obtain ⟨⟨_ | _, m₂⟩, hread, heq⟩ := Option.map_eq_some_iff.mp h
    · exact absurd (Prod.mk.inj heq).1 (by simp [Except.mapError])
    · obtain ⟨-, rfl⟩ := Prod.mk.inj heq
      exact hread

/-- **What is loaded** was read from either file. -/
theorem loadLocalSnapshot_ok (h₁ : r₁ ≠ .unsized) (h₂ : r₂ ≠ .unsized)
    (h : loadLocalSnapshot E ⟨some p, some q⟩ r₁ r₂ alloc (reset s) = some (.ok (), s')) :
    ∃ r m, Metadata.deserializeStr E (stringOf q) ⟨(reset s).metadata, 0, 0, alloc⟩ =
        some (.ok (), r) ∧
      StateDelta.deserializeStr E (stringOf p) ⟨Table.empty, r.alloc⟩ = some (.ok (), m) ∧
      s' = ⟨m.state, r.metadata⟩ := by
  obtain ⟨⟨_ | _, r⟩, hmetadata, hrest⟩ := Option.bind_eq_some_iff.mp h
  · exact absurd (Prod.mk.inj (Option.some.inj hrest)).1 (by simp)
  obtain ⟨⟨ret, m⟩, hstate, heq⟩ := Option.map_eq_some_iff.mp hrest
  obtain ⟨rfl, rfl⟩ := Prod.mk.inj heq
  exact ⟨r, m, metadataReadFromFile_ok h₁ hmetadata, stateReadFromFile_ok h₂ hstate, rfl⟩

/-- Two texts that are whole are loaded, where there is memory. -/
theorem loadLocalSnapshot_whole (old new : Storable E) (s : Snapshot) :
    loadLocalSnapshot E ⟨some new.stateText, some old.metadataText⟩ .whole .whole [] (reset s) =
      some (.ok (), ⟨new.ledger.delta, old.hashed.data⟩) := by
  obtain ⟨r, hmetadata, -⟩ := old.hashed.read old.points
    (s := ⟨(reset s).metadata, 0, 0, []⟩) rfl rfl
  obtain ⟨hr, halloc⟩ := old.hashed.read_whole old.points rfl hmetadata
  rw [List.drop_nil] at halloc
  obtain ⟨m, hstate, hm⟩ := new.ledger.read
  have hstring := stringOf_cut old.zero_not_mem_metadataText List.prefix_rfl
  have hstring' := stringOf_cut new.zero_not_mem_stateText List.prefix_rfl
  have hread : metadataReadFromFile E .whole (some old.metadataText)
      ⟨(reset s).metadata, 0, 0, []⟩ = some (.ok (), r) := by
    show (Metadata.deserializeStr E (stringOf old.metadataText) _).map _ = _
    rw [hstring, Storable.metadataText, hmetadata]
    rfl
  have hread' : stateReadFromFile E .whole (some new.stateText) ⟨Table.empty, r.alloc⟩ =
      some (.ok (), m) := by
    show (StateDelta.deserializeStr E (stringOf new.stateText) _).map _ = _
    rw [hstring', Storable.stateText, halloc, hstate]
    rfl
  rw [loadLocalSnapshot, hread, Option.bind_some]
  show (stateReadFromFile E .whole (some new.stateText) ⟨Table.empty, r.alloc⟩).map _ = _
  rw [hread', Option.map_some, hm, hr]

/-- The node writes a snapshot over another one, as far as that comes, and loads what is there. -/
def reload (E : Encoding) (old new : Storable E) (first second : Attempt) (r₁ r₂ : Reading)
    (alloc : List Bool) (s : Snapshot) : Option (Except FileRetcode Unit × Snapshot) :=
  (writeToFile E new.snapshot true first second old.files).bind fun p =>
    loadLocalSnapshot E p.2 r₁ r₂ alloc (reset s)

/-- **A snapshot written over another one**, and what a node then loads. If both files are written
to their end it is the new snapshot. If the process stops between them, or the second file cannot be
opened, it is the state of the new one with the metadata of the old. And wherever a write comes to
its end, what is loaded, if anything, is the old snapshot, or the new state without lines of balance
zero, with metadata that is the old one or that has the first entry points of the new. -/
theorem reload_spec (old new : Storable E) (s : Snapshot) :
    (∀ n k, new.stateText.length ≤ n → new.metadataText.length ≤ k →
      reload E old new (.writes n n) (.writes k k) .whole .whole [] s =
        some (.ok (), new.snapshot)) ∧
    (∀ n, new.stateText.length ≤ n → ∀ second ∈ [Attempt.fails, .stops none],
      reload E old new (.writes n n) second .whole .whole [] s =
        some (.ok (), ⟨new.snapshot.state, old.snapshot.metadata⟩)) ∧
    ∀ first second r₁ r₂ alloc s', r₁ ≠ Reading.unsized → r₂ ≠ .unsized →
      reload E old new first second r₁ r₂ alloc s = some (.ok (), s') →
        s' = old.snapshot ∨
          (∃ dropped, new.snapshot.state.rows = s'.state.rows ++ dropped ∧
            ∀ e ∈ dropped, e.2 = 0) ∧
          (s'.metadata = old.snapshot.metadata ∨ CutOf s'.metadata new.snapshot.metadata) := by
  refine ⟨fun n k hn hk => ?_, fun n hn second hsecond => ?_,
    fun first second r₁ r₂ alloc s' h₁ h₂ h => ?_⟩
  · rw [reload, writeToFile_eq, overwriteFile_writes hn, Option.bind_some]
    dsimp only
    rw [overwriteFile_writes hk]
    exact loadLocalSnapshot_whole new new s
  · rw [reload, writeToFile_eq, overwriteFile_writes hn, Option.bind_some]
    have hkept : (overwriteFile second new.metadataText old.files.metadata).2 =
        some old.metadataText := by
      simp only [List.mem_cons, List.not_mem_nil, or_false] at hsecond
      rcases hsecond with rfl | rfl <;> rfl
    dsimp only
    rw [hkept]
    exact loadLocalSnapshot_whole old new s
  · obtain ⟨⟨ret, files⟩, hwrite, hload⟩ := Option.bind_eq_some_iff.mp h
    dsimp only at hload
    rcases writeToFile_files first second hwrite with rfl | ⟨p, q, rfl, hp, hq⟩
    · obtain ⟨r, m, hmetadata, hstate, rfl⟩ := loadLocalSnapshot_ok h₁ h₂ hload
      rw [stringOf_cut old.zero_not_mem_metadataText List.prefix_rfl] at hmetadata
      rw [stringOf_cut old.zero_not_mem_stateText List.prefix_rfl] at hstate
      left
      rw [old.ledger.read_whole hstate, (old.hashed.read_whole old.points rfl hmetadata).1]
      rfl
    · obtain ⟨r, m, hmetadata, hstate, rfl⟩ := loadLocalSnapshot_ok h₁ h₂ hload
      rw [stringOf_cut new.zero_not_mem_stateText hp] at hstate
      refine Or.inr ⟨new.ledger.read_cut hp hstate, ?_⟩
      rcases hq with rfl | hq
      · rw [stringOf_cut old.zero_not_mem_metadataText List.prefix_rfl] at hmetadata
        exact Or.inl (old.hashed.read_whole old.points rfl hmetadata).1
      · rw [stringOf_cut new.zero_not_mem_metadataText hq] at hmetadata
        exact Or.inr (new.hashed.read_cut new.points rfl hq hmetadata)

/-- A ledger with all tokens at one address, and no entry points. -/
def genesisStorable {a : List FlexTrit} (h : IsHash E a) (v : UInt64) (hv : v.toNat < 10 ^ 17) :
    Storable E where
  ledger := genesis h
  hashed := pointless h v
  offsets := by
    show (lineSize (a, 2779530283277761) + 0 : ℕ) < 2 ^ 32
    rw [lineSize_supply]
    decide
  stateRoom := by
    show (lineSize (a, 2779530283277761) + 0 : ℕ) < max (1 * 99) 124
    rw [lineSize_supply]
    decide
  metadataRoom := by
    refine lt_max_of_lt_right ((pointless h v).fits_iff.mpr ⟨Nat.two_pow_pos 32, ?_⟩)
    have hdigits := (Decimal.length_decimal_le_iff (k := 17) (by decide)).mpr hv
    show (Decimal.decimal v.toNat).length + (Decimal.decimal v.toNat).length + 1 + 0 ≤ 36 + 20 * 0
    omega
  points := Nat.two_pow_pos 32

/-- The process stops between the files: the tokens are at the new address, at the old index. -/
theorem reload_spec_between :
    let a := isHash_zeros .three
    let b : IsHash .three (pack .three (List.replicate 243 1)) :=
      isHash_pack (fun t ht => by rw [List.eq_of_mem_replicate ht]; decide)
        List.length_replicate
    let old := genesisStorable a 1 (by decide)
    let new := genesisStorable b 2 (by decide)
    ∃ s', reload .three old new (.writes 1000 1000) (.stops none) .whole .whole [] old.snapshot =
        some (.ok (), s') ∧
      s'.state.rows = [(pack .three (List.replicate 243 1), 2779530283277761)] ∧
      s'.metadata.index = 1 := by
  intro a b old new
  have hlen : new.stateText.length ≤ 1000 := by
    rw [new.length_stateText]
    show (lineSize (_, 2779530283277761) + 0 : ℕ) ≤ 1000
    rw [lineSize_supply]
    decide
  exact ⟨_, (reload_spec old new old.snapshot).2.1 1000 hlen (.stops none) (by simp), rfl, rfl⟩

end SnapshotFiles

end Entangled
