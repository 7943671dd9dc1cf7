import Entangled.Snapshot.StateDelta
/-!
# State deltas as blobs

A delta is stored as its entries one after the other: the bytes of the address,
then the eight bytes of the value. The blob carries no count; the reader takes
as many entries as its length holds. The reader does not look for an address
that comes twice, so a `Blob` is bytes in which none does, which is what the
one writer of the column produces.
-/

namespace Entangled

/-- Hashes as the `FLEX_TRIT_SIZE_243` bytes they are copied as. -/
class HashBytes (Hash : Type) where
  size : ℕ
  encode : Hash → List UInt8
  decode : List UInt8 → Hash
  length_encode : ∀ h, (encode h).length = size
  decode_encode : ∀ h, decode (encode h) = h

namespace StateDelta

variable {Hash : Type} [HashBytes Hash]

/-- The bytes one entry takes. -/
def entrySize (Hash : Type) [HashBytes Hash] : ℕ := HashBytes.size Hash + 8

/-- The bytes of a list of entries. -/
def entryBytes (es : List (Hash × Int64)) : List UInt8 :=
  es.flatMap fun e => HashBytes.encode e.1 ++ Word.bytes e.2

/-- Read `n` entries. -/
def readEntries : ℕ → List UInt8 → List (Hash × Int64)
  | 0, _ => []
  | n + 1, b =>
    (HashBytes.decode (b.take (HashBytes.size Hash)),
      Word.ofBytes ((b.drop (HashBytes.size Hash)).take 8)) ::
        readEntries n (b.drop (entrySize Hash))

/-- The entries a blob holds, as the loop of `state_delta_deserialize` reads
them. -/
def entriesOf (b : List UInt8) : List (Hash × Int64) := readEntries (b.length / entrySize Hash) b

theorem length_entryBytes (es : List (Hash × Int64)) :
    (entryBytes es).length = es.length * entrySize Hash := by
  induction es with
  | nil => simp [entryBytes]
  | cons e es ih =>
    rw [entryBytes, List.flatMap_cons, List.length_append, ← entryBytes, ih, List.length_append,
      HashBytes.length_encode, Word.length_bytes, List.length_cons, Nat.succ_mul, entrySize,
      Nat.add_comm]

theorem readEntries_entryBytes (es : List (Hash × Int64)) :
    readEntries es.length (entryBytes es) = es := by
  induction es with
  | nil => rfl
  | cons e es ih =>
    have hsplit : entryBytes (e :: es) =
        HashBytes.encode e.1 ++ (Word.bytes e.2 ++ entryBytes es) := by
      simp [entryBytes]
    have hlen := HashBytes.length_encode e.1
    have htake : (entryBytes (e :: es)).take (HashBytes.size Hash) = HashBytes.encode e.1 := by
      rw [hsplit, ← hlen, List.take_left]
    have hdrop : (entryBytes (e :: es)).drop (HashBytes.size Hash) =
        Word.bytes e.2 ++ entryBytes es := by
      rw [hsplit, ← hlen, List.drop_left]
    have hrest : (entryBytes (e :: es)).drop (entrySize Hash) = entryBytes es := by
      rw [entrySize, ← List.drop_drop, hdrop, ← Word.length_bytes e.2, List.drop_left]
    have hword : (Word.bytes e.2 ++ entryBytes es).take 8 = Word.bytes e.2 := by
      rw [← Word.length_bytes e.2, List.take_left]
    rw [List.length_cons, readEntries, htake, hdrop, hrest, hword, ih, HashBytes.decode_encode,
      Word.ofBytes_bytes]

/-- **Entries are read back as they were written.** -/
theorem entriesOf_entryBytes (es : List (Hash × Int64)) : entriesOf (entryBytes es) = es := by
  have hpos : 0 < entrySize Hash := by unfold entrySize; omega
  rw [entriesOf, length_entryBytes, Nat.mul_div_cancel _ hpos, readEntries_entryBytes]

end StateDelta

instance neZero_byte : NeZero 256 := ⟨by decide⟩

/-- Hashes of one byte, for runs on concrete data. -/
instance : HashBytes (Fin 256) where
  size := 1
  encode h := [UInt8.ofNat h.val]
  decode b := Fin.ofNat 256 (b.headD 0).toNat
  length_encode _ := rfl
  decode_encode h := by
    have := h.isLt
    apply Fin.ext
    simp [Fin.ofNat]

theorem nodup_hundred : ([((11 : Fin 256), (100 : Int64))].map Prod.fst).Nodup := by decide

theorem nodup_moved : ([((11 : Fin 256), (-5 : Int64)), (10, 5)].map Prod.fst).Nodup := by decide

/-- The content of a delta column: bytes that give no address two entries. -/
structure Blob (Hash : Type) [HashBytes Hash] where
  bytes : List UInt8
  nodup : ((StateDelta.entriesOf bytes : List (Hash × Int64)).map Prod.fst).Nodup

namespace StateDelta

variable {Hash : Type} [HashBytes Hash]

/-- `state_delta_serialize`. -/
def serialize (d : StateDelta Hash) : Blob Hash :=
  ⟨entryBytes d.rows, by rw [entriesOf_entryBytes]; exact d.nodup⟩

/-- `state_delta_deserialize`. -/
def deserialize (b : Blob Hash) : StateDelta Hash := ⟨entriesOf b.bytes, b.nodup⟩

/-- **Storing a delta loses nothing**, not even the order of its entries. -/
@[simp] theorem deserialize_serialize (d : StateDelta Hash) : deserialize (serialize d) = d :=
  Table.ext (entriesOf_entryBytes d.rows)

end StateDelta

end Entangled
