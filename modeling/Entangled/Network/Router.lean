import Mathlib.Data.List.Infix
import Mathlib.Tactic.Set
/-!
# Reading packets from a neighbor

`router_read` with the buffer it keeps per neighbor. A read hands it a chunk of
the stream; it fills the buffer, takes the packet at its head if that has arrived
whole, and goes on with what is left of the chunk. When nothing is left of the
chunk it returns, also when the buffer holds another whole packet: that one waits
for the next read, and after the last read it stays.

The loop takes one packet a round, and all but the last round of a read have a
full buffer behind them. `read_of_reached` is the account of one read in terms of
positions in the stream, `reached_readAll` that of a connection.
-/

namespace Entangled

namespace Router

/-! ## Packets -/

/-- `HEADER_BYTES_LENGTH`: one byte for the type, two for the length. -/
def headerBytesLength : ℕ := 1 + 2

/-- `GOSSIP_NON_SIG_BYTES_LENGTH`. -/
def gossipNonSigBytesLength : ℕ := 292

/-- `GOSSIP_SIG_MAX_BYTES_LENGTH`. -/
def gossipSigMaxBytesLength : ℕ := 1312

/-- `GOSSIP_REQUESTED_TX_HASH_BYTES_LENGTH`. -/
def gossipRequestedTxHashBytesLength : ℕ := 49

/-- `GOSSIP_MIN_BYTES_LENGTH`. -/
def gossipMinBytesLength : ℕ := gossipNonSigBytesLength + gossipRequestedTxHashBytesLength

/-- `GOSSIP_MAX_BYTES_LENGTH`. -/
def gossipMaxBytesLength : ℕ :=
  gossipNonSigBytesLength + gossipSigMaxBytesLength + gossipRequestedTxHashBytesLength

/-- `PACKET_MAX_BYTES_LENGTH`. -/
def packetMaxBytesLength : ℕ := headerBytesLength + gossipMaxBytesLength

/-- The type of the header at the head of a buffer. -/
def typeField (b : List UInt8) : UInt8 := b.getD 0 0

/-- The length of the header at the head of a buffer, in network byte order. -/
def lengthField (b : List UInt8) : ℕ := (b.getD 1 0).toNat * 256 + (b.getD 2 0).toNat

/-- The bytes behind the header that its length counts. -/
def payload (b : List UInt8) : List UInt8 := (b.drop headerBytesLength).take (lengthField b)

/-- Where a neighbor can be reached. -/
structure Endpoint where
  ip : List UInt8
  port : UInt16
  deriving DecidableEq, Repr

/-- `protocol_gossip_t`. -/
structure Gossip where
  content : List UInt8
  source : Endpoint
  deriving DecidableEq, Repr

/-- The content of a gossip packet: the signature part of the payload comes in a
variable size and is filled up with zeros. -/
def gossipContent (p : List UInt8) : List UInt8 :=
  let variableSize := p.length - gossipNonSigBytesLength - gossipRequestedTxHashBytesLength
  p.take variableSize ++ List.replicate (gossipSigMaxBytesLength - variableSize) 0 ++
    (p.drop variableSize).take gossipNonSigBytesLength ++
    (p.drop (variableSize + gossipNonSigBytesLength)).take gossipRequestedTxHashBytesLength

/-- The errors `router_read` returns. Its caller logs them and goes on reading. -/
inductive ReadError
  | invalidPacket
  | invalidPacketType
  deriving DecidableEq, Repr

/-- The neighbor's end of a connection: its endpoint and buffer, the packets added
to the processor stage, and the bytes that left the buffer as packets. -/
structure Reception where
  endpoint : Endpoint
  buffer : List UInt8
  pipeline : List Gossip
  consumed : List UInt8
  deriving DecidableEq, Repr

/-- The gossip that a packet of an accepted type hands on, if any. -/
def dispatch (e : Endpoint) (b : List UInt8) : Except ReadError (List Gossip) :=
  if typeField b < 3 then
    if typeField b = 1 then .ok []
    else if typeField b = 2 then
      if lengthField b < gossipMinBytesLength ∨ gossipMaxBytesLength < lengthField b then
        .error .invalidPacket
      else .ok [⟨gossipContent (payload b), e⟩]
    else .error .invalidPacketType
  else .error .invalidPacketType

/-- Hand on the packet at the head of the buffer and move the rest to the front. -/
def handlePacket (r : Reception) : Except ReadError Reception :=
  match dispatch r.endpoint r.buffer with
  | .error e => .error e
  | .ok out => .ok { r with
      buffer := r.buffer.drop (headerBytesLength + lengthField r.buffer)
      pipeline := r.pipeline ++ out
      consumed := r.consumed ++ r.buffer.take (headerBytesLength + lengthField r.buffer) }

theorem handlePacket_eq_ok {r r' : Reception} :
    handlePacket r = .ok r' ↔ ∃ out, dispatch r.endpoint r.buffer = .ok out ∧ r' = { r with
      buffer := r.buffer.drop (headerBytesLength + lengthField r.buffer)
      pipeline := r.pipeline ++ out
      consumed := r.consumed ++ r.buffer.take (headerBytesLength + lengthField r.buffer) } := by
  unfold handlePacket
  cases dispatch r.endpoint r.buffer with
  | error e => simp
  | ok out => simp [eq_comm]

/-- Concatenate read data to previously read data. -/
def append (r : Reception) (chunk : List UInt8) : Reception :=
  { r with buffer := r.buffer ++ chunk }

/-- How much of a chunk the buffer takes. -/
def chunkSize (r : Reception) (chunk : List UInt8) : ℕ :=
  min (packetMaxBytesLength - r.buffer.length) chunk.length

/-- `router_read`. A round either takes a packet out of the buffer or returns. -/
def read (r : Reception) (chunk : List UInt8) : Except ReadError Unit × Reception :=
  if chunk = [] then (.ok (), r)
  else
    let r₁ := append r (chunk.take (chunkSize r chunk))
    if r₁.buffer.length ≤ headerBytesLength then (.ok (), r₁)
    else if r₁.buffer.length - headerBytesLength < lengthField r₁.buffer then (.ok (), r₁)
    else
      match _h : handlePacket r₁ with
      | .error e => (.error e, r₁)
      | .ok r₂ => read r₂ (chunk.drop (chunkSize r chunk))
termination_by r.buffer.length + chunk.length
decreasing_by
  obtain ⟨out, -, rfl⟩ := handlePacket_eq_ok.mp _h
  have hle : chunkSize r chunk ≤ chunk.length := Nat.min_le_right _ _
  have hlen : r₁.buffer.length = r.buffer.length + chunkSize r chunk := by
    simp [r₁, append, hle]
  have hhdr : headerBytesLength = 3 := rfl
  simp only [List.length_drop]
  omega

/-- The reads of a connection, one after the other. -/
def readAll (r : Reception) (chunks : List (List UInt8)) : Reception :=
  chunks.foldl (fun r chunk => (read r chunk).2) r

/-- A connection after the handshake. -/
def start (e : Endpoint) : Reception := ⟨e, [], [], []⟩

/-- A way of cutting a stream into reads. libuv reports the end of a read with its
size, and `router_on_read` passes on what is not empty. -/
structure Cut (stream : List UInt8) where
  chunks : List (List UInt8)
  flatten_eq : chunks.flatten = stream
  nonempty : [] ∉ chunks

/-! ## What a stream should come to -/

/-- Bytes that do not hold the packet they start with. -/
def Incomplete (b : List UInt8) : Prop :=
  b.length < headerBytesLength ∨ b.length < headerBytesLength + lengthField b

/-- The packets read and what stays in the buffer are the stream, and what stays is
incomplete. -/
structure Reassembled (stream : List UInt8) (r : Reception) : Prop where
  whole : r.consumed ++ r.buffer = stream
  incomplete : Incomplete r.buffer

/-- **Two cuts make no difference**: the same gossip is delivered, and only the
incomplete end of the stream stays in the buffer. -/
structure Agree (e : Endpoint) {stream : List UInt8} (cut₁ cut₂ : Cut stream) : Prop where
  same : (readAll (start e) cut₁.chunks).pipeline = (readAll (start e) cut₂.chunks).pipeline
  first : Reassembled stream (readAll (start e) cut₁.chunks)
  second : Reassembled stream (readAll (start e) cut₂.chunks)

/-! ## The streams and cuts that come out right -/

/-- A packet that `router_read` takes: as long as its header says, of a length the
buffer holds, and a handshake or a gossip of the right size. -/
structure Acceptable (p : List UInt8) : Prop where
  length_eq : p.length = headerBytesLength + lengthField p
  length_le : p.length ≤ packetMaxBytesLength
  type : typeField p = 1 ∨ typeField p = 2 ∧ gossipMinBytesLength ≤ lengthField p

/-- Where the first `k` packets end. -/
def stop (ps : List (List UInt8)) (k : ℕ) : ℕ := (ps.take k).flatten.length

/-- The `t`-th packet is seen whole at position `n`. A header alone is not looked at,
even where its length is zero. -/
def Arrived (ps : List (List UInt8)) (t n : ℕ) : Prop :=
  stop ps t ≤ n ∧ (t = 0 ∨ stop ps (t - 1) + headerBytesLength < n)

/-- The reads, the last one first, take `t` packets. The `t`-th one has arrived by the
end of the last read; and the packet before it begins more than a full buffer before
that end, so that a round of the same read took it, or the earlier reads took all
packets before. -/
def KeepsUp (ps : List (List UInt8)) : ℕ → List (List UInt8) → Prop
  | t, [] => t = 0
  | t, chunk :: earlier =>
    Arrived ps t (chunk :: earlier).flatten.length ∧
      (stop ps (t - 2) + packetMaxBytesLength < (chunk :: earlier).flatten.length ∨
        KeepsUp ps (t - 1) earlier)

instance (ps : List (List UInt8)) (t n : ℕ) : Decidable (Arrived ps t n) :=
  inferInstanceAs (Decidable (_ ∧ _))

instance decidableKeepsUp (ps : List (List UInt8)) :
    ∀ (t : ℕ) (reads : List (List UInt8)), Decidable (KeepsUp ps t reads)
  | t, [] => inferInstanceAs (Decidable (t = 0))
  | t, _ :: earlier =>
    have := decidableKeepsUp ps (t - 1) earlier
    inferInstanceAs (Decidable (_ ∧ (_ ∨ _)))

/-! ## Headers -/

variable {p q b : List UInt8} {ps : List (List UInt8)} {e : Endpoint} {r r' : Reception}

theorem lengthField_append (h : headerBytesLength ≤ p.length) (q : List UInt8) :
    lengthField (p ++ q) = lengthField p := by
  have h' : 3 ≤ p.length := h
  simp only [lengthField, List.getD_eq_getElem?_getD]
  rw [List.getElem?_append_left (by omega), List.getElem?_append_left (by omega)]

theorem typeField_append (h : headerBytesLength ≤ p.length) (q : List UInt8) :
    typeField (p ++ q) = typeField p := by
  have h' : 3 ≤ p.length := h
  simp only [typeField, List.getD_eq_getElem?_getD]
  rw [List.getElem?_append_left (by omega)]

theorem Acceptable.header_le (h : Acceptable p) : headerBytesLength ≤ p.length := by
  rw [h.length_eq]
  exact Nat.le_add_right _ _

theorem Acceptable.payload_append (h : Acceptable p) (q : List UInt8) :
    payload (p ++ q) = payload p := by
  have hlen := h.length_eq
  unfold payload
  rw [lengthField_append h.header_le, List.drop_append_of_le_length h.header_le,
    List.take_append_of_le_length]
  rw [List.length_drop]
  omega

/-- The gossip an accepted packet delivers. -/
def delivery (e : Endpoint) (p : List UInt8) : List Gossip :=
  if typeField p = 2 then [⟨gossipContent (payload p), e⟩] else []

/-- **An accepted packet is handed on and leaves the buffer.** -/
theorem handlePacket_of_acceptable (h : Acceptable p) (hb : r.buffer = p ++ q) :
    handlePacket r = .ok { r with
      buffer := q, pipeline := r.pipeline ++ delivery r.endpoint p,
      consumed := r.consumed ++ p } := by
  have hlen := lengthField_append h.header_le q
  have hend : headerBytesLength + lengthField r.buffer = p.length := by
    rw [hb, hlen, ← h.length_eq]
  have hdisp : dispatch r.endpoint r.buffer = .ok (delivery r.endpoint p) := by
    unfold dispatch delivery
    rw [hb, typeField_append h.header_le, hlen, h.payload_append]
    rcases h.type with ht | ⟨ht, hmin⟩
    · simp [ht]
    · have hmax : lengthField p ≤ gossipMaxBytesLength := by
        have h₁ := h.length_eq
        have h₂ := h.length_le
        unfold packetMaxBytesLength at h₂
        omega
      rw [ht, if_pos (by decide), if_neg (by decide), if_pos rfl, if_pos rfl, if_neg (by omega)]
  refine handlePacket_eq_ok.mpr ⟨_, hdisp, ?_⟩
  rw [hend, hb, List.drop_left, List.take_left]

/-- **Only accepted packets leave the buffer.** -/
theorem acceptable_of_handlePacket (h : handlePacket r = .ok r')
    (hle : r.buffer.length ≤ packetMaxBytesLength)
    (hwhole : headerBytesLength + lengthField r.buffer ≤ r.buffer.length) :
    ∃ p, Acceptable p ∧ r.buffer = p ++ r'.buffer := by
  obtain ⟨out, hdisp, rfl⟩ := handlePacket_eq_ok.mp h
  set n := headerBytesLength + lengthField r.buffer with hn
  have hsplit : r.buffer = r.buffer.take n ++ r.buffer.drop n := (List.take_append_drop _ _).symm
  have hlen : (r.buffer.take n).length = n := by
    rw [List.length_take]
    omega
  have hhdr : headerBytesLength ≤ (r.buffer.take n).length := by omega
  have hfield : lengthField (r.buffer.take n) = lengthField r.buffer := by
    conv_rhs => rw [hsplit]
    exact (lengthField_append hhdr _).symm
  have htype : typeField (r.buffer.take n) = typeField r.buffer := by
    conv_rhs => rw [hsplit]
    exact (typeField_append hhdr _).symm
  refine ⟨r.buffer.take n, ⟨by rw [hlen, hfield], by omega, ?_⟩, hsplit⟩
  rw [htype, hfield]
  unfold dispatch at hdisp
  split_ifs at hdisp with h₁ h₂ h₃ h₄
  · exact .inl h₂
  · exact .inr ⟨h₃, by omega⟩

/-! ## What holds of every stream -/

/-- Whatever was read: packets that were accepted have left the buffer and were
delivered, and the buffer has not overflowed. -/
structure Sound (e : Endpoint) (r : Reception) : Prop where
  endpoint : r.endpoint = e
  buffer : r.buffer.length ≤ packetMaxBytesLength
  packets : ∃ ps : List (List UInt8), (∀ p ∈ ps, Acceptable p) ∧ r.consumed = ps.flatten ∧
    r.pipeline = ps.flatMap (delivery e)

theorem sound_start (e : Endpoint) : Sound e (start e) :=
  ⟨rfl, Nat.zero_le _, [], by simp, rfl, rfl⟩

theorem Sound.append {chunk : List UInt8} (h : Sound e r) :
    Sound e (append r (chunk.take (chunkSize r chunk))) := by
  refine ⟨h.endpoint, ?_, h.packets⟩
  have hle := h.buffer
  have hsize : chunkSize r chunk ≤ packetMaxBytesLength - r.buffer.length := Nat.min_le_left _ _
  simp only [Router.append, List.length_append, List.length_take]
  omega

theorem Sound.handlePacket (h : Sound e r) (hr : handlePacket r = .ok r')
    (hwhole : headerBytesLength + lengthField r.buffer ≤ r.buffer.length) : Sound e r' := by
  obtain ⟨p, hp, hb⟩ := acceptable_of_handlePacket hr h.buffer hwhole
  obtain ⟨ps, hall, hcons, hpipe⟩ := h.packets
  rw [handlePacket_of_acceptable hp hb] at hr
  have heq := Except.ok.inj hr
  have hle := h.buffer
  rw [hb, List.length_append] at hle
  refine ⟨by rw [← heq]; exact h.endpoint, by omega, ps ++ [p], ?_, ?_, ?_⟩
  · intro p' hp'
    rcases List.mem_append.mp hp' with hm | hm
    · exact hall p' hm
    · rwa [List.mem_singleton.mp hm]
  · rw [← heq, List.flatten_append, ← hcons, List.flatten_singleton]
  · rw [← heq, List.flatMap_append, ← hpipe, List.flatMap_singleton, h.endpoint]

theorem sound_read (chunk : List UInt8) (h : Sound e r) : Sound e (read r chunk).2 := by
  fun_induction read r chunk with
  | case1 r => exact h
  | case2 r chunk _ r₁ => exact h.append
  | case3 r chunk _ r₁ => exact h.append
  | case4 r chunk _ r₁ => exact h.append
  | case5 r chunk _ r₁ hhdr hlen r₂ hr ih =>
    have hwhole : headerBytesLength + lengthField r₁.buffer ≤ r₁.buffer.length := by omega
    exact ih (h.append.handlePacket hr hwhole)

theorem sound_readAll (chunks : List (List UInt8)) (h : Sound e r) :
    Sound e (readAll r chunks) := by
  induction chunks generalizing r with
  | nil => exact h
  | cons chunk chunks ih => exact ih (sound_read chunk h)

/-! ## Positions in a stream of accepted packets -/

theorem stop_succ {k : ℕ} (h : ps[k]? = some p) : stop ps (k + 1) = stop ps k + p.length := by
  unfold stop
  rw [List.take_add_one, h, List.flatten_append, List.length_append]
  simp

theorem stop_mono (ps : List (List UInt8)) {j k : ℕ} (h : j ≤ k) : stop ps j ≤ stop ps k := by
  unfold stop
  rw [← List.take_append_drop j (ps.take k), List.take_take, Nat.min_eq_left h,
    List.flatten_append, List.length_append]
  exact Nat.le_add_right _ _

theorem stop_length (ps : List (List UInt8)) : stop ps ps.length = ps.flatten.length := by
  rw [stop, List.take_length]

theorem Arrived.mono {t t' n n' : ℕ} (h : Arrived ps t n) (ht : t' ≤ t) (hn : n ≤ n') :
    Arrived ps t' n' := by
  obtain ⟨h₁, h₂⟩ := h
  have hs := stop_mono ps ht
  refine ⟨by omega, ?_⟩
  rcases h₂ with rfl | h₂
  · exact .inl (by omega)
  · have hs' := stop_mono ps (show t' - 1 ≤ t - 1 by omega)
    exact .inr (by omega)

/-- The stream up to position `n`, with `k` of its packets taken. -/
structure Reached (ps : List (List UInt8)) (rest : List UInt8) (e : Endpoint) (k n : ℕ)
    (r : Reception) : Prop where
  endpoint : r.endpoint = e
  consumed : r.consumed = (ps.take k).flatten
  pipeline : r.pipeline = (ps.take k).flatMap (delivery e)
  buffer : r.buffer = ((ps.drop k).flatten ++ rest).take (n - stop ps k)
  count : k ≤ ps.length
  window : n ≤ stop ps k + packetMaxBytesLength
  bound : n ≤ (ps.flatten ++ rest).length
  arrived : Arrived ps k n

variable {rest chunk : List UInt8} {k n : ℕ}

theorem length_ahead (ps : List (List UInt8)) (rest : List UInt8) (k : ℕ) :
    stop ps k + ((ps.drop k).flatten ++ rest).length = (ps.flatten ++ rest).length := by
  have h : ps.flatten.length = stop ps k + (ps.drop k).flatten.length := by
    conv_lhs => rw [← List.take_append_drop k ps, List.flatten_append, List.length_append]
    rfl
  rw [List.length_append, List.length_append, h]
  omega

theorem Reached.length_buffer (h : Reached ps rest e k n r) :
    r.buffer.length = n - stop ps k := by
  have hlen := length_ahead ps rest k
  have hb := h.bound
  have hs := h.arrived.1
  rw [h.buffer, List.length_take]
  omega

/-- The stream ahead of a position, from the packet at the head of the buffer on. -/
theorem drop_stream (hn : stop ps k ≤ n) :
    (ps.flatten ++ rest).drop n = ((ps.drop k).flatten ++ rest).drop (n - stop ps k) := by
  have hsplit : ps.flatten ++ rest = (ps.take k).flatten ++ ((ps.drop k).flatten ++ rest) := by
    rw [← List.append_assoc, ← List.flatten_append, List.take_append_drop]
  obtain ⟨d, rfl⟩ := Nat.exists_eq_add_of_le hn
  rw [hsplit, show stop ps k + d - stop ps k = d by omega, ← List.drop_drop, stop,
    List.drop_left]

/-- Appending the next bytes of the stream moves the position. -/
theorem Reached.append {c : List UInt8} (h : Reached ps rest e k n r)
    (hc : c <+: (ps.flatten ++ rest).drop n)
    (hw : n + c.length ≤ stop ps k + packetMaxBytesLength) :
    Reached ps rest e k (n + c.length) (append r c) := by
  have hs := h.arrived.1
  have hle := hc.length_le
  rw [List.length_drop] at hle
  have hb := h.bound
  refine ⟨h.endpoint, h.consumed, h.pipeline, ?_, h.count, hw, by omega,
    h.arrived.mono (Nat.le_refl k) (Nat.le_add_right _ _)⟩
  rw [drop_stream hs] at hc
  have hsum : n + c.length - stop ps k = (n - stop ps k) + c.length := by omega
  rw [hsum, List.take_add, ← List.prefix_iff_eq_take.mp hc, Router.append]
  simp only [h.buffer]

theorem drop_eq_cons (hp : ps[k]? = some p) : ps.drop k = p :: ps.drop (k + 1) := by
  obtain ⟨hk, hget⟩ := List.getElem?_eq_some_iff.mp hp
  rw [List.drop_eq_getElem_cons hk, hget]

/-- The packet at the head of the buffer, once it is there whole. -/
theorem Reached.handlePacket (hall : ∀ p ∈ ps, Acceptable p) (h : Reached ps rest e k n r)
    (hp : ps[k]? = some p) (harr : Arrived ps (k + 1) n) :
    ∃ r', handlePacket r = .ok r' ∧ Reached ps rest e (k + 1) n r' := by
  have hacc : Acceptable p := hall p (List.mem_of_getElem? hp)
  have hk : k < ps.length := (List.getElem?_eq_some_iff.mp hp).1
  have hstop := harr.1
  have hsucc := stop_succ hp
  have hb : r.buffer = p ++ ((ps.drop (k + 1)).flatten ++ rest).take (n - stop ps (k + 1)) := by
    rw [h.buffer, drop_eq_cons hp, List.flatten_cons, List.append_assoc, List.take_append,
      List.take_of_length_le (by omega), hsucc, Nat.sub_sub]
  refine ⟨_, handlePacket_of_acceptable hacc hb, h.endpoint, ?_, ?_, rfl, hk, ?_, h.bound, harr⟩
  · simp only [h.consumed, List.take_add_one, hp, List.flatten_append]
    simp
  · simp only [h.pipeline, h.endpoint, List.take_add_one, hp, List.flatMap_append]
    simp
  · have hw := h.window
    omega

/-- **When a round takes a packet**: when there is one and it has arrived. -/
theorem Reached.whole_iff (hall : ∀ p ∈ ps, Acceptable p) (hrest : Incomplete rest)
    (h : Reached ps rest e k n r) :
    (headerBytesLength < r.buffer.length ∧
      lengthField r.buffer ≤ r.buffer.length - headerBytesLength) ↔
        k < ps.length ∧ Arrived ps (k + 1) n := by
  have hlen := h.length_buffer
  have hs := h.arrived.1
  have hk := h.count
  rcases Nat.lt_or_ge k ps.length with hlt | hge
  · have hp : ps[k]? = some ps[k] := List.getElem?_eq_getElem hlt
    have hacc : Acceptable ps[k] := hall _ (List.getElem_mem hlt)
    have hpl := hacc.length_eq
    have hsucc := stop_succ hp
    -- the header in the buffer is that of the packet
    have hfield (hhdr : headerBytesLength ≤ r.buffer.length) :
        lengthField r.buffer = lengthField ps[k] := by
      have hpre : r.buffer <+: ps[k] ++ ((ps.drop (k + 1)).flatten ++ rest) := by
        rw [h.buffer, drop_eq_cons hp, List.flatten_cons, List.append_assoc]
        exact List.take_prefix _ _
      obtain ⟨tail, htail⟩ := hpre
      rw [← lengthField_append hhdr tail, htail, lengthField_append hacc.header_le]
    unfold Arrived
    rw [Nat.add_sub_cancel]
    constructor
    · rintro ⟨hhdr, hle⟩
      have hf := hfield (by omega)
      exact ⟨hlt, by omega, .inr (by omega)⟩
    · rintro ⟨-, hstop, hhdr⟩
      have hhdr' : stop ps k + headerBytesLength < n := hhdr.resolve_left (Nat.succ_ne_zero k)
      have hf := hfield (by omega)
      omega
  · -- only the incomplete end of the stream is left
    refine ⟨fun ⟨hhdr, hle⟩ => ?_, fun ⟨hlt, _⟩ => absurd hlt (by omega)⟩
    have hb : r.buffer = rest.take (n - stop ps k) := by
      rw [h.buffer, List.drop_eq_nil_of_le hge]
      rfl
    have hsplit : rest = r.buffer ++ rest.drop (n - stop ps k) := by
      rw [hb, List.take_append_drop]
    have hf : lengthField rest = lengthField r.buffer := by
      rw [hsplit, lengthField_append (by omega)]
    have hl : r.buffer.length ≤ rest.length := by
      rw [hb, List.length_take]
      omega
    unfold Incomplete at hrest
    omega

/-- What the buffer takes of a chunk. -/
theorem Reached.fill (h : Reached ps rest e k n r) (hc : chunk <+: (ps.flatten ++ rest).drop n) :
    Reached ps rest e k (n + chunkSize r chunk) (Router.append r (chunk.take (chunkSize r chunk))) ∧
      chunkSize r chunk ≤ chunk.length ∧
      (chunkSize r chunk = chunk.length ∨
        n + chunkSize r chunk = stop ps k + packetMaxBytesLength) := by
  have hlen := h.length_buffer
  have hw := h.window
  have hs := h.arrived.1
  have hle : chunkSize r chunk ≤ chunk.length := Nat.min_le_right _ _
  have hmax : chunkSize r chunk ≤ packetMaxBytesLength - r.buffer.length := Nat.min_le_left _ _
  have htake : (chunk.take (chunkSize r chunk)).length = chunkSize r chunk := by
    rw [List.length_take]
    omega
  refine ⟨?_, hle, ?_⟩
  · have happ := h.append ((List.take_prefix (chunkSize r chunk) chunk).trans hc)
    rw [htake] at happ
    exact happ (by omega)
  · unfold chunkSize at hle hmax ⊢
    omega

/-- A round that takes nothing is the last of its read: a full buffer would hold a
packet. -/
theorem Reached.idle (hall : ∀ p ∈ ps, Acceptable p) (hrest : Incomplete rest)
    (hmax : rest.length ≤ packetMaxBytesLength) {m n' : ℕ} (h : Reached ps rest e k m r)
    (hn' : m ≤ n') (hb : n' ≤ (ps.flatten ++ rest).length)
    (hfull : m = n' ∨ m = stop ps k + packetMaxBytesLength)
    (hno : ¬ (headerBytesLength < r.buffer.length ∧
      lengthField r.buffer ≤ r.buffer.length - headerBytesLength)) :
    m = n' ∧ ∀ t ≤ ps.length, t ≤ k ↔ Arrived ps t n' ∧
      (t ≤ k + 1 ∨ stop ps (t - 2) + packetMaxBytesLength < n') := by
  rw [h.whole_iff hall hrest] at hno
  have hk := h.count
  have hhdr : headerBytesLength < packetMaxBytesLength := by decide
  have hm : m = n' := by
    rcases hfull with hm | hm
    · exact hm
    · rcases Nat.lt_or_ge k ps.length with hlt | hge
      · have hsucc := stop_succ (List.getElem?_eq_getElem hlt)
        have hle := (hall _ (List.getElem_mem hlt)).length_le
        exact absurd ⟨hlt, by omega, .inr (by rw [Nat.add_sub_cancel]; omega)⟩ hno
      · have hlen := stop_length ps
        have heq : k = ps.length := by omega
        subst heq
        rw [List.length_append] at hb
        omega
  subst hm
  refine ⟨rfl, fun t ht => ⟨fun htk => ⟨h.arrived.mono htk (Nat.le_refl _), .inl (by omega)⟩, ?_⟩⟩
  rintro ⟨harr, -⟩
  by_contra hc
  exact hno ⟨by omega, harr.mono (by omega) (Nat.le_refl _)⟩

/-- **One read, in positions.** It takes the packets that have arrived, up to the one
after those that the full buffers of the earlier rounds held. -/
theorem read_of_reached (hall : ∀ p ∈ ps, Acceptable p) (hrest : Incomplete rest)
    (hmax : rest.length ≤ packetMaxBytesLength) (h : Reached ps rest e k n r) (hne : chunk ≠ [])
    (hc : chunk <+: (ps.flatten ++ rest).drop n) :
    ∃ k', Reached ps rest e k' (n + chunk.length) (read r chunk).2 ∧
      ∀ t ≤ ps.length, t ≤ k' ↔ Arrived ps t (n + chunk.length) ∧
        (t ≤ k + 1 ∨ stop ps (t - 2) + packetMaxBytesLength < n + chunk.length) := by
  have hbound : n + chunk.length ≤ (ps.flatten ++ rest).length := by
    have hle := hc.length_le
    have hb := h.bound
    rw [List.length_drop] at hle
    omega
  fun_induction read r chunk generalizing k n with
  | case1 r => exact absurd rfl hne
  | case2 r chunk _ r₁ =>
    -- not even a header has arrived
    rename_i hhdr
    obtain ⟨hr₁, hsize, hfull⟩ := h.fill hc
    obtain ⟨hm, ht⟩ := hr₁.idle hall hrest hmax (by omega) hbound (by omega)
      (fun hw => absurd hw.1 (Nat.not_lt.mpr hhdr))
    exact ⟨k, hm ▸ hr₁, ht⟩
  | case3 r chunk _ r₁ _ =>
    -- a header, and less than what it announces
    rename_i hlen
    obtain ⟨hr₁, hsize, hfull⟩ := h.fill hc
    obtain ⟨hm, ht⟩ := hr₁.idle hall hrest hmax (by omega) hbound (by omega)
      (fun hw => absurd hw.2 (Nat.not_le.mpr hlen))
    exact ⟨k, hm ▸ hr₁, ht⟩
  | case4 r chunk _ r₁ hhdr hlen err =>
    -- a whole packet that is acceptable is not refused
    rename_i herr
    obtain ⟨hr₁, -, -⟩ := h.fill hc
    obtain ⟨hlt, harr⟩ := (hr₁.whole_iff hall hrest).mp ⟨Nat.lt_of_not_le hhdr, Nat.le_of_not_lt hlen⟩
    obtain ⟨r', hr', -⟩ := hr₁.handlePacket hall (List.getElem?_eq_getElem hlt) harr
    rw [hr'] at herr
    cases herr
  | case5 r chunk _ r₁ hhdr hlen r₂ hr₂ =>
    rename_i ih
    obtain ⟨hr₁, hsize, hfull⟩ := h.fill hc
    obtain ⟨hlt, harr⟩ := (hr₁.whole_iff hall hrest).mp ⟨Nat.lt_of_not_le hhdr, Nat.le_of_not_lt hlen⟩
    obtain ⟨r', hr', hreach⟩ := hr₁.handlePacket hall (List.getElem?_eq_getElem hlt) harr
    rw [hr'] at hr₂
    cases hr₂
    have hwin := hr₁.window
    by_cases hdone : chunkSize r chunk = chunk.length
    · -- nothing is left of the chunk: the round was the last
      rw [hdone] at hreach hwin harr
      rw [hdone, List.drop_length, read, if_pos rfl]
      refine ⟨k + 1, hreach, fun t _ => ⟨fun ht => ⟨harr.mono ht (Nat.le_refl _), .inl ht⟩, ?_⟩⟩
      rintro ⟨-, ht | ht⟩
      · exact ht
      · by_contra hgt
        have hmono := stop_mono ps (show k ≤ t - 2 by omega)
        omega
    · have hend : n + chunkSize r chunk + (chunk.drop (chunkSize r chunk)).length =
          n + chunk.length := by
        rw [List.length_drop]
        omega
      have hpre : chunk.drop (chunkSize r chunk) <+:
          (ps.flatten ++ rest).drop (n + chunkSize r chunk) := by
        rw [← List.drop_drop]
        obtain ⟨tail, htail⟩ := hc
        rw [← htail, List.drop_append_of_le_length hsize]
        exact List.prefix_append _ _
      obtain ⟨k', hk', ht⟩ := ih hreach (by
        intro hnil
        have := congrArg List.length hnil
        rw [List.length_drop, List.length_nil] at this
        omega) hpre (by omega)
      rw [hend] at hk' ht
      refine ⟨k', hk', fun t htle => (ht t htle).trans (and_congr_right fun _ => ?_)⟩
      -- the packet after the one just taken has a full buffer behind it
      constructor
      · rintro (hle | hlt')
        · rcases Nat.lt_or_ge t (k + 2) with hlt' | hge
          · exact .inl (by omega)
          · have heq : t - 2 = k := by omega
            exact .inr (by rw [heq]; omega)
        · exact .inr hlt'
      · rintro (hle | hlt')
        · exact .inl (by omega)
        · exact .inr hlt'

/-! ## A connection -/

theorem readAll_append (r : Reception) (chunks : List (List UInt8)) (chunk : List UInt8) :
    readAll r (chunks ++ [chunk]) = (read (readAll r chunks) chunk).2 := by
  simp [readAll]

theorem reached_start (ps : List (List UInt8)) (rest : List UInt8) (e : Endpoint) :
    Reached ps rest e 0 0 (start e) where
  endpoint := rfl
  consumed := rfl
  pipeline := rfl
  buffer := rfl
  count := Nat.zero_le _
  window := Nat.zero_le _
  bound := Nat.zero_le _
  arrived := ⟨Nat.le_refl _, .inl rfl⟩

/-- **How far the reads of a prefix of the stream get.** -/
theorem reached_readAll (hall : ∀ p ∈ ps, Acceptable p) (hrest : Incomplete rest)
    (hmax : rest.length ≤ packetMaxBytesLength) (e : Endpoint) (chunks : List (List UInt8))
    (hpre : chunks.flatten <+: ps.flatten ++ rest) (hne : [] ∉ chunks) :
    ∃ k, Reached ps rest e k chunks.flatten.length (readAll (start e) chunks) ∧
      ∀ t ≤ ps.length, t ≤ k ↔ KeepsUp ps t chunks.reverse := by
  induction chunks using List.reverseRecOn with
  | nil => exact ⟨0, reached_start ps rest e, fun t _ => Nat.le_zero⟩
  | append_singleton chunks chunk ih =>
    rw [List.flatten_append, List.flatten_singleton] at hpre ⊢
    obtain ⟨tail, htail⟩ := hpre
    obtain ⟨k, hk, hkeeps⟩ := ih ⟨chunk ++ tail, by rw [← htail, List.append_assoc]⟩
      (fun hm => hne (List.mem_append_left _ hm))
    have hchunk : chunk ≠ [] := fun hc => hne (by simp [hc])
    have hnext : chunk <+: (ps.flatten ++ rest).drop chunks.flatten.length := by
      rw [← htail, List.append_assoc, List.drop_left]
      exact List.prefix_append _ _
    obtain ⟨k', hk', hiff⟩ := read_of_reached hall hrest hmax hk hchunk hnext
    rw [← List.length_append] at hk' hiff
    refine ⟨k', by rwa [readAll_append], fun t ht => ?_⟩
    have hlen : (chunk :: chunks.reverse).flatten.length = (chunks.flatten ++ chunk).length := by
      rw [List.flatten_cons, List.length_append, List.length_append, List.length_flatten,
        List.length_flatten, List.map_reverse, List.sum_reverse, Nat.add_comm]
    rw [List.reverse_append, List.reverse_singleton, List.singleton_append, KeepsUp, hlen,
      hiff t ht, ← hkeeps (t - 1) (by omega)]
    refine and_congr_right fun _ => ?_
    omega

/-- Once all packets are taken the rest of the stream is in the buffer, and not
before. -/
theorem Reached.reassembled_iff (hall : ∀ p ∈ ps, Acceptable p) (hrest : Incomplete rest)
    (h : Reached ps rest e k (ps.flatten ++ rest).length r) :
    Reassembled (ps.flatten ++ rest) r ↔ k = ps.length := by
  have hlen := length_ahead ps rest k
  have hbuf : r.buffer = (ps.drop k).flatten ++ rest := by
    rw [h.buffer, List.take_of_length_le (by omega)]
  constructor
  · intro hr
    have hk := h.count
    rcases Nat.lt_or_ge k ps.length with hlt | hge
    · -- the buffer would start with a whole packet
      have hacc : Acceptable ps[k] := hall _ (List.getElem_mem hlt)
      have hinc := hr.incomplete
      rw [hbuf, drop_eq_cons (List.getElem?_eq_getElem hlt), List.flatten_cons,
        List.append_assoc] at hinc
      unfold Incomplete at hinc
      rw [lengthField_append hacc.header_le, ← hacc.length_eq, List.length_append] at hinc
      have hhdr := hacc.header_le
      omega
    · omega
  · rintro rfl
    rw [List.drop_length] at hbuf
    exact ⟨by rw [h.consumed, hbuf, List.take_length]; rfl, by rwa [hbuf]⟩

/-- A gossip packet with an empty signature part. -/
def emptyGossip : List UInt8 := 2 :: 1 :: 85 :: List.replicate 341 0

/-- Two packets in one read. -/
def oneRead : Cut (emptyGossip ++ emptyGossip) :=
  ⟨[emptyGossip ++ emptyGossip], List.append_nil _, fun h => nomatch List.mem_singleton.mp h⟩

/-- The same packets, a read for each. -/
def twoReads : Cut (emptyGossip ++ emptyGossip) :=
  ⟨[emptyGossip, emptyGossip], congrArg (emptyGossip ++ ·) (List.append_nil _), by decide +kernel⟩

/-- A neighbor on the same machine. -/
def localhost : Endpoint := ⟨[127, 0, 0, 1], 15600⟩

end Router

end Entangled
