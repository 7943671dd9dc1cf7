import Entangled.Network.Router
import Entangled.Common.Packing
/-!
# Gossip from neighbor to neighbor

`neighbor_send_packet`, which leaves out the zeros at the end of the signature part, and
`router_read` once more, now over the neighbor's buffer as it is in memory: an array that is never
cleared, of which the first `buffer_size` bytes count. `readMemory_reception` says that the bytes
behind these make no difference; what the two sides do to a packet is then a matter of
`Router.read`.
-/

namespace Entangled

namespace Router

/-! ## Sending -/

/-- The loop over the signature part of the content, from its last byte down: what is left of
`content_length` when it stops. -/
def contentLengthFrom (content : List UInt8) : ℕ → ℕ
  | 0 => 0
  | i + 1 => if content.getD i 0 = 0 then contentLengthFrom content i else i + 1

/-- `content_length`. -/
def contentLength (content : List UInt8) : ℕ := contentLengthFrom content gossipSigMaxBytesLength

/-- A header; the length goes through `htons`. -/
def headerBytes (type : UInt8) (length : ℕ) : List UInt8 :=
  [type, UInt8.ofNat (length / 256), UInt8.ofNat length]

/-- The bytes `neighbor_send_packet` writes to its buffer. -/
def packetBytes (content : List UInt8) : List UInt8 :=
  let bufferSize :=
    contentLength content + gossipNonSigBytesLength + gossipRequestedTxHashBytesLength
  headerBytes 2 bufferSize ++ content.take (contentLength content) ++
    (content.drop gossipSigMaxBytesLength).take
      (gossipNonSigBytesLength + gossipRequestedTxHashBytesLength)

/-- The errors of `neighbor_send_packet`. -/
inductive SendError
  | nullParam
  | oom
  | asyncCallFailed
  deriving DecidableEq, Repr

/-- The sender's end of a connection. -/
structure Sending where
  stream : Bool
  writeQueue : List (List UInt8)
  deriving DecidableEq, Repr

/-- `neighbor_send_packet`, with the outcomes of `malloc`, of the one in
`neighbor_write_queue_push`, whose error is not looked at, and of `uv_async_send`. -/
def neighborSendPacket (malloc push asyncSend : Bool) (s : Sending) (content : List UInt8) :
    Except SendError Unit × Sending :=
  if !s.stream then (.error .nullParam, s)
  else if !malloc then (.error .oom, s)
  else
    let s := if push then { s with writeQueue := s.writeQueue ++ [packetBytes content] } else s
    if !asyncSend then (.error .asyncCallFailed, s) else (.ok (), s)

/-! ## Receiving, with the buffer in memory -/

/-- `neighbor_t`, with what it has added to the processor stage. -/
structure Neighbor where
  endpoint : Endpoint
  buffer : List UInt8
  bufferSize : ℕ
  pipeline : List Gossip
  deriving DecidableEq, Repr

/-- The `memcpy` and `memset` calls that fill the content of a gossip packet from the buffer, with
`ptr` behind the header. -/
def rebuildContent (buffer : List UInt8) (headerLength : ℕ) : List UInt8 :=
  let variableSize := headerLength - gossipNonSigBytesLength - gossipRequestedTxHashBytesLength
  let ptr := buffer.drop headerBytesLength
  let content := List.replicate gossipMaxBytesLength 0
  let content := blit content 0 (ptr.take variableSize)
  let content :=
    blit content variableSize (List.replicate (gossipSigMaxBytesLength - variableSize) 0)
  let content := blit content gossipSigMaxBytesLength
    ((ptr.drop variableSize).take gossipNonSigBytesLength)
  blit content (gossipSigMaxBytesLength + gossipNonSigBytesLength)
    ((ptr.drop (variableSize + gossipNonSigBytesLength)).take gossipRequestedTxHashBytesLength)

/-- The gossip of the packet at the head of the buffer. -/
def dispatchMemory (n : Neighbor) : Except ReadError (List Gossip) :=
  if typeField n.buffer < 3 then
    if typeField n.buffer = 1 then .ok []
    else if typeField n.buffer = 2 then
      if lengthField n.buffer < gossipMinBytesLength ∨
          gossipMaxBytesLength < lengthField n.buffer then
        .error .invalidPacket
      else .ok [⟨rebuildContent n.buffer (lengthField n.buffer), n.endpoint⟩]
    else .error .invalidPacketType
  else .error .invalidPacketType

/-- The `memcpy` of a chunk behind what was read before. -/
def fillMemory (n : Neighbor) (chunk : List UInt8) : Neighbor :=
  { n with
    buffer := blit n.buffer n.bufferSize chunk
    bufferSize := n.bufferSize + chunk.length }

/-- Hand on the packet at the head and `memmove` what is behind it. -/
def shiftMemory (n : Neighbor) (out : List Gossip) : Neighbor :=
  let size := headerBytesLength + lengthField n.buffer
  { n with
    buffer := blit n.buffer 0 ((n.buffer.drop size).take (packetMaxBytesLength - size))
    bufferSize := n.bufferSize - size
    pipeline := n.pipeline ++ out }

/-- `router_read`. -/
def readMemory (n : Neighbor) (chunk : List UInt8) : Except ReadError Unit × Neighbor :=
  if chunk = [] then (.ok (), n)
  else
    let chunkSize := min (packetMaxBytesLength - n.bufferSize) chunk.length
    let n₁ := fillMemory n (chunk.take chunkSize)
    if n₁.bufferSize ≤ headerBytesLength then (.ok (), n₁)
    else if n₁.bufferSize - headerBytesLength < lengthField n₁.buffer then (.ok (), n₁)
    else
      match dispatchMemory n₁ with
      | .error e => (.error e, n₁)
      | .ok out => readMemory (shiftMemory n₁ out) (chunk.drop chunkSize)
termination_by n.bufferSize + chunk.length
decreasing_by
  have hhdr : headerBytesLength = 3 := rfl
  simp only [n₁, chunkSize, shiftMemory, fillMemory, List.length_take, List.length_drop] at *
  omega

/-- The reads of a connection, one after the other. -/
def readMemoryAll (n : Neighbor) (chunks : List (List UInt8)) : Neighbor :=
  chunks.foldl (fun n chunk => (readMemory n chunk).2) n

/-! ## The bytes that count -/

/-- The buffer has its size, and no more bytes count than it has. -/
structure Neighbor.InBounds (n : Neighbor) : Prop where
  length : n.buffer.length = packetMaxBytesLength
  size : n.bufferSize ≤ packetMaxBytesLength

/-- A neighbor holds in memory what `r` says. -/
structure Holds (n : Neighbor) (r : Reception) : Prop where
  bounds : n.InBounds
  endpoint : r.endpoint = n.endpoint
  buffer : r.buffer = n.buffer.take n.bufferSize
  pipeline : r.pipeline = n.pipeline

variable {n n' : Neighbor} {r r' : Reception} {chunk content : List UInt8}

theorem Holds.length (h : Holds n r) : r.buffer.length = n.bufferSize := by
  rw [h.buffer, List.length_take, h.bounds.length, Nat.min_eq_left h.bounds.size]

theorem Holds.fill (h : Holds n r) (hc : n.bufferSize + chunk.length ≤ packetMaxBytesLength) :
    Holds (fillMemory n chunk) (append r chunk) := by
  have hlen := h.bounds.length
  refine ⟨⟨?_, hc⟩, h.endpoint, ?_, h.pipeline⟩
  · rw [fillMemory, length_blit (by omega), hlen]
  · have htake : (n.buffer.take n.bufferSize).length = n.bufferSize := by
      rw [List.length_take, hlen, Nat.min_eq_left h.bounds.size]
    rw [append, h.buffer]
    simp only [fillMemory, blit]
    rw [List.take_left' (by rw [List.length_append, htake])]

/-- The fields of a header that has arrived. -/
theorem Holds.fields (h : Holds n r) (hs : headerBytesLength < n.bufferSize) :
    lengthField r.buffer = lengthField n.buffer ∧ typeField r.buffer = typeField n.buffer := by
  have hle : headerBytesLength ≤ (n.buffer.take n.bufferSize).length := by
    rw [← h.buffer, h.length]
    exact hs.le
  have hsplit := List.take_append_drop n.bufferSize n.buffer
  rw [h.buffer]
  constructor
  · conv_rhs => rw [← hsplit]
    rw [lengthField_append hle]
  · conv_rhs => rw [← hsplit]
    rw [typeField_append hle]

theorem blit_behind (front src : List UInt8) (k : ℕ) :
    blit (front ++ List.replicate (src.length + k) 0) front.length src =
      (front ++ src) ++ List.replicate k 0 := by
  rw [blit, List.take_left, ← List.drop_drop, List.drop_left, List.drop_replicate,
    Nat.add_sub_cancel_left]

/-- The content is rebuilt from the payload, and from nothing behind it. -/
theorem rebuildContent_eq {b : List UInt8} {len : ℕ} (hmin : gossipMinBytesLength ≤ len)
    (hmax : len ≤ gossipMaxBytesLength) (hlen : headerBytesLength + len ≤ b.length) :
    rebuildContent b len = gossipContent ((b.drop headerBytesLength).take len) := by
  have hM : gossipMaxBytesLength =
    gossipNonSigBytesLength + gossipSigMaxBytesLength + gossipRequestedTxHashBytesLength := rfl
  have hm : gossipMinBytesLength =
    gossipNonSigBytesLength + gossipRequestedTxHashBytesLength := rfl
  unfold rebuildContent gossipContent
  dsimp only
  rw [List.length_take, List.length_drop, Nat.min_eq_left (by omega), hM]
  rw [hM] at hmax
  rw [hm] at hmin
  generalize hp : b.drop headerBytesLength = p
  have hplen : len ≤ p.length := by
    rw [← hp, List.length_drop]
    omega
  generalize gossipNonSigBytesLength = N at *
  generalize gossipSigMaxBytesLength = S at *
  generalize gossipRequestedTxHashBytesLength = R at *
  obtain ⟨v, rfl⟩ : ∃ v, len = v + (N + R) := ⟨len - (N + R), by omega⟩
  rw [show v + (N + R) - N - R = v by omega]
  -- the four parts of the content, written one behind the other
  have hsig : (p.take v).length = v := by
    rw [List.length_take, Nat.min_eq_left (by omega)]
  have hnon : ((p.drop v).take N).length = N := by
    rw [List.length_take, List.length_drop]
    omega
  have hreq : ((p.drop (v + N)).take R).length = R := by
    rw [List.length_take, List.length_drop]
    omega
  have w₁ := blit_behind [] (p.take v) (N + S + R - v)
  have w₂ := blit_behind (p.take v) (List.replicate (S - v) 0) (N + R)
  have w₃ := blit_behind (p.take v ++ List.replicate (S - v) 0) ((p.drop v).take N) R
  have w₄ := blit_behind (p.take v ++ List.replicate (S - v) 0 ++ (p.drop v).take N)
    ((p.drop (v + N)).take R) 0
  rw [hsig, List.nil_append, List.nil_append, List.length_nil,
    show v + (N + S + R - v) = N + S + R by omega] at w₁
  rw [hsig, List.length_replicate, show S - v + (N + R) = N + S + R - v by omega] at w₂
  rw [hnon, List.length_append, hsig, List.length_replicate, show v + (S - v) = S by omega] at w₃
  rw [hreq, List.length_append, List.length_append, hsig, hnon, List.length_replicate,
    show v + (S - v) + N = S + N by omega, List.replicate_zero, List.append_nil, Nat.add_zero] at w₄
  rw [w₁, w₂, w₃, w₄, List.take_take, Nat.min_eq_left (by omega), List.drop_take, List.take_take,
    Nat.min_eq_left (by omega), List.drop_take, List.take_take, Nat.min_eq_left (by omega)]

/-- Both buffers hand on the same gossip. -/
theorem Holds.dispatch (h : Holds n r) (hs : headerBytesLength < n.bufferSize)
    (hlen : lengthField n.buffer ≤ n.bufferSize - headerBytesLength) :
    dispatch r.endpoint r.buffer = dispatchMemory n := by
  obtain ⟨hl, ht⟩ := h.fields hs
  unfold Router.dispatch dispatchMemory
  rw [hl, ht]
  split_ifs with h₁ h₂ h₃ h₄
  · rfl
  · rfl
  · have hbuf := h.bounds.length
    have hsize := h.bounds.size
    rw [rebuildContent_eq (by omega) (by omega) (by omega), payload, hl, h.buffer, h.endpoint,
      List.drop_take, List.take_take, Nat.min_eq_left hlen]
  · rfl
  · rfl

theorem Holds.shift (h : Holds n r) (hs : headerBytesLength < n.bufferSize) (out : List Gossip) :
    Holds (shiftMemory n out) { r with
      buffer := r.buffer.drop (headerBytesLength + lengthField r.buffer)
      pipeline := r.pipeline ++ out
      consumed := r.consumed ++ r.buffer.take (headerBytesLength + lengthField r.buffer) } := by
  have hbuf := h.bounds.length
  have hsize := h.bounds.size
  have hmove : ((n.buffer.drop (headerBytesLength + lengthField n.buffer)).take
      (packetMaxBytesLength - (headerBytesLength + lengthField n.buffer))).length =
      packetMaxBytesLength - (headerBytesLength + lengthField n.buffer) := by
    rw [List.length_take, List.length_drop, hbuf, Nat.min_self]
  refine ⟨⟨?_, ?_⟩, h.endpoint, ?_, ?_⟩
  · rw [shiftMemory, length_blit (by omega), hbuf]
  · simp only [shiftMemory]
    omega
  · simp only [shiftMemory]
    rw [(h.fields hs).1, h.buffer, List.drop_take, blit, List.take_zero, List.nil_append,
      List.take_append_of_le_length (by omega), List.take_take, Nat.min_eq_left (by omega)]
  · simp only [shiftMemory, h.pipeline]

/-- One round of `router_read`. -/
theorem read_eq (r : Reception) (hc : chunk ≠ []) :
    read r chunk =
      if (append r (chunk.take (chunkSize r chunk))).buffer.length ≤ headerBytesLength then
        (.ok (), append r (chunk.take (chunkSize r chunk)))
      else if (append r (chunk.take (chunkSize r chunk))).buffer.length - headerBytesLength <
          lengthField (append r (chunk.take (chunkSize r chunk))).buffer then
        (.ok (), append r (chunk.take (chunkSize r chunk)))
      else
        match handlePacket (append r (chunk.take (chunkSize r chunk))) with
        | .error e => (.error e, append r (chunk.take (chunkSize r chunk)))
        | .ok r₂ => read r₂ (chunk.drop (chunkSize r chunk)) := by
  conv_lhs => rw [read]
  rw [if_neg hc]
  dsimp only
  split_ifs
  · rfl
  · rfl
  · split <;> rename_i heq <;> rw [heq]

/-- **A read from memory is a read of the bytes that count.** -/
theorem readMemory_reception (n : Neighbor) (chunk : List UInt8) : ∀ r, Holds n r →
    (readMemory n chunk).1 = (read r chunk).1 ∧
      Holds (readMemory n chunk).2 (read r chunk).2 := by
  fun_induction readMemory n chunk with
  | case1 n =>
    intro r h
    rw [read, if_pos rfl]
    exact ⟨rfl, h⟩
  | case2 n chunk hne size n₁ hhdr =>
    intro r h
    have hfill := filled h chunk
    rw [read_eq r hne, if_pos (by rw [hfill.length]; exact hhdr)]
    exact ⟨rfl, hfill⟩
  | case3 n chunk hne size n₁ hhdr hlen =>
    intro r h
    have hfill := filled h chunk
    have hfields := hfill.fields (Nat.lt_of_not_le hhdr)
    rw [read_eq r hne, if_neg (by rw [hfill.length]; exact hhdr),
      if_pos (by rw [hfill.length, hfields.1]; exact hlen)]
    exact ⟨rfl, hfill⟩
  | case4 n chunk hne size n₁ hhdr hlen e he =>
    intro r h
    have hfill := filled h chunk
    have hfields := hfill.fields (Nat.lt_of_not_le hhdr)
    have hdisp := hfill.dispatch (Nat.lt_of_not_le hhdr) (Nat.le_of_not_lt hlen)
    have herr : handlePacket (append r (chunk.take (chunkSize r chunk))) = .error e := by
      rw [handlePacket, hdisp, he]
    rw [read_eq r hne, if_neg (by rw [hfill.length]; exact hhdr),
      if_neg (by rw [hfill.length, hfields.1]; exact hlen)]
    rw [herr]
    exact ⟨rfl, hfill⟩
  | case5 n chunk hne size n₁ hhdr hlen out hout ih =>
    intro r h
    have hfill := filled h chunk
    have hfields := hfill.fields (Nat.lt_of_not_le hhdr)
    have hdisp := hfill.dispatch (Nat.lt_of_not_le hhdr) (Nat.le_of_not_lt hlen)
    have hok := handlePacket_eq_ok.mpr ⟨out, hdisp.trans hout, rfl⟩
    have hshift := hfill.shift (Nat.lt_of_not_le hhdr) out
    rw [read_eq r hne, if_neg (by rw [hfill.length]; exact hhdr),
      if_neg (by rw [hfill.length, hfields.1]; exact hlen)]
    rw [hok]
    have hsize : chunkSize r chunk = size := by rw [chunkSize, h.length]
    rw [hsize] at hshift ⊢
    exact ih _ hshift
where
  filled {n : Neighbor} {r : Reception} (h : Holds n r) (chunk : List UInt8) :
      Holds (fillMemory n (chunk.take (min (packetMaxBytesLength - n.bufferSize) chunk.length)))
        (append r (chunk.take (chunkSize r chunk))) := by
    have hsize := h.bounds.size
    rw [chunkSize, h.length]
    refine h.fill ?_
    rw [List.length_take]
    omega

theorem readMemoryAll_reception (chunks : List (List UInt8)) (h : Holds n r) :
    Holds (readMemoryAll n chunks) (readAll r chunks) := by
  induction chunks generalizing n r with
  | nil => exact h
  | cons chunk chunks ih => exact ih (readMemory_reception n chunk r h).2

/-! ## One packet, in any number of reads -/

variable {p : List UInt8}

/-- Bytes that end within a packet stay in the buffer. -/
theorem read_part {rest : List UInt8} (hp : Acceptable p)
    (hb : r.buffer ++ chunk ++ rest = p) (hrest : rest ≠ []) :
    read r chunk = (.ok (), append r chunk) := by
  by_cases hc : chunk = []
  · rw [hc, read, if_pos rfl, append, List.append_nil]
  · have hlen := hp.length_eq
    have hle := hp.length_le
    have hpos := List.length_pos_iff.mpr hrest
    have hsplit := congrArg List.length hb
    rw [List.length_append, List.length_append] at hsplit
    have hsize : chunkSize r chunk = chunk.length := by
      unfold chunkSize
      omega
    have hbuf : (append r chunk).buffer.length = r.buffer.length + chunk.length :=
      List.length_append
    rw [read_eq r hc, hsize, List.take_length, hbuf]
    by_cases hhdr : r.buffer.length + chunk.length ≤ headerBytesLength
    · rw [if_pos hhdr]
    · have hfield : lengthField (append r chunk).buffer = lengthField p := by
        rw [← hb]
        refine (lengthField_append ?_ rest).symm
        rw [hbuf]
        omega
      rw [if_neg hhdr, hfield, if_pos (by omega)]

/-- The last of its bytes hand it on. -/
theorem read_last (hp : Acceptable p) (hlen : 0 < lengthField p) (hb : r.buffer ++ chunk = p)
    (hc : chunk ≠ []) :
    read r chunk = (.ok (), { r with
      buffer := [], pipeline := r.pipeline ++ delivery r.endpoint p, consumed := r.consumed ++ p }) := by
  have hlen' := hp.length_eq
  have hle := hp.length_le
  have hsplit := congrArg List.length hb
  rw [List.length_append] at hsplit
  have hsize : chunkSize r chunk = chunk.length := by
    unfold chunkSize
    omega
  have hbuf : (append r chunk).buffer = p ++ [] := by
    rw [List.append_nil]
    exact hb
  have hhandle := handlePacket_of_acceptable hp hbuf
  have hbuf' : (append r chunk).buffer = p := hb
  rw [read_eq r hc, hsize, List.take_length, hbuf', if_neg (by omega), if_neg (by omega), hhandle]
  dsimp only
  rw [List.drop_length, read, if_pos rfl]
  rfl

/-- **A packet is handed on whole**, however it was cut. -/
theorem readAll_packet (hp : Acceptable p) (hlen : 0 < lengthField p)
    {chunks : List (List UInt8)} (hne : [] ∉ chunks) (hb : r.buffer ++ chunks.flatten = p)
    (hopen : chunks ≠ []) :
    readAll r chunks = { r with
      buffer := [], pipeline := r.pipeline ++ delivery r.endpoint p,
      consumed := r.consumed ++ p } := by
  induction chunks generalizing r with
  | nil => exact absurd rfl hopen
  | cons chunk chunks ih =>
    rw [List.flatten_cons, ← List.append_assoc] at hb
    have hc : chunk ≠ [] := fun h => hne (h ▸ List.mem_cons_self)
    have hne' : [] ∉ chunks := fun h => hne (List.mem_cons_of_mem chunk h)
    rw [readAll, List.foldl_cons, ← readAll]
    rcases chunks with _ | ⟨next, chunks⟩
    · rw [List.flatten_nil, List.append_nil] at hb
      rw [read_last hp hlen hb hc]
      rfl
    · have hrest : (next :: chunks).flatten ≠ [] := by
        intro h
        rw [List.flatten_cons] at h
        exact hne' ((List.append_eq_nil_iff.mp h).1 ▸ List.mem_cons_self)
      rw [read_part hp hb hrest]
      exact ih hne' hb (List.cons_ne_nil _ _)

/-! ## What is sent -/

theorem contentLengthFrom_spec (content : List UInt8) (k : ℕ) :
    contentLengthFrom content k ≤ k ∧
      ∀ i, contentLengthFrom content k ≤ i → i < k → content.getD i 0 = 0 := by
  induction k with
  | zero => exact ⟨le_rfl, fun i _ hi => absurd hi (Nat.not_lt_zero i)⟩
  | succ k ih =>
    rw [contentLengthFrom]
    split_ifs with hz
    · refine ⟨ih.1.trans (Nat.le_succ k), fun i hi hk => ?_⟩
      rcases Nat.eq_or_lt_of_le (Nat.lt_succ_iff.mp hk) with rfl | hlt
      · exact hz
      · exact ih.2 i hi hlt
    · exact ⟨le_rfl, fun i hi hk => by omega⟩

/-- What `neighbor_send_packet` leaves out are zeros. -/
theorem take_contentLength (h : content.length = gossipMaxBytesLength) :
    content.take (contentLength content) ++
        List.replicate (gossipSigMaxBytesLength - contentLength content) 0 =
      content.take gossipSigMaxBytesLength := by
  obtain ⟨hle, hzero⟩ := contentLengthFrom_spec content gossipSigMaxBytesLength
  have hmax : gossipMaxBytesLength =
    gossipNonSigBytesLength + gossipSigMaxBytesLength + gossipRequestedTxHashBytesLength := rfl
  change contentLength content ≤ gossipSigMaxBytesLength at hle
  change ∀ i, contentLength content ≤ i → _ at hzero
  generalize contentLength content = c at hle hzero ⊢
  have htail : (content.drop c).take (gossipSigMaxBytesLength - c) =
      List.replicate (gossipSigMaxBytesLength - c) 0 := by
    refine List.eq_replicate_iff.mpr ⟨?_, fun b hb => ?_⟩
    · rw [List.length_take, List.length_drop]
      omega
    · obtain ⟨i, hi, rfl⟩ := List.getElem_of_mem hb
      rw [List.length_take] at hi
      have := hzero (c + i) (by omega) (by omega)
      rw [List.getElem_take, List.getElem_drop]
      rwa [List.getD_eq_getElem?_getD, List.getElem?_eq_getElem (by omega), Option.getD_some] at this
  rw [← htail]
  conv_rhs => rw [show gossipSigMaxBytesLength = c + (gossipSigMaxBytesLength - c) by omega,
    List.take_add]

/-- The packet as it is written is one that is read. -/
theorem acceptable_packetBytes (h : content.length = gossipMaxBytesLength) :
    Acceptable (packetBytes content) ∧ typeField (packetBytes content) = 2 ∧
      lengthField (packetBytes content) =
        contentLength content + gossipNonSigBytesLength + gossipRequestedTxHashBytesLength ∧
      payload (packetBytes content) = content.take (contentLength content) ++
        content.drop gossipSigMaxBytesLength := by
  have hle : contentLength content ≤ gossipSigMaxBytesLength :=
    (contentLengthFrom_spec content gossipSigMaxBytesLength).1
  have h₁ : gossipNonSigBytesLength = 292 := rfl
  have h₂ : gossipSigMaxBytesLength = 1312 := rfl
  have h₃ : gossipRequestedTxHashBytesLength = 49 := rfl
  have h₄ : gossipMaxBytesLength = 1653 := rfl
  have h₅ : packetMaxBytesLength = 1656 := rfl
  have h₆ : gossipMinBytesLength = 341 := rfl
  have hhdr : headerBytesLength = 3 := rfl
  have hfield : lengthField (packetBytes content) =
      contentLength content + gossipNonSigBytesLength + gossipRequestedTxHashBytesLength := by
    show (UInt8.ofNat (_ / 256)).toNat * 256 + (UInt8.ofNat _).toNat = _
    rw [UInt8.toNat_ofNat', UInt8.toNat_ofNat']
    omega
  have hlen : (packetBytes content).length = headerBytesLength +
      (contentLength content + gossipNonSigBytesLength + gossipRequestedTxHashBytesLength) := by
    rw [packetBytes, List.length_append, List.length_append, headerBytes, List.length_take,
      List.length_take, List.length_drop]
    simp only [List.length_cons, List.length_nil]
    omega
  have htail : (content.drop gossipSigMaxBytesLength).take
      (gossipNonSigBytesLength + gossipRequestedTxHashBytesLength) =
      content.drop gossipSigMaxBytesLength := by
    refine List.take_of_length_le ?_
    rw [List.length_drop]
    omega
  have hpayload : (packetBytes content).drop headerBytesLength =
      content.take (contentLength content) ++ content.drop gossipSigMaxBytesLength := by
    rw [packetBytes, htail, List.append_assoc]
    rfl
  refine ⟨⟨by rw [hlen, hfield], by omega, .inr ⟨rfl, by omega⟩⟩, rfl, hfield, ?_⟩
  rw [payload, hpayload, List.take_of_length_le]
  have := congrArg List.length hpayload
  rw [List.length_drop] at this
  omega

/-- The content comes back. -/
theorem gossipContent_packetBytes (h : content.length = gossipMaxBytesLength) :
    gossipContent (payload (packetBytes content)) = content := by
  obtain ⟨hp, -, hfield, hpayload⟩ := acceptable_packetBytes h
  have hle : contentLength content ≤ gossipSigMaxBytesLength :=
    (contentLengthFrom_spec content gossipSigMaxBytesLength).1
  have hmax : gossipMaxBytesLength =
    gossipNonSigBytesLength + gossipSigMaxBytesLength + gossipRequestedTxHashBytesLength := rfl
  have hzeros := take_contentLength h
  have hsig : (content.take (contentLength content)).length = contentLength content := by
    rw [List.length_take]
    omega
  have hrest : (content.drop gossipSigMaxBytesLength).length =
      gossipNonSigBytesLength + gossipRequestedTxHashBytesLength := by
    rw [List.length_drop]
    omega
  have hlast : ((content.drop gossipSigMaxBytesLength).drop gossipNonSigBytesLength).take
      gossipRequestedTxHashBytesLength =
      (content.drop gossipSigMaxBytesLength).drop gossipNonSigBytesLength := by
    refine List.take_of_length_le ?_
    rw [List.length_drop, hrest]
    omega
  rw [gossipContent, hpayload, List.length_append, hsig, hrest,
    show contentLength content + (gossipNonSigBytesLength + gossipRequestedTxHashBytesLength) -
      gossipNonSigBytesLength - gossipRequestedTxHashBytesLength = contentLength content by omega,
    List.take_left' hsig, hzeros, List.drop_left' hsig, ← List.drop_drop, List.drop_left' hsig,
    List.append_assoc, hlast, List.take_append_drop, List.take_append_drop]

/-- **Gossip round trip.** The packet that is pushed to the write queue is read, in any number of
reads, by a neighbor that waits for a packet, whatever its buffer held before, as the content that
was sent, with as many bytes of the signature part as were sent. -/
theorem readMemory_neighborSendPacket (h : content.length = gossipMaxBytesLength) :
    ∃ wire,
      (∀ malloc push asyncSend s, (neighborSendPacket malloc push asyncSend s content).2 = s ∨
        (neighborSendPacket malloc push asyncSend s content).2 =
          { s with writeQueue := s.writeQueue ++ [wire] }) ∧
      (∀ queue, neighborSendPacket true true true ⟨true, queue⟩ content =
        (.ok (), ⟨true, queue ++ [wire]⟩)) ∧
      lengthField wire - gossipNonSigBytesLength - gossipRequestedTxHashBytesLength =
        contentLength content ∧
      ∀ n : Neighbor, n.InBounds → n.bufferSize = 0 → ∀ cut : Cut wire,
        (readMemoryAll n cut.chunks).pipeline = n.pipeline ++ [⟨content, n.endpoint⟩] ∧
          (readMemoryAll n cut.chunks).bufferSize = 0 := by
  obtain ⟨hp, htype, hfield, -⟩ := acceptable_packetBytes h
  have hnon : gossipNonSigBytesLength = 292 := rfl
  have hhdr : headerBytesLength = 3 := rfl
  refine ⟨packetBytes content, fun malloc push asyncSend s => ?_, fun queue => rfl, by omega,
    fun n hn hsize cut => ?_⟩
  · unfold neighborSendPacket
    split_ifs
    all_goals first | exact .inl rfl | exact .inr rfl
  · have hstart : Holds n ⟨n.endpoint, [], n.pipeline, []⟩ :=
      ⟨hn, rfl, by rw [hsize]; rfl, rfl⟩
    have hopen : cut.chunks ≠ [] := by
      intro hnil
      have hflat := cut.flatten_eq
      have hlen := hp.length_eq
      rw [hnil, List.flatten_nil] at hflat
      rw [← hflat, List.length_nil] at hlen
      omega
    have hend := readMemoryAll_reception cut.chunks hstart
    rw [readAll_packet hp (by omega) cut.nonempty (by rw [List.nil_append, cut.flatten_eq]) hopen]
      at hend
    refine ⟨hend.pipeline.symm.trans ?_, hend.length.symm⟩
    dsimp only
    rw [delivery, if_pos htype, gossipContent_packetBytes h]

/-- A transaction of nothing but zeros, requesting nothing. -/
theorem readMemory_neighborSendPacket_zero :
    ∃ wire,
      (∀ malloc push asyncSend s,
        (neighborSendPacket malloc push asyncSend s (List.replicate gossipMaxBytesLength 0)).2 = s ∨
          (neighborSendPacket malloc push asyncSend s (List.replicate gossipMaxBytesLength 0)).2 =
            { s with writeQueue := s.writeQueue ++ [wire] }) ∧
      (∀ queue,
        neighborSendPacket true true true ⟨true, queue⟩ (List.replicate gossipMaxBytesLength 0) =
          (.ok (), ⟨true, queue ++ [wire]⟩)) ∧
      lengthField wire - gossipNonSigBytesLength - gossipRequestedTxHashBytesLength =
        contentLength (List.replicate gossipMaxBytesLength 0) ∧
      ∀ n : Neighbor, n.InBounds → n.bufferSize = 0 → ∀ cut : Cut wire,
        (readMemoryAll n cut.chunks).pipeline =
            n.pipeline ++ [⟨List.replicate gossipMaxBytesLength 0, n.endpoint⟩] ∧
          (readMemoryAll n cut.chunks).bufferSize = 0 :=
  readMemory_neighborSendPacket List.length_replicate

end Router

end Entangled
