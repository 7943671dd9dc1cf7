import Entangled.Network.RecentSeen
import Entangled.Trinary.Conversions
/-!
# The request of a packet

Behind the transaction a packet carries the hash its sender asks for, without the zeros that every
hash ends with: `protocol_gossip_set_request` writes the first `243 - mwm` trits of it as bytes,
and `responder_process_request` reads as many. They go through the byte codec, which leaves out the
last byte when the last flex trit starts before it; then the trits in that byte are lost.
-/

namespace Entangled

namespace Trinary

open Ternary

variable {E : Encoding} {ts : List ℤ} {dst dst' : List FlexTrit} {bytes : List Int8}
variable {s s' : Staging} {j m n N toLen len : ℕ}

/-! ## Behind what is read -/

theorem drop_blit_head {α : Type} {l src : List α} (h : src.length ≤ n) :
    (blit l 0 src).drop n = l.drop n := by
  rw [blit, List.take_zero, List.nil_append, Nat.zero_add, List.drop_append,
    List.drop_of_length_le h, List.nil_append, List.drop_drop]
  congr 1
  omega

theorem drop_foldl_set (f : List FlexTrit → ℕ → List FlexTrit) (is : List ℕ)
    (hf : ∀ d, ∀ i ∈ is, (f d i).drop n = d.drop n) (dst : List FlexTrit) :
    (is.foldl f dst).drop n = dst.drop n := by
  induction is generalizing dst with
  | nil => rfl
  | cons i is ih =>
    rw [List.foldl_cons, ih (fun d i hi => hf d i (List.mem_cons_of_mem _ hi)),
      hf dst i List.mem_cons_self]

/-- `flex_trits_from_trits` leaves alone what is behind the array. -/
theorem drop_flexTritsFromTrits (hE : E.Buffered) (dst : List FlexTrit) (trits : List ℤ)
    (hm : m ≤ n) :
    (flexTritsFromTrits E dst n trits m m).1.drop (E.numFlexTritsForTrits n) =
      dst.drop (E.numFlexTritsForTrits n) := by
  have hmem : (memset dst E.nullValue (E.numFlexTritsForTrits n)).drop
      (E.numFlexTritsForTrits n) = dst.drop (E.numFlexTritsForTrits n) :=
    drop_blit_head (List.length_replicate).le
  unfold flexTritsFromTrits
  split
  · rfl
  · rcases hE with rfl | rfl
    · show (blit _ 0 _ : List FlexTrit).drop _ = _
      rw [drop_blit_head, hmem]
      rw [length_tritsToTrytes, List.length_take]
      show _ ≤ (n + 3 - 1) / 3
      omega
    · show (List.foldl _ _ _ : List FlexTrit).drop _ = _
      rw [drop_foldl_set, hmem]
      intro d i hi
      have hlt := List.mem_range.mp hi
      rw [flexTritsSetAt, if_neg (by omega)]
      show (d.set (i >>> 2) _ : List FlexTrit).drop _ = _
      rw [List.drop_set, if_pos]
      show i >>> 2 < (n + 3) >>> 2
      rw [Nat.shiftRight_eq_div_pow, Nat.shiftRight_eq_div_pow]
      omega

/-- One flex trit less is left after a round. -/
theorem numFlexTritsForTrits_sub (hE : E.Buffered) (hn : n ≠ 0) :
    E.numFlexTritsForTrits (n - min (min 5 n) E.numTritsPerFlexTrit) + 1 ≤
      E.numFlexTritsForTrits n := by
  rcases hE with rfl | rfl
  · show (n - min (min 5 n) 3 + 3 - 1) / 3 + 1 ≤ (n + 3 - 1) / 3
    omega
  · show (n - min (min 5 n) 4 + 3) >>> 2 + 1 ≤ (n + 3) >>> 2
    rw [Nat.shiftRight_eq_div_pow, Nat.shiftRight_eq_div_pow]
    omega

/-- A round of the reader writes one flex trit and clears those that are left. -/
theorem fromBytesRound_drop (hE : E.Buffered) (hc : s.counter ≠ 0) (hj : j ≤ dst.length)
    (hN : j + E.numFlexTritsForTrits s.counter ≤ N)
    (h : fromBytesRound E bytes j s dst = some (s', dst')) :
    dst'.drop N = dst.drop N ∧ j + 1 + E.numFlexTritsForTrits s'.counter ≤ N := by
  obtain ⟨s₁, hs₁, heq⟩ := Option.map_eq_some_iff.mp h
  have hcounter : s₁.counter = s.counter := by
    split at hs₁
    · obtain ⟨i, -, rfl⟩ := Option.map_eq_some_iff.mp hs₁
      rfl
    · rw [Option.some.inj hs₁]
  obtain ⟨rfl, rfl⟩ := Prod.mk.inj heq
  have hleft := numFlexTritsForTrits_sub hE hc
  have htail := drop_flexTritsFromTrits hE (dst.drop j) s₁.trits
    (show min (min 5 s.counter) E.numTritsPerFlexTrit ≤ s₁.counter by omega)
  rw [hcounter] at htail
  constructor
  · have hfront : (dst.take j).length = j := by
      rw [List.length_take]
      omega
    obtain ⟨k, rfl⟩ := Nat.exists_eq_add_of_le hN
    rw [hcounter, List.drop_append, List.drop_of_length_le (by omega), List.nil_append, hfront,
      show j + E.numFlexTritsForTrits s.counter + k - j = E.numFlexTritsForTrits s.counter + k by
        omega, ← List.drop_drop, htail, List.drop_drop, List.drop_drop]
    congr 1
    omega
  · show j + 1 + E.numFlexTritsForTrits
      (s₁.counter - min (min 5 s.counter) E.numTritsPerFlexTrit) ≤ N
    rw [hcounter]
    omega

/-- **The reader leaves alone what is behind** the flex trits it is to write. -/
theorem fromBytesLoop_drop (hE : E.Buffered) (hbytes : Decodes bytes ts)
    (hcountable : E.numFlexTritsForTrits ts.length < 2 ^ 31)
    (hroom : E.numFlexTritsForTrits ts.length ≤ n) {fuel : ℕ}
    (H : Reading E ts n j s dst ∨ Read E ts n s dst)
    (hN : j + E.numFlexTritsForTrits s.counter ≤ N)
    (h : fromBytesLoop E bytes fuel j s dst = some dst') : dst'.drop N = dst.drop N := by
  induction fuel generalizing j s dst with
  | zero =>
    rw [fromBytesLoop] at h
    split at h
    · rw [Option.some.inj h]
    · contradiction
  | succ fuel ih =>
    rcases H with H | H
    · have hleft := H.left
      have hcounter := H.buffer.counter
      have hj : j < E.numFlexTritsForTrits ts.length := by
        rw [numFlexTritsForTrits_eq, Packing.lt_cells]
        exact hleft
      obtain ⟨s₁, dst₁, hround, -, hj', H₁⟩ := fromBytesRound_spec H hE hbytes hcountable hroom
      have hc : s.counter ≠ 0 := by omega
      rw [fromBytesLoop, if_neg hc] at h
      simp only [hround, Option.bind_some, intSucc, if_pos hj'] at h
      obtain ⟨htail, hN₁⟩ :=
        fromBytesRound_drop hE hc (by rw [H.length]; omega) hN hround
      rw [ih H₁ hN₁ h, htail]
    · rw [fromBytesLoop, if_pos H.counter] at h
      rw [Option.some.inj h]

/-! ## Trits and the zeros behind them -/

/-- Zeros are packed as nulls, but for those in the last flex trit. -/
theorem pack_append_zeros (hts : Trits ts) (k : ℕ) : pack E (ts ++ List.replicate k 0) =
    pack E ts ++ List.replicate
      (E.numFlexTritsForTrits (ts.length + k) - E.numFlexTritsForTrits ts.length) E.nullValue := by
  have hfill := pack_fill (E := E) (trits_append.mpr ⟨hts, trits_replicate k⟩)
  have hnull := blit_null_pack (E := E) hts (Nat.le_add_right ts.length k)
  have hroom := le_room E (ts.length + k)
  rw [List.length_append, List.length_replicate, List.append_assoc,
    List.replicate_append_replicate,
    show k + (room E (ts.length + k) - (ts.length + k)) = room E (ts.length + k) - ts.length by
      omega] at hfill
  rw [← hfill, ← hnull, ← replicate_null, numFlexTritsForTrits_room, blit, List.take_zero,
    List.nil_append, Nat.zero_add, List.drop_replicate, length_pack]

theorem drop_copyBytes (l src : List Int8) (n : ℕ) :
    (copyBytes l src n).drop (minBytes n) = l.drop (minBytes n) := by
  simp only [copyBytes]
  split
  · rw [drop_blit_head ((List.length_take_le _ _).trans (Nat.sub_le _ _)), List.drop_set, if_pos]
    rw [minBytes]
    omega
  · exact drop_blit_head (List.length_take_le _ _)

/-- What is read into a longer array leaves nulls behind it. -/
theorem flexTritsFromBytes_tail (hcount : Countable E ts.length)
    (hbytes : E ≠ .five → Decodes bytes ts) (hsize : minBytes ts.length ≤ bytes.length)
    (hlen : ts.length ≤ toLen) (hto : ts.length ≤ len)
    (h : flexTritsFromBytes E dst toLen bytes len ts.length = some (dst', n))
    (hdst : dst.length = E.numFlexTritsForTrits toLen) :
    dst'.drop (E.numFlexTritsForTrits ts.length) = List.replicate
      (E.numFlexTritsForTrits toLen - E.numFlexTritsForTrits ts.length) E.nullValue := by
  have hroom := numFlexTritsForTrits_mono (E := E) hlen
  have hbuffered : E.Buffered → fromBytesLoop E bytes ts.length 0
      ⟨List.replicate 8 0, 0, ts.length, 0⟩
      (List.replicate (E.numFlexTritsForTrits toLen) E.nullValue) = some dst' →
        dst'.drop (E.numFlexTritsForTrits ts.length) =
          (List.replicate (E.numFlexTritsForTrits toLen) E.nullValue).drop
            (E.numFlexTritsForTrits ts.length) := by
    intro hE hloop
    refine fromBytesLoop_drop hE (hbytes (by rintro rfl; rcases hE with h | h <;> contradiction))
      (hcount hE) hroom ?_ (Nat.zero_add _).le hloop
    by_cases h0 : ts.length = 0
    · obtain rfl := List.length_eq_zero_iff.mp h0
      exact .inr ⟨rfl, List.length_replicate,
        by simp [pack, Packing.pack, Packing.cells, Nat.div_eq_of_lt, width_pos]⟩
    · exact .inl ⟨⟨rfl, by simp, by simp, fun _ => rfl, by simp⟩, by simp; omega,
        List.length_replicate, by simp⟩
  simp only [flexTritsFromBytes] at h
  rw [if_neg (by omega), memset_all hdst] at h
  rw [← List.drop_replicate]
  cases E with
  | one =>
    obtain ⟨rfl, -⟩ := Prod.mk.inj (Option.some.inj h)
    refine drop_blit_head ?_
    rw [List.length_map, bytesToTrits_of_decodes (hbytes (by simp)) hsize]
    exact le_rfl
  | five =>
    obtain ⟨rfl, -⟩ := Prod.mk.inj (Option.some.inj h)
    exact drop_copyBytes _ _ _
  | three =>
    obtain ⟨dst₁, hloop, heq⟩ := Option.map_eq_some_iff.mp h
    obtain ⟨rfl, -⟩ := Prod.mk.inj heq
    exact hbuffered (.inl rfl) hloop
  | four =>
    obtain ⟨dst₁, hloop, heq⟩ := Option.map_eq_some_iff.mp h
    obtain ⟨rfl, -⟩ := Prod.mk.inj heq
    exact hbuffered (.inr rfl) hloop

/-- The reader makes an array of the trits and the zeros behind them, from bytes that spell them. -/
theorem eq_pack_of_read (hts : Trits ts) (hcount : Countable E ts.length)
    (hbytes : E ≠ .five → Decodes bytes ts) (hsize : minBytes ts.length ≤ bytes.length)
    (hlen : ts.length ≤ toLen) (hto : ts.length ≤ len)
    (h : flexTritsFromBytes E dst toLen bytes len ts.length = some (dst', n))
    (hdst : dst.length = E.numFlexTritsForTrits toLen) (hpre : pack E ts <+: dst') :
    dst' = pack E (ts ++ List.replicate (toLen - ts.length) 0) := by
  have htail := flexTritsFromBytes_tail hcount hbytes hsize hlen hto h hdst
  obtain ⟨rest, rfl⟩ := hpre
  rw [List.drop_left' (length_pack E ts)] at htail
  rw [pack_append_zeros hts, htail, Nat.add_sub_cancel' hlen]

/-- What the writer leaves of trits that pass through its buffer. -/
def written (E : Encoding) (ts : List ℤ) : List Int8 :=
  blit (List.replicate (minBytes ts.length) 0) 0 ((tritsToBytes ts).take (filled E ts.length))

theorem length_written (E : Encoding) (ts : List ℤ) : (written E ts).length = minBytes ts.length := by
  rw [written, length_blit, List.length_replicate]
  rw [List.length_replicate, List.length_take, length_tritsToBytes]
  omega

/-- What the reader makes of it: some trits that it spells. -/
theorem read_written (hE : E.Buffered) (hcount : Countable E ts.length) (hlen : ts.length ≤ len)
    (rest : List Int8) : ∃ us dst', us.length = ts.length ∧ Trits us ∧
      Decodes (written E ts ++ rest) us ∧
      flexTritsFromBytes E (List.replicate (E.numFlexTritsForTrits len) E.nullValue) len
        (written E ts ++ rest) ts.length ts.length = some (dst', ts.length) ∧
      dst'.length = E.numFlexTritsForTrits len ∧ pack E us <+: dst' := by
  have hroom : ts.length ≤ 5 * (written E ts).length := by
    rw [length_written, minBytes]
    omega
  have hsame : (bytesToTrits (written E ts) ts.length).length = ts.length :=
    length_bytesToTrits hroom
  have hspelled : Decodes (written E ts ++ rest) (bytesToTrits (written E ts) ts.length) :=
    decodes_bytesToTrits hroom (List.prefix_append _ _)
  have hne : E ≠ .five := by
    rintro rfl
    rcases hE with h | h <;> contradiction
  have hsize : minBytes ts.length ≤ (written E ts ++ rest).length := by
    rw [List.length_append, length_written]
    exact Nat.le_add_right _ _
  have hread := flexTritsFromBytes_decodes hne (hsame.symm ▸ hcount) hspelled (hsame.symm ▸ hsize)
    (hsame.le.trans hlen) hsame.le (List.length_replicate (a := E.nullValue))
  rw [hsame] at hread
  obtain ⟨dst', hsome, hlength, hprefix⟩ := hread
  exact ⟨_, dst', hsame, trits_bytesToTrits _ _, hspelled, hsome, hlength, hprefix⟩

/-- Bytes that lack the last one spell the trits only where it holds nothing. -/
theorem drained_of_decodes (hE : E.Buffered) {rest : List Int8}
    (h : Decodes (written E ts ++ rest) ts) : Drained E ts := by
  by_contra hdrained
  obtain ⟨hlate, hnonzero⟩ := not_or.mp hdrained
  have hw := Buffered.width hE
  have hdiv := Nat.div_add_mod (ts.length - 1) E.numTritsPerFlexTrit
  have hmod := Nat.mod_lt (ts.length - 1) (show 0 < E.numTritsPerFlexTrit by omega)
  have hcells : minBytes ts.length = (ts.length - 1) / 5 + 1 := by
    rw [minBytes]
    omega
  have hfilled : filled E ts.length = (ts.length - 1) / 5 := by
    rw [filled]
    omega
  have hlen : ((tritsToBytes ts).take ((ts.length - 1) / 5)).length = (ts.length - 1) / 5 := by
    rw [List.length_take, length_tritsToBytes]
    omega
  -- the last byte is still the one that was cleared
  have hspelled := h ((ts.length - 1) / 5) (by omega)
  rw [written, hfilled, hcells, blit, List.take_zero, List.nil_append, Nat.zero_add, hlen,
    List.drop_replicate, Nat.add_sub_cancel_left, List.replicate_one, List.append_assoc,
    List.getD_eq_getElem?_getD, List.getElem?_append_right hlen.le, hlen, Nat.sub_self] at hspelled
  refine hnonzero fun t ht => ?_
  have hmem : t ∈ (byteToTrits 0 5).take (ts.length - 5 * ((ts.length - 1) / 5)) := by
    have hshort : (ts.drop (5 * ((ts.length - 1) / 5))).length ≤ 5 := by
      rw [List.length_drop]
      omega
    rw [List.take_of_length_le hshort] at hspelled
    exact hspelled ▸ ht
  exact (show ∀ t ∈ byteToTrits 0 5, t = 0 by decide) t (List.mem_of_mem_take hmem)

end Trinary

namespace Pipeline

open Ternary Trinary

variable {C : Config} {hash ts : List ℤ} {content content' : List Int8}

/-! ## Asking and answering -/

/-- `protocol_gossip_set_request`: whether it returns `RC_OK`, and the content of the packet. -/
def protocolGossipSetRequest (E : Encoding) (content : List Int8) (request : List FlexTrit)
    (requestSize : UInt8) : Option (Bool × List Int8) :=
  let size := requestSize.toNat
  (flexTritsToBytes E ((content.drop gossipTxBytesLength).take (minBytes size)) size request 243
    size).map fun p => (p.2 == size, blit content gossipTxBytesLength p.1)

/-- What `neighbor_send` makes of a packet, for a hash to request. -/
def setRequest (C : Config) (content : List Int8) (request : List FlexTrit) :
    Option (Bool × List Int8) :=
  protocolGossipSetRequest C.E content request (UInt8.ofNat (243 - C.mwm))

/-- The hash `responder_process_request` adds to its queue: that of the request, or the null hash
when it is that of the packet's own transaction. -/
def answered (C : Config) (requestHash hash : List FlexTrit) : List FlexTrit :=
  if requestHash = hash then List.replicate (C.E.numFlexTritsForTrits 243) C.E.nullValue
  else requestHash

theorem answered_nil {requestHash : List FlexTrit}
    (h : requestHash.length = C.E.numFlexTritsForTrits 243) : answered C requestHash [] = requestHash := by
  have hpos : 0 < C.E.numFlexTritsForTrits 243 := numFlexTritsForTrits_pos (by decide)
  refine if_neg fun hnil => ?_
  rw [hnil, List.length_nil] at h
  omega

/-- **A hash gets through**: whatever packet it is put into, the responder that reads this packet
queues the same hash for the neighbor. -/
def GetsThrough (C : Config) (hash : List ℤ) : Prop :=
  ∀ content : List Int8, content.length = gossipMaxBytesLength →
    ∃ content', setRequest C content (pack C.E hash) = some (true, content') ∧
      ∀ (Neighbor : Type) (neighbor : Neighbor) (own : List FlexTrit) (s : Node Neighbor),
        processRequest C (some neighbor) content' own s =
          { s with responder := s.responder ++ [(neighbor, answered C (pack C.E hash) own)] }

/-- What a packet holds that a request was put into. -/
theorem setRequest_eq (hl : ts.length = 243 - C.mwm) {bytes : List Int8}
    (hcontent : content.length = gossipMaxBytesLength) {request : List FlexTrit}
    (h : ∀ out : List Int8, out.length = minBytes ts.length →
      flexTritsToBytes C.E out ts.length request 243 ts.length = some (bytes, ts.length)) :
    setRequest C content request = some (true, blit content gossipTxBytesLength bytes) := by
  have hsize : (UInt8.ofNat (243 - C.mwm)).toNat = ts.length := by
    rw [UInt8.toNat_ofNat', hl]
    omega
  have hout : ((content.drop gossipTxBytesLength).take (minBytes ts.length)).length =
      minBytes ts.length := by
    rw [List.length_take, List.length_drop, hcontent, minBytes, gossipMaxBytesLength,
      gossipTxBytesLength]
    omega
  simp only [setRequest, protocolGossipSetRequest, hsize, h _ hout, Option.map_some, beq_self_eq_true]

theorem drop_blit_content (content bytes : List Int8) (hcontent : content.length = gossipMaxBytesLength) :
    ∃ rest, (blit content gossipTxBytesLength bytes).drop gossipTxBytesLength = bytes ++ rest := by
  have hfront : (content.take gossipTxBytesLength).length = gossipTxBytesLength := by
    rw [List.length_take, hcontent]
    rfl
  exact ⟨_, by rw [blit, List.append_assoc, List.drop_left' hfront]⟩

/-- What the responder queues of a request it can read. -/
theorem processRequest_of_read {Neighbor : Type} (neighbor : Neighbor) (own : List FlexTrit)
    (s : Node Neighbor) {requestHash : List FlexTrit}
    (h : flexTritsFromBytes C.E (List.replicate (C.E.numFlexTritsForTrits 243) C.E.nullValue) 243
      (content.drop gossipTxBytesLength) (243 - C.mwm) (243 - C.mwm) =
        some (requestHash, 243 - C.mwm)) :
    processRequest C (some neighbor) content own s =
      { s with responder := s.responder ++ [(neighbor, answered C requestHash own)] } := by
  simp only [processRequest, h]
  rw [if_neg (by simp)]
  rfl

theorem countable_request (hl : ts.length = 243 - C.mwm) : Countable C.E ts.length := by
  intro _
  have hmono := numFlexTritsForTrits_mono (E := C.E) (show ts.length ≤ 243 by omega)
  have hall : ∀ E : Encoding, E.numFlexTritsForTrits 243 ≤ 243 := by
    intro E
    cases E <;> decide
  have := hall C.E
  omega

/-- A request whose trits the byte codec keeps gets through. -/
theorem getsThrough_of_drained (hts : Trits ts) (hl : ts.length = 243 - C.mwm)
    (hmwm : C.mwm ≤ 243) (h : Drained C.E ts) :
    GetsThrough C (ts ++ List.replicate C.mwm 0) := by
  have hcount := countable_request hl
  have hpre : pack C.E ts <+: pack C.E (ts ++ List.replicate C.mwm 0) := by
    rw [pack_append_zeros hts]
    exact List.prefix_append _ _
  intro content hcontent
  refine ⟨_, setRequest_eq hl hcontent fun out hout =>
    flexTritsToBytes_eq hts hcount h hpre (by omega) le_rfl hout, ?_⟩
  intro Neighbor neighbor own s
  rw [Nat.sub_self, List.replicate_zero, List.append_nil]
  obtain ⟨rest, hrest⟩ := drop_blit_content content (tritsToBytes ts) hcontent
  have hbytes : tritsToBytes ts <+: (blit content gossipTxBytesLength (tritsToBytes ts)).drop
      gossipTxBytesLength := by
    rw [hrest]
    exact List.prefix_append _ _
  obtain ⟨dst', hread, hlen, hprefix⟩ := flexTritsFromBytes_spec hts hcount hbytes
    (show ts.length ≤ 243 by omega) le_rfl
    (List.length_replicate (n := C.E.numFlexTritsForTrits 243) (a := C.E.nullValue))
  have heq := eq_pack_of_read hts hcount (fun _ => decodes_tritsToBytes hts hbytes)
    (by rw [← length_tritsToBytes]; exact hbytes.length_le) (by omega) le_rfl hread
    List.length_replicate hprefix
  rw [heq, hl, show 243 - (243 - C.mwm) = C.mwm by omega] at hread
  exact processRequest_of_read neighbor own s hread

/-- **The responder reads another hash** when the codec loses trits that are not zero. -/
theorem GetsThrough.drained (hts : Trits ts) (hl : ts.length = 243 - C.mwm)
    (hmwm : C.mwm ≤ 243) (H : GetsThrough C (ts ++ List.replicate C.mwm 0)) : Drained C.E ts := by
  by_cases hE : C.E.Buffered
  swap
  · exact drained_of_not_buffered hE ts
  have hcount := countable_request hl
  have hpre : pack C.E ts <+: pack C.E (ts ++ List.replicate C.mwm 0) := by
    rw [pack_append_zeros hts]
    exact List.prefix_append _ _
  have hcontent : (List.replicate gossipMaxBytesLength (0 : Int8)).length = gossipMaxBytesLength :=
    List.length_replicate
  have hset : setRequest C (List.replicate gossipMaxBytesLength 0)
      (pack C.E (ts ++ List.replicate C.mwm 0)) = some (true,
        blit (List.replicate gossipMaxBytesLength 0) gossipTxBytesLength (written C.E ts)) := by
    refine setRequest_eq hl hcontent fun out hout => ?_
    rcases flexTritsToBytes_spec hE hts hpre (show ts.length ≤ 243 by omega) le_rfl hout with
      ⟨-, hlong⟩ | ⟨hsome, -⟩
    · exact absurd hcount hlong
    · exact hsome
  obtain ⟨content', hcontent', hqueue⟩ := H _ hcontent
  rw [hset] at hcontent'
  obtain rfl := (Prod.mk.inj (Option.some.inj hcontent')).2
  obtain ⟨rest, hrest⟩ := drop_blit_content _ (written C.E ts) hcontent
  obtain ⟨us, dst', hsame, hus, hspelled, hread, hlen, hprefix⟩ :=
    read_written hE hcount (show ts.length ≤ 243 by omega) rest
  rw [← hrest, hl] at hread
  -- the responder queues what it reads, so it has read the hash
  have hdst : dst' = pack C.E (ts ++ List.replicate C.mwm 0) := by
    have hqueued := hqueue Unit () [] ⟨[], [], [], [], [], none, [], none, [], [], []⟩
    rw [processRequest_of_read () [] _ hread] at hqueued
    have hpair : ((), answered C dst' []) = ((), answered C (pack C.E (ts ++ _)) []) :=
      List.singleton_inj.mp (congrArg Node.responder hqueued)
    rw [answered_nil hlen, answered_nil] at hpair
    · exact (Prod.mk.inj hpair).2
    · rw [length_pack, List.length_append, List.length_replicate, hl, Nat.sub_add_cancel hmwm]
  have hback := decoded_start hus hprefix hsame.ge
  rw [hdst, decoded_start hts hpre le_rfl, List.take_length, List.take_of_length_le hsame.le] at hback
  rw [← hback] at hspelled
  exact drained_of_decodes hE hspelled

/-- **When a request gets through.** For every minimum weight magnitude and every hash that ends in
as many zeros. -/
theorem request_iff (C : Config) (hash : List ℤ) (hts : Trits hash) (hl : hash.length = 243)
    (hmwm : C.mwm ≤ 243) (hzeros : ∀ t ∈ hash.drop (243 - C.mwm), t = 0) :
    GetsThrough C hash ↔ Drained C.E (hash.take (243 - C.mwm)) := by
  have htake : (hash.take (243 - C.mwm)).length = 243 - C.mwm := by
    rw [List.length_take]
    omega
  have hsplit : hash = hash.take (243 - C.mwm) ++ List.replicate C.mwm 0 := by
    have hdrop : hash.drop (243 - C.mwm) = List.replicate C.mwm 0 :=
      List.eq_replicate_iff.mpr ⟨by rw [List.length_drop]; omega, hzeros⟩
    rw [← hdrop, List.take_append_drop]
  constructor
  · intro H
    rw [hsplit] at H
    exact H.drained (hts.take _) htake hmwm
  · intro h
    rw [hsplit]
    exact getsThrough_of_drained (hts.take _) htake hmwm h

/-- A hash with fourteen zeros at the end, in a node with three trits to a byte. -/
theorem request_iff_fourteen :
    GetsThrough { sampleConfig with E := .three, mwm := 14 }
      (List.replicate 229 1 ++ List.replicate 14 0) :=
  (request_iff _ _ (by decide +kernel)
    (by rw [List.length_append, List.length_replicate, List.length_replicate]) (by decide)
    (by decide +kernel)).mpr (by decide +kernel)

/-- **With seven zeros the last byte is lost.** -/
theorem request_loses_trit :
    ¬ GetsThrough { sampleConfig with E := .three, mwm := 7 }
      (List.replicate 236 1 ++ List.replicate 7 0) := by
  intro H
  have hdrained := H.drained (by decide +kernel) List.length_replicate (by decide)
  revert hdrained
  decide +kernel

end Pipeline

end Entangled
