import Entangled.Parallel.Sponge
import Entangled.Trinary.ByteCodec
/-!
# Hashing packets in batches

The stage takes up to as many packets from its queue as there are lanes, puts the trits of each in a
lane of its own, and hashes them all at once. The lanes that it does not fill hold what `memset`
leaves there, which need not be trits.
-/

namespace Entangled

namespace Parallel

open Ternary Prototype Trinary Merkle

/-- `NUM_TRITS_SERIALIZED_TRANSACTION`. -/
def numTritsSerializedTransaction : ℕ := 8019

/-- `GOSSIP_TX_BYTES_LENGTH`. -/
def gossipTxBytesLength : ℕ := 1604

/-- `hasher_payload_queue_entry_t`. -/
structure HasherEntry where
  content : List Int8
  length_content : content.length = gossipTxBytesLength
  digest : UInt64
  neighbor : ℕ

/-- The trits of a packet: `bytes_to_trits`. -/
def txTrits (content : List Int8) : List ℤ := bytesToTrits content numTritsSerializedTransaction

section

variable {n : ℕ}

/-- The loop that fills the lanes, from lane `packetsNum` on. -/
def fillLanes (C : Cvt) : List HasherEntry → ℕ → (ℕ → Ptrit n) → ℕ → Ptrit n
  | [], _, acc => acc
  | entry :: entries, packetsNum, acc =>
    fillLanes C entries (packetsNum + 1) (ptritsSetSlice C acc packetsNum (txTrits entry.content))

/-- The loop that hands the packets on with their hashes, from lane `j` on; `running` is what it reads
before lane `j`. -/
def assignHashes (C : Cvt) (E : Encoding) (running : ℕ → Bool) (acc : ℕ → Ptrit n) :
    List HasherEntry → ℕ → List FlexTrit → List (HasherEntry × List FlexTrit)
  | [], _, _ => []
  | entry :: entries, j, flexHash =>
    if running j then
      let hash := ptritsGetSlice C 243 acc j
      let flexHash := (flexTritsFromTrits E flexHash 243 hash 243 243).1
      (entry, flexHash) :: assignHashes C E running acc entries (j + 1) flexHash
    else []

/-- A round of `hasher_stage_routine`: what is handed on to the next stage of what can be popped from
the queue. -/
def hasherRound (C : Cvt) (L : Layout) (E : Encoding) (n : ℕ) (running : ℕ → Bool)
    (queue : List HasherEntry) : List (HasherEntry × List FlexTrit) :=
  let entries := queue.take n
  let acc : ℕ → Ptrit n := fillLanes C entries 0 fun _ => ⟨0#n, 0#n⟩
  let T := pcurlTransform C L 81
  let m := pcurlAbsorb T (pcurlReset C) acc numTritsSerializedTransaction
  let acc := (pcurlSqueeze T m acc 243).1
  assignHashes C E running acc entries 0
    (List.replicate (E.numFlexTritsForTrits 243) E.nullValue)

end

/-- `curl_digest`, with a sponge that is reset. -/
def curlDigest (trits : List ℤ) : List ℤ :=
  ((curlP 81).squeeze ((curlP 81).absorb CurlP.reset trits) 243).1

/-- `iota_flex_digest`. -/
def iotaFlexDigest (E : Encoding) (flexTrits : List FlexTrit) (numTrits : ℕ) : List FlexTrit :=
  let trits := (flexTritsToTrits E (List.replicate numTrits 0) numTrits flexTrits numTrits
    numTrits).1
  let hash := curlDigest trits
  (flexTritsFromTrits E (List.replicate (E.numFlexTritsForTrits numTrits) 0) 243 hash 243 243).1

/-! ## A transaction in flex trits -/

theorem length_txTrits (entry : HasherEntry) : (txTrits entry.content).length = 8019 := by
  refine length_bytesToTrits ?_
  rw [entry.length_content]
  decide

theorem trits_txTrits (content : List Int8) : Trits (txTrits content) := trits_bytesToTrits _ _

/-- Whole bytes are copied, and what is copied of the last one spells the same. -/
theorem decodes_copyBytes {dst bytes : List Int8} {m : ℕ} (h : m = 8019)
    (hbytes : bytes.length = 1604) (hdst : dst.length = 1604) :
    Decodes (copyBytes dst bytes m) (bytesToTrits bytes m) := by
  subst h
  have hlen : (bytesToTrits bytes 8019).length = 8019 := length_bytesToTrits (by omega)
  have hdecodes : Decodes bytes (bytesToTrits bytes 8019) :=
    decodes_bytesToTrits (by omega) List.prefix_rfl
  have hset : (dst.set 1603 (tritsToByte ((byteToTrits (bytes.getD 1603 0) 5).take 4))).length =
      1604 := by rw [List.length_set, hdst]
  have hcopy : copyBytes dst bytes 8019 =
      blit (dst.set 1603 (tritsToByte ((byteToTrits (bytes.getD 1603 0) 5).take 4))) 0
        (bytes.take 1603) := rfl
  have htake : (bytes.take 1603).length = 1603 := by rw [List.length_take]; omega
  intro k hk
  have hspelled := hdecodes k hk
  rw [hlen] at hk hspelled ⊢
  rw [hcopy, List.getD_eq_getElem?_getD, getElem?_blit (by omega), htake, ← hspelled]
  rcases Nat.lt_or_ge k 1603 with hlt | hge
  · rw [if_pos ⟨Nat.zero_le k, by omega⟩, Nat.sub_zero, List.getElem?_take_of_lt hlt,
      ← List.getD_eq_getElem?_getD]
  · obtain rfl : k = 1603 := by omega
    rw [if_neg (by omega), List.getElem?_set_self (by omega), Option.getD_some]
    have htrits : Trits ((byteToTrits (bytes.getD 1603 0) 5).take 4) :=
      (((trits_digits 5 _).take 5).take 4)
    have hfour : ((byteToTrits (bytes.getD 1603 0) 5).take 4).length = 4 := by
      rw [List.length_take, length_byteToTrits _ le_rfl]
      rfl
    rw [byteToTrits_tritsToByte htrits (by omega)]
    exact List.take_left' hfour

/-- **The flex trits of a packet unpack to its trits**, in every encoding. -/
theorem flexTritsToTrits_fromBytes (E : Encoding) (entry : HasherEntry) {dst : List FlexTrit}
    (hdst : dst.length = E.numFlexTritsForTrits 8019) :
    ∃ tx, flexTritsFromBytes E dst 8019 entry.content 8019 8019 = some (tx, 8019) ∧
      (flexTritsToTrits E (List.replicate 8019 0) 8019 tx 8019 8019).1 = txTrits entry.content := by
  have hlen := length_txTrits entry
  have hbytes : entry.content.length = 1604 := entry.length_content
  by_cases hE : E = .five
  · subst hE
    have hsize : dst.length = 1604 := hdst
    have hmem : (memset dst (Encoding.five).nullValue (Encoding.five.numFlexTritsForTrits 8019)).length
        = 1604 := by rw [memset_all hdst, List.length_replicate]; rfl
    refine ⟨_, rfl, ?_⟩
    have hdecodes := decodes_copyBytes rfl hbytes hmem
    have hroom : minBytes (bytesToTrits entry.content 8019).length ≤
        (copyBytes (memset dst (Encoding.five).nullValue
          (Encoding.five.numFlexTritsForTrits 8019)) entry.content 8019).length := by
      have hsame : (copyBytes (memset dst (Encoding.five).nullValue
          (Encoding.five.numFlexTritsForTrits 8019)) entry.content 8019).length = 1604 := by
        show (blit (List.set _ _ _) 0 (entry.content.take 1603)).length = 1604
        rw [length_blit] <;> rw [List.length_set, hmem]
        rw [List.length_take]
        omega
      rw [hsame]
      exact le_of_eq (congrArg minBytes hlen)
    have hread := bytesToTrits_of_decodes hdecodes hroom
    rw [show (bytesToTrits entry.content 8019).length = 8019 from hlen] at hread
    show blit (memset (List.replicate 8019 0) 0 8019) 0 (bytesToTrits (List.take 1604 _) 8019) = _
    have hread' : bytesToTrits (List.take 1604 _) 8019 = bytesToTrits entry.content 8019 := hread
    rw [hread']
    exact blit_full (by rw [memset_all List.length_replicate, List.length_replicate]; exact hlen)
  · have hcount : Countable E (txTrits entry.content).length := by
      intro _
      rw [hlen]
      cases E <;> decide
    have hdecodes : Decodes entry.content (txTrits entry.content) :=
      decodes_bytesToTrits (by rw [hbytes]; decide) List.prefix_rfl
    have hsome : ∃ tx, flexTritsFromBytes E dst 8019 entry.content 8019
          (txTrits entry.content).length = some (tx, (txTrits entry.content).length) ∧
        tx.length = E.numFlexTritsForTrits 8019 ∧ pack E (txTrits entry.content) <+: tx :=
      flexTritsFromBytes_decodes hE hcount hdecodes (by rw [hlen, hbytes]; decide) hlen.le hlen.le
        hdst
    obtain ⟨tx, hfrom, -, hpack⟩ := hsome
    rw [hlen] at hfrom
    refine ⟨tx, hfrom, ?_⟩
    have hto := flexTritsToTrits_pack (List.replicate 8019 0) 8019 (trits_txTrits entry.content)
      hpack (by omega) (fun _ => by rw [hlen]; decide) hlen.le
      (by rw [hlen, List.length_replicate])
    rw [hlen] at hto
    rw [hto]
    exact blit_full (by rw [hlen, List.length_replicate])

/-! ## A batch -/

section Batch

variable {n i : ℕ} {C : Cvt} {L : Layout} {E : Encoding}

/-- **Each packet is in its lane** once the lanes are filled. -/
theorem lane_fillLanes (entries : List HasherEntry) (start : ℕ) (acc : ℕ → Ptrit n)
    (hfit : start + entries.length ≤ n) {j : ℕ} (hj : j < entries.length) :
    LaneList C (start + j) (fillLanes C entries start acc) (txTrits (entries.get ⟨j, hj⟩).content) := by
  have hkept : ∀ (entries : List HasherEntry) (start : ℕ) (acc : ℕ → Ptrit n) (i k : ℕ), i < start →
      start + entries.length ≤ n → ptritGet C (fillLanes C entries start acc k) i =
        ptritGet C (acc k) i := by
    intro entries
    induction entries with
    | nil => intro start acc i k _ _; rfl
    | cons entry entries ih =>
      intro start acc i k hi hfit
      rw [List.length_cons] at hfit
      rw [fillLanes, ih _ _ i k (by omega) (by omega)]
      by_cases hk : k < (txTrits entry.content).length
      · rw [ptritGet_setSlice (trits_txTrits _) (by omega) (by omega) hk, if_neg (by omega)]
      · rw [ptritsSetSlice, if_neg hk]
  induction entries generalizing start acc j with
  | nil => exact absurd hj (Nat.not_lt_zero j)
  | cons entry entries ih =>
    rw [List.length_cons] at hfit hj
    cases j with
    | zero =>
      intro k hk
      have hin : k < (txTrits entry.content).length := hk
      show _ = (txTrits entry.content).getD k 0
      rw [fillLanes, Nat.add_zero, hkept _ _ _ _ k (by omega) (by omega),
        ptritGet_setSlice (trits_txTrits _) (by omega) (by omega) hin, if_pos (Nat.add_zero start)]
    | succ j =>
      have hrest := ih (start + 1) (ptritsSetSlice C acc start (txTrits entry.content)) (by omega)
        (show j < entries.length by omega)
      rwa [show start + 1 + j = start + (j + 1) by omega] at hrest

/-- What is handed on are the packets from lane `j` on, each with the hash of its lane. -/
theorem assignHashes_mem {running : ℕ → Bool} {acc : ℕ → Ptrit n} {entries : List HasherEntry}
    {j : ℕ} {flexHash : List FlexTrit} {p : HasherEntry × List FlexTrit}
    (hlength : flexHash.length = E.numFlexTritsForTrits 243)
    (hhash : ∀ k < entries.length, Trits (ptritsGetSlice C 243 acc (j + k)))
    (hp : p ∈ assignHashes C E running acc entries j flexHash) :
    ∃ k, ∃ hk : k < entries.length, p.1 = entries.get ⟨k, hk⟩ ∧
      p.2 = pack E (ptritsGetSlice C 243 acc (j + k)) := by
  induction entries generalizing j flexHash with
  | nil => exact absurd hp (List.not_mem_nil)
  | cons entry entries ih =>
    rw [assignHashes] at hp
    split_ifs at hp with hrun
    · have hfirst := length_ptritsGetSlice (C := C) 243 acc j
      have htrits : Trits (ptritsGetSlice C 243 acc j) := hhash 0 (by simp)
      have hpacked := flexTritsFromTrits_pack flexHash (ptritsGetSlice C 243 acc j) 243
        htrits List.take_length (by omega) (by omega) (show E.numFlexTritsForTrits _ ≤ _ by
          rw [hfirst, hlength])
      rw [hfirst] at hpacked
      have hpack : (pack E (ptritsGetSlice C 243 acc j)).length = E.numFlexTritsForTrits 243 := by
        rw [length_pack, hfirst]
      rw [blit_full (by rw [hpack, hlength])] at hpacked
      dsimp only at hp
      rw [hpacked] at hp
      rcases List.mem_cons.mp hp with rfl | hp
      · exact ⟨0, by simp, rfl, rfl⟩
      · obtain ⟨k, hk, hentry, hvalue⟩ := ih hpack (fun k hk => by
          have hnext := hhash (k + 1) (by rw [List.length_cons]; omega)
          rwa [show j + (k + 1) = j + 1 + k by omega] at hnext) hp
        refine ⟨k + 1, by rw [List.length_cons]; omega, hentry, ?_⟩
        rwa [show j + (k + 1) = j + 1 + k by omega]
    · exact absurd hp (List.not_mem_nil)

theorem map_fst_assignHashes {running : ℕ → Bool} (hrunning : ∀ j, running j = true)
    (acc : ℕ → Ptrit n) (entries : List HasherEntry) (j : ℕ) (flexHash : List FlexTrit) :
    (assignHashes C E running acc entries j flexHash).map Prod.fst = entries := by
  induction entries generalizing j flexHash with
  | nil => rfl
  | cons entry entries ih =>
    rw [assignHashes, if_pos (hrunning j), List.map_cons, ih]

/-- The digest of a transaction. -/
theorem iotaFlexDigest_eq {tx : List FlexTrit} {ts : List ℤ}
    (htx : (flexTritsToTrits E (List.replicate 8019 0) 8019 tx 8019 8019).1 = ts) (hts : Trits ts) :
    (iotaFlexDigest E tx 8019).take (E.numFlexTritsForTrits 243) = pack E (curlDigest ts) := by
  have hlength : (curlDigest ts).length = 243 := (curlP 81).length_squeeze _ _
  have htrits : Trits (curlDigest ts) := by
    rw [curlDigest]
    exact trits_squeeze (CurlP.trits_absorb CurlP.trits_reset hts) 243
  have hpacked := flexTritsFromTrits_pack (List.replicate (E.numFlexTritsForTrits 8019) 0)
    (curlDigest ts) 243 htrits List.take_length (by omega) (by omega)
    (by rw [hlength, List.length_replicate]; exact numFlexTritsForTrits_mono (by decide))
  rw [hlength] at hpacked
  unfold iotaFlexDigest
  dsimp only
  rw [htx, hpacked, blit, List.take_zero, List.nil_append]
  exact List.take_left' (by rw [length_pack, hlength])

/-- The hash of a packet that is handed on is the digest of its transaction. -/
theorem digest_of_mem_hasherRound {running : ℕ → Bool} {queue : List HasherEntry}
    {p : HasherEntry × List FlexTrit} (hp : p ∈ hasherRound C L E n running queue)
    {dst : List FlexTrit} (hdst : dst.length = E.numFlexTritsForTrits 8019) :
    ∃ tx, flexTritsFromBytes E dst 8019 p.1.content 8019 8019 = some (tx, 8019) ∧
      p.2 = (iotaFlexDigest E tx 8019).take (E.numFlexTritsForTrits 243) := by
  have hT := parallels_pcurl C L n (show 3 ∣ 81 by decide)
  have hlength : (queue.take n).length ≤ n := List.length_take_le n queue
  have hlane : ∀ k (hk : k < (queue.take n).length), ptritsGetSlice C 243
      (pcurlSqueeze (pcurlTransform C L 81) (pcurlAbsorb (pcurlTransform C L 81) (pcurlReset C)
        (fillLanes C (queue.take n) 0 fun _ => ⟨0#n, 0#n⟩) numTritsSerializedTransaction)
        (fillLanes C (queue.take n) 0 fun _ => ⟨0#n, 0#n⟩) 243).1 (0 + k) =
      curlDigest (txTrits ((queue.take n).get ⟨k, hk⟩).content) := by
    intro k hk
    have hfilled := lane_fillLanes (C := C) (queue.take n) 0 (fun _ => ⟨0#n, 0#n⟩) (by omega) hk
    have hin : 0 + k < n := by omega
    have htrits := trits_txTrits ((queue.take n).get ⟨k, hk⟩).content
    have habsorbed := lane_absorb hT hin (lane_reset hin) CurlP.trits_reset hfilled htrits
    rw [length_txTrits] at habsorbed
    exact (lane_squeeze hT hin habsorbed (CurlP.trits_absorb CurlP.trits_reset htrits) 243).1
  have hhash : ∀ k (hk : k < (queue.take n).length),
      Trits (curlDigest (txTrits ((queue.take n).get ⟨k, hk⟩).content)) := by
    intro k hk
    exact trits_squeeze (CurlP.trits_absorb CurlP.trits_reset (trits_txTrits _)) 243
  obtain ⟨k, hk, hentry, hvalue⟩ := assignHashes_mem List.length_replicate
    (fun k hk => by rw [hlane k hk]; exact hhash k hk) hp
  obtain ⟨tx, hfrom, hto⟩ := flexTritsToTrits_fromBytes E p.1 hdst
  refine ⟨tx, hfrom, ?_⟩
  rw [hvalue, hlane k hk, ← hentry, iotaFlexDigest_eq hto (trits_txTrits _)]

/-- **Many messages are hashed as each of them alone**, whatever stands in the other lanes: absorbing
and squeezing give in every lane what they give for its trits, and a packet of a batch is handed on
with the digest of its transaction. -/
theorem parallel_refines (C : Cvt) (L : Layout) (n : ℕ) :
    (∀ rounds, 3 ∣ rounds → ∀ i < n, ∀ (m p dst : ℕ → Ptrit n) (s : CurlState) (l : List ℤ),
        Trits s.trits → Lane C i m s → Trits l → LaneList C i p l → ∀ length,
          let T := pcurlTransform C L rounds
          let squeezed := pcurlSqueeze T (pcurlAbsorb T m p l.length) dst length
          let alone := (curlP rounds).squeeze ((curlP rounds).absorb s l) length
          ptritsGetSlice C length squeezed.1 i = alone.1 ∧ Lane C i squeezed.2 alone.2) ∧
      (∀ i < n, Lane C i (pcurlReset C : ℕ → Ptrit n) CurlP.reset) ∧
      ∀ (E : Encoding) (running : ℕ → Bool) (queue : List HasherEntry),
        (∀ p ∈ hasherRound C L E n running queue, ∀ dst : List FlexTrit,
          dst.length = E.numFlexTritsForTrits 8019 →
            ∃ tx, flexTritsFromBytes E dst 8019 p.1.content 8019 8019 = some (tx, 8019) ∧
              p.2 = (iotaFlexDigest E tx 8019).take (E.numFlexTritsForTrits 243)) ∧
          ((∀ j, running j = true) →
            (hasherRound C L E n running queue).map Prod.fst = queue.take n) := by
  refine ⟨?_, fun i hi => lane_reset hi, fun E running queue => ⟨?_, fun hrunning => ?_⟩⟩
  · intro rounds h3 i hi m p dst s l hs hm hl hp length
    have hT := parallels_pcurl C L n h3
    exact lane_squeeze hT hi (lane_absorb hT hi hm hs hp hl) (CurlP.trits_absorb hs hl) length
  · intro p hp dst hdst
    exact digest_of_mem_hasherRound hp hdst
  · exact map_fst_assignHashes hrunning _ _ 0 _

end Batch

end Parallel

end Entangled
