import Entangled.Mam.Following
import Entangled.Mam.Sizes
/-!
# Following a writer from the header on

A header that a node writes on one of its channels is read by who trusts the channel and is one of
the recipients, and the reader follows the writer then.
-/

namespace Entangled

namespace Mam

open Spongos

variable {T : Troika} {N : Ntru} {M : MerkleMode}

/-- A call of `mam_api_bundle_write_header`, into an empty bundle. -/
structure HeaderCall where
  now : ℕ
  chId : List Trit
  epId : Option (List Trit)
  ch1Id : Option (List Trit)
  ep1Id : Option (List Trit)
  psks : List Psk
  ntruPks : List (List Trit)
  msgTypeId : ℤ
  alloc : ℕ → Bool

/-- What is written. -/
def Api.writeHeader (T : Troika) (N : Ntru) (api : Api M) (h : HeaderCall) :
    Except Error (List Trit) × Api M × List Transaction :=
  apiBundleWriteHeader T N api h.now h.chId h.epId h.ch1Id h.ep1Id h.psks h.ntruPks h.msgTypeId
    h.alloc []

/-! ## What the arguments are -/

/-- An identifier that is given is that of something in its place. -/
def Placed {α : Type} (get : ℕ → Option α) (root : α → List Trit) (id : Option (List Trit))
    (place : Option ℕ) : Prop :=
  (id = none ∧ place = none) ∨
    ∃ n x, place = some n ∧ get n = some x ∧ id = some (root x)

/-- The channel, and where what belongs to a header is. -/
structure Places (api : Api M) (h : HeaderCall) (i : ℕ) (j k l : Option ℕ) (ch : Channel M) :
    Prop where
  found : headerArgs api h.chId h.epId h.ch1Id h.ep1Id = .ok (i, j, k, l)
  channel : api.channels[i]? = some ch
  root : ch.mss.root = h.chId
  endpoint : Placed (ch.endpoints[·]?) (·.mss.root) h.epId j
  channel1 : Placed (api.channels[·]?) (·.mss.root) h.ch1Id k
  endpoint1 : Placed (ch.endpoints[·]?) (·.mss.root) h.ep1Id l

section Places

variable {api : Api M} {h : HeaderCall} {i : ℕ} {j k l : Option ℕ} {ch : Channel M}

theorem channelGet_some {id : List Trit} (hi : api.channelGet id = some i) :
    ∃ ch, api.channels[i]? = some ch ∧ ch.mss.root = id := by
  obtain ⟨hlt, hroot, -⟩ := List.findIdx?_eq_some_iff_getElem.mp hi
  exact ⟨_, List.getElem?_eq_getElem hlt, by simpa using hroot⟩

theorem endpointGet_some {id : List Trit} {n : ℕ} (hch : api.channels[i]? = some ch)
    (hn : api.endpointGet i id = some n) :
    ∃ ep, ch.endpoints[n]? = some ep ∧ ep.mss.root = id := by
  rw [Api.endpointGet, hch] at hn
  obtain ⟨hlt, hroot, -⟩ := List.findIdx?_eq_some_iff_getElem.mp hn
  exact ⟨_, List.getElem?_eq_getElem hlt, by simpa using hroot⟩

theorem placed_of_placeOf {α : Type} {get : ℕ → Option α} {root : α → List Trit}
    {find : List Trit → Option ℕ} {e : Error} {id : Option (List Trit)} {place : Option ℕ}
    (hget : ∀ {id n}, find id = some n → ∃ x, get n = some x ∧ root x = id)
    (hplace : placeOf e find id = .ok place) : Placed get root id place := by
  cases id with
  | none => exact .inl ⟨rfl, (Except.ok.inj hplace).symm⟩
  | some id =>
    rw [placeOf] at hplace
    cases hn : find id with
    | none =>
      rw [hn] at hplace
      exact nomatch hplace
    | some n =>
      rw [hn] at hplace
      obtain ⟨x, hx, hid⟩ := hget hn
      exact .inr ⟨n, x, (Except.ok.inj hplace).symm, hx, congrArg some hid.symm⟩

/-- **The look-ups** find what they are given the identifiers of. -/
theorem places_of_headerArgs
    (hfound : headerArgs api h.chId h.epId h.ch1Id h.ep1Id = .ok (i, j, k, l)) :
    ∃ ch, Places api h i j k l ch := by
  have hargs := hfound
  unfold headerArgs at hargs
  cases hi : api.channelGet h.chId with
  | none => simp [hi] at hargs
  | some i' =>
    obtain ⟨ch, hch, hroot⟩ := channelGet_some hi
    rw [hi] at hargs
    dsimp only at hargs
    cases hk : placeOf .channelNotFound api.channelGet h.ch1Id with
    | error e =>
      rw [hk] at hargs
      exact nomatch hargs
    | ok k' =>
      rw [hk] at hargs
      cases hj : placeOf .endpointNotFound (api.endpointGet i') h.epId with
      | error e =>
        rw [hj] at hargs
        exact nomatch hargs
      | ok j' =>
        rw [hj] at hargs
        cases hl : placeOf .endpointNotFound (api.endpointGet i') h.ep1Id with
        | error e =>
          rw [hl] at hargs
          exact nomatch hargs
        | ok l' =>
          rw [hl] at hargs
          obtain ⟨rfl, rfl, rfl, rfl⟩ : i' = i ∧ j' = j ∧ k' = k ∧ l' = l := by
            have hsame := Except.ok.inj hargs
            simpa only [Prod.mk.injEq] using hsame
          exact ⟨ch, hfound, hch, hroot, placed_of_placeOf (endpointGet_some hch) hj,
            placed_of_placeOf channelGet_some hk, placed_of_placeOf (endpointGet_some hch) hl⟩

/-- What the header is written with. -/
def HeaderCall.args (T : Troika) (api : Api M) (h : HeaderCall) (j k l : Option ℕ)
    (ch : Channel M) : HeaderArgs M where
  prng := api.prng
  ch := ch
  ep := j.bind (ch.endpoints[·]?)
  ch1 := k.bind (api.channels[·]?)
  ep1 := l.bind (ch.endpoints[·]?)
  msgId := msgIdOf T ch
  msgTypeId := h.msgTypeId
  psks := h.psks
  ntruPks := h.ntruPks

/-- The key tree that the packets are signed with. -/
def HeaderArgs.speaker (a : HeaderArgs M) : Mss M := Mam.speaker a.ch a.ep a.ch1 a.ep1

/-- **The packets are signed with the key tree of who speaks.** -/
theorem mss_speakerRef (hp : Places api h i j k l ch) :
    api.mss (speakerRef i j k l) = some (h.args T api j k l ch).speaker := by
  rcases hp.channel1 with ⟨-, rfl⟩ | ⟨k', ch1, rfl, hk, -⟩
  · rcases hp.endpoint1 with ⟨-, rfl⟩ | ⟨l', ep1, rfl, hl, -⟩
    · rcases hp.endpoint with ⟨-, rfl⟩ | ⟨j', ep, rfl, hj, -⟩
      · simp [speakerRef, Api.mss, hp.channel, HeaderArgs.speaker, HeaderCall.args, speaker]
      · simp [speakerRef, Api.mss, hp.channel, hj, HeaderArgs.speaker, HeaderCall.args, speaker]
    · simp [speakerRef, Api.mss, hp.channel, hl, HeaderArgs.speaker, HeaderCall.args, speaker]
  · simp [speakerRef, Api.mss, hk, HeaderArgs.speaker, HeaderCall.args, speaker]

/-- Channels changed elsewhere keep their key trees. -/
theorem mss_modify {f : Channel M → Channel M}
    (hf : ∀ ch, (f ch).mss = ch.mss ∧ (f ch).endpoints = ch.endpoints) (i : ℕ) (r : MssRef) :
    Api.mss { api with channels := api.channels.modify i f } r = api.mss r := by
  cases r with
  | channel i' =>
    by_cases hi : i = i' <;> simp [Api.mss, hi, Function.comp_def, (hf _).1]
  | endpoint i' j' =>
    by_cases hi : i = i' <;> simp [Api.mss, hi, Option.bind_map, (hf _).2]

theorem root_mssAnnounced (ch : Channel M) (ch1 : Option (Channel M)) (ep1 : Option (Endpoint M)) :
    (mssAnnounced T ch ch1 ep1).root = ch.mss.root := by
  cases ch1 with
  | some ch1 => exact root_mssNext _
  | none =>
    cases ep1 with
    | some ep1 => exact root_mssNext _
    | none => rfl

theorem sound_mssAnnounced {ch : Channel M} (hch : ch.mss.Sound T) (ch1 : Option (Channel M))
    (ep1 : Option (Endpoint M)) : (mssAnnounced T ch ch1 ep1).Sound T := by
  cases ch1 with
  | some ch1 => exact hch.next
  | none =>
    cases ep1 with
    | some ep1 => exact hch.next
    | none => exact hch

/-- The spongos behind the header, and the header. -/
def HeaderArgs.header (T : Troika) (N : Ntru) (a : HeaderArgs M) : Wire :=
  wrapHeader T N a ⟨init, []⟩

/-- The context of the message, behind the header. -/
def HeaderArgs.context (T : Troika) (N : Ntru) (a : HeaderArgs M) (ref : MssRef) : WriteContext :=
  ⟨a.ch.mss.root, (a.header T N).state, 1, ref⟩

/-- **A header that can be written** is, and the message waits for its first packet. -/
theorem writeHeader_ok (hsound : api.Sound T) (hp : Places api h i j k l ch)
    (hleft : CanAnnounce ch (h.args T api j k l ch).ch1 (h.args T api j k l ch).ep1)
    (halloc : h.alloc 0 = true ∧ h.alloc 1 = true) :
    ∃ api' m', api.writeHeader T N h = (.ok (msgIdOf T ch), api',
        bundleWrap h.now ch.mss.root (writeTag (msgIdOf T ch) 0)
          ((h.args T api j k l ch).header T N).cells []) ∧
      api'.findWrite (msgIdOf T ch) =
        some ((h.args T api j k l ch).context T N (speakerRef i j k l), m') ∧
      m'.root = (h.args T api j k l ch).speaker.root ∧ m'.Sound T ∧
      ((h.args T api j k l ch).ch1 = none → (h.args T api j k l ch).ep1 = none →
        m' = (h.args T api j k l ch).speaker) := by
  have hspeaker := mss_speakerRef (T := T) hp
  have hmss := hsound.mss hspeaker
  have hch := (hsound ch (List.mem_of_getElem? hp.channel)).mss
  have hcounted : ∀ r, Api.mss { api with channels := api.channels.modify i fun ch =>
      { ch with msgOrd := Trit.ofInts (addAssign (Trit.toInts ch.msgOrd) 1) } } r = api.mss r := by
    intro r
    refine mss_modify (fun ch => ?_) i r
    exact ⟨rfl, rfl⟩
  have hchannel : api.mss (.channel i) = some ch.mss := by simp [Api.mss, hp.channel]
  have hwrite := msgWriteHeader_eq (T := T) (N := N) (a := h.args T api j k l ch) hleft
  unfold Api.writeHeader apiBundleWriteHeader
  rw [if_neg (by simp), hp.found]
  simp only [hp.channel]
  unfold apiBundleWriteHeaderAt
  dsimp only
  change msgWriteHeader T N api.prng ch (j.bind fun j => ch.endpoints[j]?)
    (k.bind fun k => api.channels[k]?) (l.bind fun l => ch.endpoints[l]?) (msgIdOf T ch)
    h.msgTypeId h.psks h.ntruPks = _ at hwrite
  rw [if_neg (by rw [halloc.1]; simp), hwrite]
  dsimp only
  rw [if_neg (by rw [halloc.2]; simp)]
  by_cases href : speakerRef i j k l = .channel i
  · -- the key tree that signs the header signs the packets
    rw [href] at hspeaker
    have hsame := Option.some.inj (hchannel.symm.trans hspeaker)
    refine ⟨_, mssAnnounced T ch (h.args T api j k l ch).ch1 (h.args T api j k l ch).ep1, rfl,
      findWrite_of (CtxMap.find_cons.trans (if_pos rfl)) ?_, ?_, sound_mssAnnounced hch _ _,
      fun hch1 hep1 => ?_⟩
    · show Api.mss _ (speakerRef i j k l) = _
      rw [href]
      exact Api.mss_setMss ((hcounted _).trans hchannel)
    · rw [root_mssAnnounced, hsame]
    · rw [hch1, hep1]
      exact hsame
  · refine ⟨_, (h.args T api j k l ch).speaker, rfl,
      findWrite_of (CtxMap.find_cons.trans (if_pos rfl)) ?_, rfl, hmss, fun _ _ => rfl⟩
    exact (Api.mss_setMss_of_ne (fun hsame => href hsame.symm)).trans
      ((hcounted _).trans hspeaker)

end Places

/-! ## Reading the header -/

theorem length_msgIdOf (ch : Channel M) : (msgIdOf T ch).length = msgIdSize := length_squeeze _ _

/-- The header is written for the reader, and not known to it. -/
structure Receives (N : Ntru) (rd : Api M) (a : HeaderArgs M) : Prop where
  trusts : Trusts rd.trusted a.ch a.ep a.ch1 a.ep1
  recipient : Recipient N a.psks a.ntruPks rd.psks rd.ntruSks
  unknown : rd.readCtxs.find a.msgId = none

/-- What is right with a header that is written. -/
structure HeaderArgs.Sound (T : Troika) (a : HeaderArgs M) : Prop where
  fits : a.Fits
  channel : a.ch.mss.Sound T
  speaker : a.speaker.Sound T
  announce : CanAnnounce a.ch a.ch1 a.ep1
  msgId : a.msgId.length = msgIdSize

section Read

variable {rd : Api M} {a : HeaderArgs M} {r : ReadCall} {rest : List Trit}

/-- The context of the reader, behind the header. -/
def HeaderArgs.readContext (T : Troika) (N : Ntru) (a : HeaderArgs M) : ReadContext :=
  ⟨(a.header T N).state, a.speaker.root, 1⟩

theorem length_header (ha : a.Sound T) : (a.header T N).cells.length = msgHeaderSize a := by
  have hsize := writes_header (N := N) ha.fits ha.channel ha.speaker ha.announce ⟨init, []⟩
  rw [List.length_nil, Nat.zero_add] at hsize
  exact hsize

/-- **What is left to read behind a header.** -/
theorem read_header (ha : a.Sound T) (hrec : Receives N rd a)
    (htag : r.tx.tag = writeTag a.msgId 0) (haddress : r.tx.address = a.ch.mss.root)
    (hmsg : r.msg = (a.header T N).cells ++ rest) :
    ∃ trusted, rd.read T N r = apiBundleReadFirst T { rd with trusted } (a.readContext T N)
      (r.tx :: r.txs) a.msgId (msgHeaderSize a) r.alloc := by
  have hid : r.tx.tag.take msgIdSize = a.msgId := by rw [htag, take_writeTag ha.msgId]
  have h0 : tagOrd r.tx.tag = 0 := by rw [htag, tagOrd_writeTag ha.msgId (by decide)]
  have hread := msgReadHeader_wrapHeader (N := N) ha.fits ha.channel ha.speaker ha.announce
    hrec.trusts hrec.recipient (r.alloc 0) rest
  have hlen := length_header (N := N) ha
  have hsize : (bundleUnwrap (r.tx :: r.txs)).length - rest.length = msgHeaderSize a := by
    change r.msg.length - _ = _
    rw [hmsg, List.length_append, hlen, Nat.add_sub_cancel]
  have hall : msgReadHeader T N r.tx.address rd.psks rd.ntruSks (r.tx.tag.take msgIdSize) rd.trusted
      (r.alloc 0) (bundleUnwrap (r.tx :: r.txs)) =
      (.ok a.speaker.root, trustedAfter rd.trusted (r.alloc 0) a.ch1 a.ep1,
        ⟨(a.header T N).state, rest⟩) := by
    rw [hid, haddress]
    exact (congrArg _ hmsg).trans hread
  refine ⟨trustedAfter rd.trusted (r.alloc 0) a.ch1 a.ep1, ?_⟩
  unfold Api.read
  rw [apiBundleRead_header h0 (by rw [hid]; exact hrec.unknown) hall, hid, ← hsize]
  rfl

theorem numParts_le (n : ℕ) : numParts n ≤ n / numTritsMessage + 1 := by
  unfold numParts numTritsMessage
  omega

/-- **The reader of a header by itself** waits for the first packet. -/
theorem read_header_alone (ha : a.Sound T) (hrec : Receives N rd a)
    (htag : r.tx.tag = writeTag a.msgId 0) (haddress : r.tx.address = a.ch.mss.root)
    (hmsg : r.msg = (a.header T N).cells ++ rest)
    (hcount : (r.tx :: r.txs).length ≤ msgHeaderSize a / numTritsMessage + 1)
    (halloc : r.alloc 2 = true) :
    (rd.read T N r).1 = .ok none ∧
      (rd.read T N r).2.readCtxs.find a.msgId = some (a.readContext T N) := by
  obtain ⟨trusted, hread⟩ := read_header ha hrec htag haddress hmsg
  rw [hread, apiBundleReadFirst_none hcount halloc]
  exact ⟨rfl, CtxMap.find_cons.trans (if_pos rfl)⟩

/-- **The reader of a header with the first packet** in the transactions behind it. -/
theorem read_header_packet (ha : a.Sound T) (hrec : Receives N rd a)
    (htag : r.tx.tag = writeTag a.msgId 0) (haddress : r.tx.address = a.ch.mss.root)
    (hmsg : r.msg = (a.header T N).cells ++ rest) {ref : MssRef} {c : WriteCall} {m : Mss M}
    (hm : m.Sound T) (hroot : m.root = a.speaker.root)
    (hleft : c.checksum = .sig → mssRemainingSks m ≠ 0) (h3 : 3 ∣ c.payload.length)
    (hsize : c.payload.length / 3 ≤ tritsSizeMax) {tx : Transaction}
    (htx : (r.tx :: r.txs)[msgHeaderSize a / numTritsMessage + 1]? = some tx)
    (htag' : tx.tag = writeTag a.msgId (c.ord (a.context T N ref))) {rest' : List Trit}
    (hmsg' : r.msg.drop (msgHeaderSize a + (numTritsMessage - msgHeaderSize a % numTritsMessage)) =
      (c.packet T (a.context T N ref) m).cells ++ rest')
    (halloc : r.alloc 1 = true ∧ r.alloc 2 = true) :
    (rd.read T N r).1 = .ok (some ⟨c.payload, c.isLastPacket⟩) ∧
      (c.isLastPacket = false → (rd.read T N r).2.readCtxs.find a.msgId =
        some ⟨(c.packet T (a.context T N ref) m).state, m.root, 2⟩) := by
  obtain ⟨trusted, hread⟩ := read_header ha hrec htag haddress hmsg
  have hord : tagOrd tx.tag = c.ord (a.context T N ref) := by
    rw [htag', tagOrd_writeTag ha.msgId]
    rw [WriteCall.abs_ord Int.one_pos]
    exact (by decide : 2 * (1 : ℤ) < 3 ^ 18)
  have hctx : (if tagOrd tx.tag < 0 then { a.readContext T N with ord := tagOrd tx.tag } else
      a.readContext T N) = ⟨(a.context T N ref).spongos, m.root, c.ord (a.context T N ref)⟩ := by
    rw [hord, hroot]
    unfold WriteCall.ord
    cases c.isLastPacket <;> rfl
  have hfrom := readPacketFromMsg_packet (c := c) hm hleft h3 hsize
    (show 0 < (a.context T N ref).ord from Int.one_pos) rest'
  have hafter : rd.read T N r = (.ok (some ⟨c.payload, c.isLastPacket⟩),
      { rd with trusted, readCtxs := rd.readCtxs.add a.msgId ⟨(c.packet T (a.context T N ref) m).state,
        m.root, if c.isLastPacket then c.ord (a.context T N ref)
          else c.ord (a.context T N ref) + 1⟩ }) := by
    rw [hread, apiBundleReadFirst, htx]
    dsimp only
    change (bundleUnwrap (r.tx :: r.txs)).drop _ = _ at hmsg'
    rw [hctx, hmsg', halloc.1, hfrom]
    dsimp only
    rw [if_neg (by rw [halloc.2]; simp), htag', take_writeTag ha.msgId]
  rw [hafter]
  refine ⟨rfl, fun hlast => (CtxMap.find_cons.trans (if_pos rfl)).trans ?_⟩
  unfold WriteCall.ord
  rw [hlast]
  rfl

end Read

end Mam

end Entangled
