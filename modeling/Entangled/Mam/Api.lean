import Entangled.Mam.Message
import Entangled.Signing.Iss
/-!
# The library

A node keeps channels with their endpoints, the messages it is writing and the messages it is
reading, each under its number. A message goes out in bundles: its header in one, every packet in
the header's or in one of its own, cut into transactions whose tags tell the message and the packet.
The number of the last packet is negated.

Identifiers and payloads are taken in trits. The maps of contexts add without looking whether the
key is there, and find what was added last. `alloc` tells which allocations of a call succeed, in
the order of the text.
-/

namespace Entangled

namespace Mam

open Spongos

/-- `NUM_TRITS_MESSAGE`. -/
def numTritsMessage : ℕ := 6561

/-- `MAM_MSG_ID_SIZE`. -/
def msgIdSize : ℕ := 63

/-- What is used here of `iota_transaction_t`. -/
structure Transaction where
  address : List Trit
  value : ℤ
  obsoleteTag : List Trit
  timestamp : ℕ
  tag : List Trit
  message : List Trit
  currentIndex : ℕ
  lastIndex : ℕ
  deriving DecidableEq

/-! ## Bundles -/

/-- `bundle_reset_indexes`. -/
def bundleResetIndexes (bundle : List Transaction) : List Transaction :=
  bundle.mapIdx fun i tx => { tx with lastIndex := bundle.length - 1, currentIndex := i }

/-- The loop of `mam_api_bundle_wrap`: the message in parts, the last one filled up. -/
def bundleWrapFrom (transaction : Transaction) (bundle : List Transaction) (message : List Trit) :
    List Transaction :=
  if _h : message = [] then bundle
  else
    let messagePart := message.take numTritsMessage
    let buffer := messagePart ++ List.replicate (numTritsMessage - messagePart.length) .zero
    bundleWrapFrom transaction (bundle ++ [{ transaction with message := buffer }])
      (message.drop numTritsMessage)
termination_by message.length
decreasing_by
  have hne := List.length_pos_iff.mpr _h
  have hpos : 0 < numTritsMessage := by decide
  rw [List.length_drop]
  omega

/-- `mam_api_bundle_wrap`, at the time `now`. -/
def bundleWrap (now : ℕ) (address tag message : List Trit) (bundle : List Transaction) :
    List Transaction :=
  let transaction :=
    { address, value := 0, obsoleteTag := List.replicate 81 .zero, timestamp := now, tag,
      message := List.replicate numTritsMessage .zero, currentIndex := 0, lastIndex := 0 }
  bundleResetIndexes (bundleWrapFrom transaction bundle message)

/-- `mam_api_bundle_unwrap`, from the first transaction on. -/
def bundleUnwrap (bundle : List Transaction) : List Trit :=
  (bundle.map Transaction.message).flatten

/-- `mam_api_write_tag`. -/
def writeTag (msgId : List Trit) (ord : ℤ) : List Trit := msgId ++ put18 ord

/-! ## Contexts -/

/-- Whose key tree: a pointer into a channel or into one of its endpoints. -/
inductive MssRef
  | channel (i : ℕ)
  | endpoint (i j : ℕ)
  deriving DecidableEq

/-- `mam_msg_write_context_t`. -/
structure WriteContext where
  chid : List Trit
  spongos : Spongos
  ord : ℤ
  mss : MssRef

/-- `mam_msg_read_context_t`. -/
@[ext]
structure ReadContext where
  spongos : Spongos
  pk : List Trit
  ord : ℤ

section CtxMap

variable {κ α : Type} [DecidableEq κ]

/-- The map of contexts. -/
abbrev CtxMap (κ α : Type) := List (κ × α)

/-- The `map_find` functions. -/
def CtxMap.find (map : CtxMap κ α) (k : κ) : Option α :=
  (List.find? (fun e => e.1 = k) map).map Prod.snd

/-- The `map_add` functions. -/
def CtxMap.add (map : CtxMap κ α) (k : κ) (v : α) : CtxMap κ α := (k, v) :: map

/-- What is found changed in place. -/
def CtxMap.assign : CtxMap κ α → κ → α → CtxMap κ α
  | [], _, _ => []
  | e :: map, k, v => if e.1 = k then (k, v) :: map else e :: CtxMap.assign map k v

/-- The `map_remove` functions. -/
def CtxMap.remove (map : CtxMap κ α) (k : κ) : CtxMap κ α := List.eraseP (fun e => e.1 = k) map

end CtxMap

/-- `mam_api_t`. -/
structure Api (M : MerkleMode) where
  prng : List Trit
  ntruSks : List NtruSk
  psks : List Psk
  channels : List (Channel M)
  channelOrd : ℤ
  writeCtxs : CtxMap (List Trit) WriteContext
  readCtxs : CtxMap (List Trit) ReadContext
  trusted : Trusted

namespace Api

variable {M : MerkleMode}

/-- `mam_api_init`. -/
def init (prng : List Trit) : Api M := ⟨prng, [], [], [], 0, [], [], ⟨[], []⟩⟩

/-- Where the key tree is. -/
def mss (api : Api M) : MssRef → Option (Mss M)
  | .channel i => api.channels[i]?.map (·.mss)
  | .endpoint i j => (api.channels[i]?.bind fun ch => ch.endpoints[j]?).map (·.mss)

/-- A key tree changed where it is. -/
def setMss (api : Api M) (m : Mss M) : MssRef → Api M
  | .channel i => { api with channels := api.channels.modify i fun ch => { ch with mss := m } }
  | .endpoint i j =>
    { api with
      channels := api.channels.modify i fun ch =>
        { ch with endpoints := ch.endpoints.modify j fun ep => { ep with mss := m } } }

/-- `mam_api_channel_get`: its place. -/
def channelGet (api : Api M) (id : List Trit) : Option ℕ :=
  api.channels.findIdx? fun ch => ch.mss.root = id

/-- `mam_api_endpoint_get`: its place in the channel at `i`. -/
def endpointGet (api : Api M) (i : ℕ) (id : List Trit) : Option ℕ :=
  api.channels[i]?.bind fun ch => ch.endpoints.findIdx? fun ep => ep.mss.root = id

/-- A message that is being written, with the key tree its context points at. -/
def findWrite (api : Api M) (msgId : List Trit) : Option (WriteContext × Mss M) := do
  let ctx ← api.writeCtxs.find msgId
  let m ← api.mss ctx.mss
  pure (ctx, m)

end Api

/-! ## Creating channels and endpoints -/

section Create

variable (T : Troika) {M : MerkleMode}

/-- The trits of the size of a name, in a buffer for any size. -/
def nameSizeTrits (name : List Trit) : List Trit :=
  blit (List.replicate 45 .zero) 0 (encodeSizeT (name.length / 3))

/-- `mam_mss_init` and `mam_mss_gen`. -/
def mssCreate (prng : List Trit) (height : ℕ) (nonces : List (List Trit)) : Mss M :=
  let leaf := fun i : ℕ => wotsGenPk T (prngGen5 T prng 1 (nonces ++ [put18 i]) wotsPrivateKeySize)
  let (tree, root) := M.gen T leaf height
  ⟨height, 0, prng, nonces, tree, root⟩

/-- `mam_channel_create`. -/
def channelCreate (prng : List Trit) (height : ℕ) (name : List Trit) : Channel M :=
  { nameSize := nameSizeTrits name, name, msgOrd := List.replicate 81 .zero
    mss := mssCreate T prng height [nameSizeTrits name, name, [], []]
    endpoints := [], endpointOrd := 0 }

/-- `mam_endpoint_create`. -/
def endpointCreate (prng : List Trit) (height : ℕ) (channelNameSize channelName name : List Trit) :
    Endpoint M :=
  { nameSize := nameSizeTrits name, name
    mss := mssCreate T prng height [channelNameSize, channelName, nameSizeTrits name, name] }

variable (api : Api M)

/-- `mam_api_channel_create`. -/
def apiChannelCreate (height : ℕ) (alloc : ℕ → Bool) : Except Error (List Trit) × Api M :=
  if mssMaxD < height then (.error .invalidArgument, api)
  else if alloc 0 = false then (.error .oom, api)
  else
    let channel := channelCreate T api.prng height (put18 api.channelOrd)
    let id := channel.mss.root
    let api := { api with channels := api.channels ++ [channel] }
    if alloc 1 = false ∧ id ∉ api.trusted.channelPks then (.error .oom, api)
    else
      (.ok id, { api with
        trusted := { api.trusted with channelPks := pkSetAdd (alloc 1) api.trusted.channelPks id }
        channelOrd := api.channelOrd + 1 })

/-- `mam_api_endpoint_create`. -/
def apiEndpointCreate (height : ℕ) (channelId : List Trit) (alloc : ℕ → Bool) :
    Except Error (List Trit) × Api M :=
  match api.channelGet channelId with
  | none => (.error .channelNotFound, api)
  | some i =>
    match api.channels[i]? with
    | none => (.error .channelNotFound, api)
    | some ch =>
      if mssMaxD < height then (.error .invalidArgument, api)
      else if alloc 0 = false then (.error .oom, api)
      else
        let endpoint :=
          endpointCreate T api.prng height ch.nameSize ch.name (put18 ch.endpointOrd)
        let id := endpoint.mss.root
        let added := { api with
          channels := api.channels.modify i fun ch =>
            { ch with endpoints := ch.endpoints ++ [endpoint] } }
        if alloc 1 = false ∧ id ∉ api.trusted.endpointPks then (.error .oom, added)
        else
          (.ok id, { added with
            channels := added.channels.modify i fun ch =>
              { ch with endpointOrd := ch.endpointOrd + 1 }
            trusted := { api.trusted with
              endpointPks := pkSetAdd (alloc 1) api.trusted.endpointPks id } })

end Create

/-- A tree is sound when it is made. -/
theorem sound_mssCreate {T : Troika} {M : MerkleMode} (prng : List Trit) {height : ℕ}
    (hheight : height ≤ mssMaxD) (nonces : List (List Trit)) :
    (mssCreate T prng height nonces : Mss M).Sound T where
  height_le := hheight
  root_eq := M.gen_root _ _ _
  ready _ := M.ready_gen _ _ _

/-! ## Writing -/

section Write

variable (T : Troika) (N : Ntru) {M : MerkleMode} (api : Api M)

/-- The number a message gets: the name of its channel and its place there, hashed. -/
def msgIdOf (ch : Channel M) : List Trit := hashn T [ch.name, ch.msgOrd] msgIdSize

/-- The place of what an identifier is given of. -/
def placeOf (e : Error) (get : List Trit → Option ℕ) :
    Option (List Trit) → Except Error (Option ℕ)
  | none => .ok none
  | some id =>
    match get id with
    | some i => .ok (some i)
    | none => .error e

/-- What of the arguments of `mam_api_bundle_write_header` is there, by its place: the channel, the
endpoint, and what is announced. -/
def headerArgs (chId : List Trit) (epId ch1Id ep1Id : Option (List Trit)) :
    Except Error (ℕ × Option ℕ × Option ℕ × Option ℕ) :=
  match api.channelGet chId with
  | none => .error .channelNotFound
  | some i => do
    let ch1 ← placeOf .channelNotFound api.channelGet ch1Id
    let ep ← placeOf .endpointNotFound (api.endpointGet i) epId
    let ep1 ← placeOf .endpointNotFound (api.endpointGet i) ep1Id
    .ok (i, ep, ch1, ep1)

/-- Whose key tree the packets are signed with. -/
def speakerRef (i : ℕ) : Option ℕ → Option ℕ → Option ℕ → MssRef
  | _, some k, _ => .channel k
  | _, none, some l => .endpoint i l
  | some j, none, none => .endpoint i j
  | none, none, none => .channel i

/-- The part of `mam_api_bundle_write_header` behind the look-ups, for the channel at `i`. -/
def apiBundleWriteHeaderAt (now i : ℕ) (ch : Channel M) (ep : Option (Endpoint M))
    (ch1 : Option (Channel M)) (ep1 : Option (Endpoint M)) (ref : MssRef) (psks : List Psk)
    (ntruPks : List (List Trit)) (msgTypeId : ℤ) (alloc : ℕ → Bool) (bundle : List Transaction) :
    Except Error (List Trit) × Api M × List Transaction :=
  let msgId := msgIdOf T ch
  let api := { api with
    channels := api.channels.modify i fun ch =>
      { ch with msgOrd := Trit.ofInts (addAssign (Trit.toInts ch.msgOrd) 1) } }
  if alloc 0 = false then (.error .oom, api, bundle)
  else
    match msgWriteHeader T N api.prng ch ep ch1 ep1 msgId msgTypeId psks ntruPks with
    | (.error e, m, _) => (.error e, api.setMss m (.channel i), bundle)
    | (.ok (), m, t) =>
      let api := api.setMss m (.channel i)
      let bundle := bundleWrap now ch.mss.root (writeTag msgId 0) t.cells bundle
      if alloc 1 = false then (.error .oom, api, bundle)
      else
        (.ok msgId, { api with
          writeCtxs := api.writeCtxs.add msgId ⟨ch.mss.root, t.state, 1, ref⟩ }, bundle)

/-- `mam_api_bundle_write_header`, which `mam_api_bundle_write_header_on_channel`,
`mam_api_bundle_write_header_on_endpoint`, `mam_api_bundle_announce_channel` and
`mam_api_bundle_announce_endpoint` call: the number of the message. -/
def apiBundleWriteHeader (now : ℕ) (chId : List Trit) (epId ch1Id ep1Id : Option (List Trit))
    (psks : List Psk) (ntruPks : List (List Trit)) (msgTypeId : ℤ) (alloc : ℕ → Bool)
    (bundle : List Transaction) : Except Error (List Trit) × Api M × List Transaction :=
  if bundle ≠ [] then (.error .bundleNotEmpty, api, bundle)
  else
    match headerArgs api chId epId ch1Id ep1Id with
    | .error e => (.error e, api, bundle)
    | .ok (i, j, k, l) =>
      match api.channels[i]? with
      | none => (.error .channelNotFound, api, bundle)
      | some ch =>
        apiBundleWriteHeaderAt T N api now i ch (j.bind fun j => ch.endpoints[j]?)
          (k.bind fun k => api.channels[k]?) (l.bind fun l => ch.endpoints[l]?) (speakerRef i j k l)
          psks ntruPks msgTypeId alloc bundle

/-- `mam_api_bundle_write_packet`. `args` is that no pointer is null. -/
def apiBundleWritePacket (now : ℕ) (args : Bool) (msgId payload : List Trit) (checksum : Checksum)
    (isLastPacket : Bool) (alloc : ℕ → Bool) (bundle : List Transaction) :
    Except Error Unit × Api M × List Transaction :=
  if args = false then (.error .nullParam, api, bundle)
  else
    match api.findWrite msgId with
    | none => (.error .messageNotFound, api, bundle)
    | some (ctx, m) =>
      if alloc 0 = false ∨ alloc 1 = false then (.error .oom, api, bundle)
      else
        let ord := if isLastPacket then -ctx.ord else ctx.ord
        match msgWritePacket T ord m checksum payload ⟨ctx.spongos, []⟩ with
        | (.error e, m, t) =>
          -- the number is negated and the spongos has moved on
          let api := api.setMss m ctx.mss
          (.error e, { api with
            writeCtxs := api.writeCtxs.assign msgId { ctx with spongos := t.state, ord } }, bundle)
        | (.ok (), m, t) =>
          let api := api.setMss m ctx.mss
          let tag := writeTag msgId ord
          let ord' := if isLastPacket then ord else ord + 1
          let api := { api with
            writeCtxs := api.writeCtxs.assign msgId { ctx with spongos := t.state, ord := ord' } }
          let bundle := bundleWrap now ctx.chid tag t.cells bundle
          if isLastPacket then
            (.ok (), { api with writeCtxs := api.writeCtxs.remove msgId }, bundle)
          else (.ok (), api, bundle)

end Write

/-! ## Reading -/

/-- A packet that was read. -/
structure Packet where
  payload : List Trit
  isLastPacket : Bool
  deriving DecidableEq

section Read

variable (T : Troika) (N : Ntru) {M : MerkleMode}

/-- `mam_api_bundle_read_packet_from_msg`: the context is put back on a failure. -/
def apiBundleReadPacketFromMsg (ctx : ReadContext) (msg : List Trit) (alloc : Bool) :
    Except Error Packet × ReadContext :=
  let rollbackCtx := ctx
  match msgReadPacket T ctx.ord ctx.pk alloc ⟨ctx.spongos, msg⟩ with
  | (.error e, _) => (.error e, rollbackCtx)
  | (.ok payload, t) =>
    let ctx := { ctx with spongos := t.state }
    if 0 ≤ ctx.ord then (.ok ⟨payload, false⟩, { ctx with ord := ctx.ord + 1 })
    else (.ok ⟨payload, true⟩, ctx)

/-- The number of the packet in a tag. -/
def tagOrd (tag : List Trit) : ℤ := get18 (tag.drop msgIdSize)

/-- The packet in the bundle of a header of which `d` trits are read, if there is one, and the entry
for the context, which is made under the number in the tag of the packet. -/
def apiBundleReadFirst (api : Api M) (ctx : ReadContext) (bundle : List Transaction)
    (msgId : List Trit) (d : ℕ) (alloc : ℕ → Bool) : Except Error (Option Packet) × Api M :=
  let msg := bundleUnwrap bundle
  let packetIndex := d / numTritsMessage + 1
  match bundle[packetIndex]? with
  | none =>
    if alloc 2 = false then (.error .oom, api)
    else (.ok none, { api with readCtxs := api.readCtxs.add msgId ctx })
  | some tx =>
    let ord := tagOrd tx.tag
    let ctx := if ord < 0 then { ctx with ord } else ctx
    let msg := msg.drop (d + (numTritsMessage - d % numTritsMessage))
    match apiBundleReadPacketFromMsg T ctx msg (alloc 1) with
    | (.error e, _) => (.error e, api)
    | (.ok packet, ctx) =>
      if alloc 2 = false then (.error .oom, api)
      else
        (.ok (some packet), { api with
          readCtxs := api.readCtxs.add (tx.tag.take msgIdSize) ctx })

/-- The branch of `mam_api_bundle_read` for a header. -/
def apiBundleReadHeader (api : Api M) (tx : Transaction) (txs : List Transaction)
    (alloc : ℕ → Bool) : Except Error (Option Packet) × Api M :=
  let msg := bundleUnwrap (tx :: txs)
  let msgId := tx.tag.take msgIdSize
  match msgReadHeader T N tx.address api.psks api.ntruSks msgId api.trusted (alloc 0) msg with
  | (.error e, trusted, _) => (.error e, { api with trusted })
  | (.ok pk, trusted, t) =>
    apiBundleReadFirst T { api with trusted } ⟨t.state, pk, 1⟩ (tx :: txs) msgId
      (msg.length - t.cells.length) alloc

/-- The branch of `mam_api_bundle_read` for a packet of a message that is known. -/
def apiBundleReadPacket (api : Api M) (ctx : ReadContext) (ord : ℤ) (msgId msg : List Trit)
    (alloc : ℕ → Bool) : Except Error (Option Packet) × Api M :=
  let ctx := if ord < 0 then { ctx with ord := -ctx.ord } else ctx
  match apiBundleReadPacketFromMsg T ctx msg (alloc 1) with
  | (.error e, ctx) => (.error e, { api with readCtxs := api.readCtxs.assign msgId ctx })
  | (.ok packet, ctx) =>
    let api := { api with readCtxs := api.readCtxs.assign msgId ctx }
    if packet.isLastPacket then
      (.ok (some packet), { api with readCtxs := api.readCtxs.remove msgId })
    else (.ok (some packet), api)

/-- `mam_api_bundle_read`, of the bundle of `tx` and `txs`: the packet, if there was one. -/
def apiBundleRead (api : Api M) (tx : Transaction) (txs : List Transaction) (alloc : ℕ → Bool) :
    Except Error (Option Packet) × Api M :=
  let msgId := tx.tag.take msgIdSize
  let ord := tagOrd tx.tag
  if ord = 0 then
    if (api.readCtxs.find msgId).isSome then (.ok none, api)
    else apiBundleReadHeader T N api tx txs alloc
  else
    match api.readCtxs.find msgId with
    | none => (.error .messageNotFound, api)
    | some ctx =>
      if ord ≠ ctx.ord ∧ -ord ≠ ctx.ord then (.error .badPacketOrd, api)
      else apiBundleReadPacket T api ctx ord msgId (bundleUnwrap (tx :: txs)) alloc

variable {T N} {api : Api M} {tx : Transaction} {txs : List Transaction} {alloc : ℕ → Bool}

/-- A header that is read, of a message that is not known. -/
theorem apiBundleRead_header {pk : List Trit} {trusted : Trusted} {t : Wire}
    (h0 : tagOrd tx.tag = 0) (hnew : api.readCtxs.find (tx.tag.take msgIdSize) = none)
    (hread : msgReadHeader T N tx.address api.psks api.ntruSks (tx.tag.take msgIdSize) api.trusted
      (alloc 0) (bundleUnwrap (tx :: txs)) = (.ok pk, trusted, t)) :
    apiBundleRead T N api tx txs alloc =
      apiBundleReadFirst T { api with trusted } ⟨t.state, pk, 1⟩ (tx :: txs)
        (tx.tag.take msgIdSize) ((bundleUnwrap (tx :: txs)).length - t.cells.length) alloc := by
  unfold apiBundleRead
  dsimp only
  rw [if_pos h0, hnew, if_neg (by simp), apiBundleReadHeader, hread]

/-- No packet in the bundle of the header. -/
theorem apiBundleReadFirst_none {ctx : ReadContext} {bundle : List Transaction} {msgId : List Trit}
    {d : ℕ} (hlen : bundle.length ≤ d / numTritsMessage + 1) (halloc : alloc 2 = true) :
    apiBundleReadFirst T api ctx bundle msgId d alloc =
      (.ok none, { api with readCtxs := api.readCtxs.add msgId ctx }) := by
  rw [apiBundleReadFirst, List.getElem?_eq_none hlen]
  dsimp only
  rw [if_neg (by rw [halloc]; simp)]

end Read

/-! ## Runs -/

section Runs

variable {M : MerkleMode}

/-- `mam_api_add_trusted_channel_pk`. -/
def apiAddTrustedChannelPk (api : Api M) (pk : List Trit) (alloc : Bool) : Api M :=
  { api with
    trusted := { api.trusted with channelPks := pkSetAdd alloc api.trusted.channelPks pk } }

/-- `mam_api_add_trusted_endpoint_pk`. -/
def apiAddTrustedEndpointPk (api : Api M) (pk : List Trit) (alloc : Bool) : Api M :=
  { api with
    trusted := { api.trusted with endpointPks := pkSetAdd alloc api.trusted.endpointPks pk } }

/-- `mam_api_add_ntru_sk`. -/
def apiAddNtruSk (api : Api M) (ntruSk : NtruSk) (alloc : Bool) : Api M :=
  if ntruSk ∈ api.ntruSks ∨ alloc = false then api
  else { api with ntruSks := api.ntruSks ++ [ntruSk] }

/-- `mam_api_add_psk`. -/
def apiAddPsk (api : Api M) (psk : Psk) (alloc : Bool) : Api M :=
  if psk ∈ api.psks ∨ alloc = false then api else { api with psks := api.psks ++ [psk] }

/-- The calls of the library, with what they are given. -/
inductive Call
  | addTrustedChannelPk (pk : List Trit) (alloc : Bool)
  | addTrustedEndpointPk (pk : List Trit) (alloc : Bool)
  | addNtruSk (ntruSk : NtruSk) (alloc : Bool)
  | addPsk (psk : Psk) (alloc : Bool)
  | channelCreate (height : ℕ) (alloc : ℕ → Bool)
  | endpointCreate (height : ℕ) (channelId : List Trit) (alloc : ℕ → Bool)
  | writeHeader (now : ℕ) (chId : List Trit) (epId ch1Id ep1Id : Option (List Trit))
    (psks : List Psk) (ntruPks : List (List Trit)) (msgTypeId : ℤ) (alloc : ℕ → Bool)
    (bundle : List Transaction)
  | writePacket (now : ℕ) (args : Bool) (msgId payload : List Trit) (checksum : Checksum)
    (isLastPacket : Bool) (alloc : ℕ → Bool) (bundle : List Transaction)
  | read (tx : Transaction) (txs : List Transaction) (alloc : ℕ → Bool)

/-- What a call leaves. -/
def Api.call (T : Troika) (N : Ntru) (api : Api M) : Call → Api M
  | .addTrustedChannelPk pk alloc => apiAddTrustedChannelPk api pk alloc
  | .addTrustedEndpointPk pk alloc => apiAddTrustedEndpointPk api pk alloc
  | .addNtruSk ntruSk alloc => apiAddNtruSk api ntruSk alloc
  | .addPsk psk alloc => apiAddPsk api psk alloc
  | .channelCreate height alloc => (apiChannelCreate T api height alloc).2
  | .endpointCreate height channelId alloc => (apiEndpointCreate T api height channelId alloc).2
  | .writeHeader now chId epId ch1Id ep1Id psks ntruPks msgTypeId alloc bundle =>
    (apiBundleWriteHeader T N api now chId epId ch1Id ep1Id psks ntruPks msgTypeId alloc bundle).2.1
  | .writePacket now args msgId payload checksum isLastPacket alloc bundle =>
    (apiBundleWritePacket T api now args msgId payload checksum isLastPacket alloc bundle).2.1
  | .read tx txs alloc => (apiBundleRead T N api tx txs alloc).2

theorem Api.call_read (T : Troika) (N : Ntru) (api : Api M) (tx : Transaction)
    (txs : List Transaction) (alloc : ℕ → Bool) :
    api.call T N (.read tx txs alloc) = (apiBundleRead T N api tx txs alloc).2 := rfl

/-- A state that is reached by calls that `ok` allows. -/
inductive Reached (T : Troika) (N : Ntru) (ok : Api M → Call → Prop) : Api M → Prop
  | init (prng : List Trit) : Reached T N ok (Api.init prng)
  | call {api : Api M} {c : Call} : Reached T N ok api → ok api c → Reached T N ok (api.call T N c)

end Runs

end Mam

end Entangled
