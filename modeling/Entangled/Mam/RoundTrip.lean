import Entangled.Mam.Header
/-!
# A message and its reader

A header and packets are written, each packet into a bundle of its own, but for the first, which may
go into the bundle of the header, and every bundle is read when it is there. A reader the header is
written for gets the packets.

Behind the header, `mam_api_bundle_read` looks for the packet in the transaction after the one that
the header ends in: `msg.d / NUM_TRITS_MESSAGE + 1`. A header that ends where its last transaction
ends has got past that transaction already, so the first of the packet's is passed over.
-/

namespace Entangled

namespace Mam

open Spongos

variable {M : MerkleMode}

/-- A packet to be written. -/
structure Outgoing where
  payload : List Trit
  checksum : Checksum

/-- The call that writes it, with all the memory there is. -/
def Outgoing.call (p : Outgoing) (now : ℕ) (msgId : List Trit) (isLastPacket : Bool)
    (bundle : List Transaction) : WriteCall where
  now := now
  args := true
  msgId := msgId
  payload := p.payload
  checksum := p.checksum
  isLastPacket := isLastPacket
  alloc := fun _ => true
  bundle := bundle

section Defs

variable (T : Troika) (N : Ntru)

/-- `mam_api_bundle_read`, of a bundle. -/
def Api.readBundle (rd : Api M) : List Transaction → Except Error (Option Packet) × Api M
  | [] => (.ok none, rd)
  | tx :: txs => rd.read T N ⟨tx, txs, fun _ => true⟩

/-- Packets written and read one after the other: what the writer and the reader return. -/
def exchange (now : ℕ) (msgId : List Trit) :
    Api M → Api M → List Outgoing → List (Except Error Unit × Except Error (Option Packet))
  | _, _, [] => []
  | api, rd, p :: ps =>
    let (ret, api, bundle) := api.write T (p.call now msgId ps.isEmpty [])
    let (packet, rd) := rd.readBundle T N bundle
    (ret, packet) :: exchange now msgId api rd ps

/-- A message written and read: the header, alone or together with the first packet, and the packets
behind. -/
def message (together : Bool) (api rd : Api M) (h : HeaderCall) (ps : List Outgoing) :
    List (Except Error Unit × Except Error (Option Packet)) :=
  match api.writeHeader T N h with
  | (.error e, _, _) => [(.error e, .ok none)]
  | (.ok msgId, api, bundle) =>
    match together, ps with
    | true, p :: ps =>
      let (ret, api, bundle) := api.write T (p.call h.now msgId ps.isEmpty bundle)
      let (packet, rd) := rd.readBundle T N bundle
      (ret, packet) :: exchange T N h.now msgId api rd ps
    | _, ps =>
      let (packet, rd) := rd.readBundle T N bundle
      (.ok (), packet) :: exchange T N h.now msgId api rd ps

/-- The keys that are left for the packets of a message, behind its header. -/
def keysLeft (api : Api M) (h : HeaderCall) : ℕ :=
  match api.writeHeader T N h with
  | (.error _, _, _) => 0
  | (.ok msgId, api, _) =>
    match api.findWrite msgId with
    | none => 0
    | some (_, m) => mssRemainingSks m

/-- Packets whose sizes can be told. -/
def Outgoing.Tellable (p : Outgoing) : Prop :=
  3 ∣ p.payload.length ∧ p.payload.length / 3 ≤ tritsSizeMax

/-- How many of the packets are signed. -/
def signed (ps : List Outgoing) : ℕ := ps.countP fun p => p.checksum = .sig

/-- Packets that can be sent: of sizes and in a number that can be told, with a key for each that is
signed. -/
structure Sendable (api : Api M) (h : HeaderCall) (ps : List Outgoing) : Prop where
  tellable : ∀ p ∈ ps, p.Tellable
  count : (ps.length : ℤ) ≤ maxOrd
  keys : signed ps ≤ keysLeft T N api h

end Defs

/-- **What packets should be read as.** -/
def received : List Outgoing → List (Except Error Unit × Except Error (Option Packet))
  | [] => []
  | p :: ps => (.ok (), .ok (some ⟨p.payload, ps.isEmpty⟩)) :: received ps

/-- **What a message should be read as.** -/
def receivedMessage (together : Bool) (ps : List Outgoing) :
    List (Except Error Unit × Except Error (Option Packet)) :=
  if together ∧ ps ≠ [] then received ps else (.ok (), .ok none) :: received ps

variable {T : Troika} {N : Ntru}

/-! ## Packets -/

section Packets

variable {api rd : Api M} {ctx : WriteContext} {m : Mss M} {msgId : List Trit}

theorem signed_cons (p : Outgoing) (ps : List Outgoing) :
    signed (p :: ps) = signed ps + if p.checksum = .sig then 1 else 0 := by
  unfold signed
  rw [List.countP_cons]
  simp only [decide_eq_true_eq]

/-- There is a key for a packet, and keys for the others are left behind it. -/
theorem keys_cons {p : Outgoing} {ps : List Outgoing}
    (hkeys : signed (p :: ps) ≤ mssRemainingSks m) :
    (p.checksum = .sig → mssRemainingSks m ≠ 0) ∧
      signed ps ≤ mssRemainingSks (mssAfter T m p.checksum) := by
  rw [signed_cons] at hkeys
  cases hsum : p.checksum with
  | none =>
    rw [hsum] at hkeys
    exact ⟨fun h => (nomatch h), hkeys⟩
  | mac =>
    rw [hsum] at hkeys
    exact ⟨fun h => (nomatch h), hkeys⟩
  | sig =>
    rw [hsum, if_pos rfl] at hkeys
    have hleft : mssRemainingSks m ≠ 0 := by omega
    refine ⟨fun _ => hleft, ?_⟩
    have hskn := skn_mssNext (T := T) hleft
    rw [mssRemainingSks_eq] at hkeys
    show signed ps ≤ mssRemainingSks (mssNext T m)
    rw [mssRemainingSks_eq, height_mssNext, hskn]
    omega

/-- **The packets get to a reader that follows.** -/
theorem exchange_eq (now : ℕ) (hlen : msgId.length = msgIdSize) {ps : List Outgoing}
    (hfollow : ps ≠ [] → Following T api rd msgId ctx m) (htell : ∀ p ∈ ps, p.Tellable)
    (hcount : ctx.ord + ps.length ≤ maxOrd + 1) (hkeys : signed ps ≤ mssRemainingSks m) :
    exchange T N now msgId api rd ps = received ps := by
  induction ps generalizing api rd ctx m with
  | nil => rfl
  | cons p ps ih =>
    have hfollow := hfollow (List.cons_ne_nil _ _)
    obtain ⟨hleft, hrest⟩ := keys_cons (T := T) hkeys
    rw [List.length_cons, Nat.cast_succ] at hcount
    have hw : Writable api (p.call now msgId ps.isEmpty []) ctx m :=
      ⟨rfl, hfollow.writing, rfl, rfl⟩
    have htold := htell p List.mem_cons_self
    obtain ⟨tx, txs, hbundle, hread⟩ := hfollow.delivered (N := N) rfl hlen hw hleft
      ⟨rfl, htold.1, htold.2⟩ (by omega)
    obtain ⟨hpacket, hnext⟩ := hread (fun _ => true) rfl
    have hok : (api.write T (p.call now msgId ps.isEmpty [])).1 = .ok () := by
      rw [write_ok hw hleft]
    rw [exchange, received]
    dsimp only
    rw [hok, hbundle, Api.readBundle, hpacket]
    refine congrArg _ ?_
    by_cases hps : ps = []
    · rw [hps]
      rfl
    · obtain ⟨ctx', hord, hfollow'⟩ := hnext (by simpa [Outgoing.call] using hps)
      exact ih (fun _ => hfollow') (fun q hq => htell q (List.mem_cons_of_mem _ hq)) (by omega)
        hrest

end Packets

/-! ## The bundle of a header and a packet -/

theorem numParts_pos {n : ℕ} (hn : 0 < n) : 0 < numParts n := by
  unfold numParts numTritsMessage
  omega

/-- A header and a packet in one bundle. -/
theorem bundleWrap_behind (now : ℕ) (address tag₀ tag packet : List Trit) {header : List Trit}
    (hheader : header ≠ []) :
    ∃ tx txs, bundleWrap now address tag packet (bundleWrap now address tag₀ header []) =
        tx :: txs ∧ tx.tag = tag₀ ∧ tx.address = address ∧
      bundleUnwrap (tx :: txs) =
        (header ++ List.replicate (fill header.length) .zero) ++
          (packet ++ List.replicate (fill packet.length) .zero) ∧
      (tx :: txs).length = numParts header.length + numParts packet.length ∧
      ∀ i, i < numParts packet.length →
        ∃ tx', (tx :: txs)[numParts header.length + i]? = some tx' ∧ tx'.tag = tag := by
  obtain ⟨n, hn⟩ : ∃ n, numParts header.length = n + 1 :=
    Nat.exists_eq_succ_of_ne_zero (numParts_pos (List.length_pos_iff.mpr hheader)).ne'
  have htags := map_tag_bundleWrap now address tag packet (bundleWrap now address tag₀ header [])
  have haddresses :=
    map_address_bundleWrap now address tag packet (bundleWrap now address tag₀ header [])
  have hlen := length_bundleWrap now address tag packet (bundleWrap now address tag₀ header [])
  have hmsg :=
    bundleUnwrap_bundleWrap now address tag packet (bundleWrap now address tag₀ header [])
  rw [bundleUnwrap_bundleWrap now address tag₀ header []] at hmsg
  rw [length_bundleWrap now address tag₀ header [], List.length_nil, Nat.zero_add] at hlen
  rw [map_tag_bundleWrap now address tag₀ header [], List.map_nil, List.nil_append] at htags
  rw [map_address_bundleWrap now address tag₀ header [], List.map_nil, List.nil_append, hn]
    at haddresses
  generalize bundleWrap now address tag packet (bundleWrap now address tag₀ header []) = bundle
    at htags haddresses hlen hmsg ⊢
  have hat : ∀ i, i < numParts packet.length →
      ∃ tx', bundle[numParts header.length + i]? = some tx' ∧ tx'.tag = tag := by
    intro i hi
    have hget := congrArg (·[numParts header.length + i]?) htags
    rw [List.getElem?_append_right (by rw [List.length_replicate]; omega), List.length_replicate,
      Nat.add_sub_cancel_left, List.getElem?_replicate, if_pos hi, List.getElem?_map] at hget
    exact Option.map_eq_some_iff.mp hget
  cases bundle with
  | nil =>
    rw [hn] at htags
    exact nomatch htags
  | cons tx txs =>
    rw [hn] at htags
    exact ⟨tx, txs, rfl, (List.cons.inj htags).1, (List.cons.inj haddresses).1, hmsg, hlen, hat⟩

/-! ## Messages -/

/-- A header that can be written on the channel at `i`, for the reader. -/
structure Addressed (T : Troika) (N : Ntru) (api rd : Api M) (h : HeaderCall) (i : ℕ)
    (j k l : Option ℕ) (ch : Channel M) : Prop where
  sound : api.Sound T
  places : Places api h i j k l ch
  memory : h.alloc 0 = true ∧ h.alloc 1 = true
  fits : (h.args T api j k l ch).Fits
  announce : CanAnnounce ch (h.args T api j k l ch).ch1 (h.args T api j k l ch).ep1
  receives : Receives N rd (h.args T api j k l ch)

section Messages

variable {api rd : Api M} {h : HeaderCall} {i : ℕ} {j k l : Option ℕ} {ch : Channel M}

theorem Addressed.header (haddr : Addressed T N api rd h i j k l ch) :
    (h.args T api j k l ch).Sound T where
  fits := haddr.fits
  channel := (haddr.sound ch (List.mem_of_getElem? haddr.places.channel)).mss
  speaker := haddr.sound.mss (mss_speakerRef haddr.places)
  announce := haddr.announce
  msgId := length_msgIdOf ch

theorem header_pos (a : HeaderArgs M) : 0 < msgHeaderSize a := by
  unfold msgHeaderSize
  omega

/-- **The header is written**, and there are keys for the packets. -/
theorem Addressed.written (haddr : Addressed T N api rd h i j k l ch) :
    ∃ api' m', api.writeHeader T N h = (.ok (msgIdOf T ch), api',
        bundleWrap h.now ch.mss.root (writeTag (msgIdOf T ch) 0)
          ((h.args T api j k l ch).header T N).cells []) ∧
      api'.findWrite (msgIdOf T ch) =
        some ((h.args T api j k l ch).context T N (speakerRef i j k l), m') ∧
      m'.root = (h.args T api j k l ch).speaker.root ∧ m'.Sound T ∧
      keysLeft T N api h = mssRemainingSks m' := by
  obtain ⟨api', m', hwrite, hfound, hroot, hm, -⟩ :=
    writeHeader_ok (N := N) haddr.sound haddr.places haddr.announce haddr.memory
  refine ⟨api', m', hwrite, hfound, hroot, hm, ?_⟩
  rw [keysLeft, hwrite]
  dsimp only
  rw [hfound]

theorem Addressed.header_ne_nil (haddr : Addressed T N api rd h i j k l ch) :
    ((h.args T api j k l ch).header T N).cells ≠ [] := by
  rw [← List.length_pos_iff, length_header haddr.header]
  exact header_pos _

/-- **The header by itself** is read, and the packets behind it. -/
theorem message_alone (haddr : Addressed T N api rd h i j k l ch) {together : Bool}
    {ps : List Outgoing} (halone : together = false ∨ ps = []) (hsend : Sendable T N api h ps) :
    message T N together api rd h ps = (.ok (), .ok none) :: received ps := by
  have ha := haddr.header
  obtain ⟨api', m', hwrite, hfound, hroot, hm, hkeys⟩ := haddr.written
  obtain ⟨tx, txs, hbundle, htag, haddress, hmsg⟩ := bundleWrap_alone h.now ch.mss.root
    (writeTag (msgIdOf T ch) 0) haddr.header_ne_nil
  have hcount : (tx :: txs).length ≤
      msgHeaderSize (h.args T api j k l ch) / numTritsMessage + 1 := by
    rw [← hbundle, length_bundleWrap, List.length_nil, Nat.zero_add, length_header ha]
    exact numParts_le _
  obtain ⟨hread, hctx⟩ := read_header_alone (r := ⟨tx, txs, fun _ => true⟩) ha haddr.receives htag
    haddress hmsg hcount rfl
  have hfollow : Following T api' (rd.read T N ⟨tx, txs, fun _ => true⟩).2 (msgIdOf T ch)
      ((h.args T api j k l ch).context T N (speakerRef i j k l)) m' := by
    refine ⟨hfound, ?_, hm, Int.one_pos⟩
    rw [hroot]
    exact hctx
  have hexchange := exchange_eq h.now (N := N) ha.msgId (fun _ : ps ≠ [] => hfollow)
    hsend.tellable (by have := hsend.count; simp only [HeaderArgs.context]; omega)
    (hkeys ▸ hsend.keys)
  have hboth : message T N together api rd h ps =
      (.ok (), ((rd.readBundle T N (tx :: txs)).1)) ::
        exchange T N h.now (msgIdOf T ch) api' (rd.readBundle T N (tx :: txs)).2 ps := by
    rw [message, hwrite, hbundle]
    rcases halone with rfl | rfl
    · rfl
    · cases together <;> rfl
  rw [hboth]
  change (_, (rd.read T N ⟨tx, txs, fun _ => true⟩).1) :: exchange T N h.now (msgIdOf T ch) api'
    (rd.read T N ⟨tx, txs, fun _ => true⟩).2 ps = _
  rw [hread]
  exact congrArg _ hexchange

/-- What is behind a header that does not end with its transaction. -/
theorem behind_header {n : ℕ} (hn : ¬ numTritsMessage ∣ n) :
    n / numTritsMessage + 1 = numParts n + 0 ∧
      n + (numTritsMessage - n % numTritsMessage) = n + fill n := by
  unfold numParts fill numTritsMessage at *
  omega

/-- **The header and the first packet in one bundle** are read, if the header does not end with its
last transaction. -/
theorem message_together (haddr : Addressed T N api rd h i j k l ch) {p : Outgoing}
    {ps : List Outgoing} (hsend : Sendable T N api h (p :: ps))
    (hn : ¬ numTritsMessage ∣ msgHeaderSize (h.args T api j k l ch)) :
    message T N true api rd h (p :: ps) = received (p :: ps) := by
  have ha := haddr.header
  obtain ⟨api', m', hwrite, hfound, hroot, hm, hkeys⟩ := haddr.written
  obtain ⟨hleft, hrest⟩ := keys_cons (T := T) (hkeys ▸ hsend.keys)
  obtain ⟨h3, hsize⟩ := hsend.tellable p List.mem_cons_self
  have hcount := hsend.count
  rw [List.length_cons, Nat.cast_succ] at hcount
  have hlen := length_header (N := N) ha
  generalize hctx : (h.args T api j k l ch).context T N (speakerRef i j k l) = ctx at hfound
  -- the packet is written into the bundle of the header
  have hmessage : ∀ c, c = p.call h.now (msgIdOf T ch) ps.isEmpty (bundleWrap h.now ch.mss.root
      (writeTag (msgIdOf T ch) 0) ((h.args T api j k l ch).header T N).cells []) →
      message T N true api rd h (p :: ps) =
        ((api'.write T c).1, (rd.readBundle T N (api'.write T c).2.2).1) ::
          exchange T N h.now (msgIdOf T ch) (api'.write T c).2.1
            (rd.readBundle T N (api'.write T c).2.2).2 ps := by
    rintro c rfl
    rw [message, hwrite]
  obtain ⟨c, hc⟩ : ∃ c, c = p.call h.now (msgIdOf T ch) ps.isEmpty (bundleWrap h.now ch.mss.root
      (writeTag (msgIdOf T ch) 0) ((h.args T api j k l ch).header T N).cells []) := ⟨_, rfl⟩
  have hw : Writable api' c ctx m' := by
    rw [hc]
    exact ⟨rfl, hfound, rfl, rfl⟩
  have hpayload : c.payload = p.payload := by rw [hc]; rfl
  have hchecksum : c.checksum = p.checksum := by rw [hc]; rfl
  have hlast : c.isLastPacket = ps.isEmpty := by rw [hc]; rfl
  have hid : c.msgId = msgIdOf T ch := by rw [hc]; rfl
  rw [← hchecksum] at hleft hrest
  rw [← hpayload] at h3 hsize
  obtain ⟨tx, txs, hbundle, htag, haddress, hmsg, -, hat⟩ := bundleWrap_behind h.now ch.mss.root
    (writeTag (msgIdOf T ch) 0) (writeTag (msgIdOf T ch) (c.ord ctx))
    (c.packet T ctx m').cells haddr.header_ne_nil
  obtain ⟨hindex, hdrop⟩ := behind_header hn
  obtain ⟨tx', htx', htag'⟩ := hat 0 (numParts_pos (List.length_pos_iff.mpr
    (packet_ne_nil ctx hm hleft h3 hsize)))
  rw [hlen, ← hindex] at htx'
  rw [← hctx] at htag'
  have hbehind : (bundleUnwrap (tx :: txs)).drop (msgHeaderSize (h.args T api j k l ch) +
      (numTritsMessage - msgHeaderSize (h.args T api j k l ch) % numTritsMessage)) =
      (c.packet T ctx m').cells ++ List.replicate (fill (c.packet T ctx m').cells.length) .zero := by
    rw [hdrop, hmsg, hlen]
    refine List.drop_left' ?_
    rw [List.length_append, List.length_replicate, hlen]
  obtain ⟨hread, hnext⟩ := read_header_packet (r := ⟨tx, txs, fun _ => true⟩) ha haddr.receives htag
    haddress (hmsg.trans (List.append_assoc _ _ _)) hm hroot hleft h3 hsize htx' htag'
    (by rw [hctx]; exact hbehind) ⟨rfl, rfl⟩
  have hwritten : (api'.write T c).1 = .ok () ∧ (api'.write T c).2.2 = tx :: txs := by
    rw [write_ok hw hleft, ← hbundle, hid, hc, ← hctx]
    exact ⟨rfl, rfl⟩
  have hord : ctx.ord = 1 := by rw [← hctx]; rfl
  -- after this packet both sides stand where the next one starts
  have hfollow : ps ≠ [] → Following T (api'.write T c).2.1
      (rd.read T N ⟨tx, txs, fun _ => true⟩).2 (msgIdOf T ch)
      { ctx with spongos := (c.packet T ctx m').state, ord := ctx.ord + 1 }
      (mssAfter T m' c.checksum) := by
    intro hps
    have hmore : c.isLastPacket = false := by rw [hlast]; simpa using hps
    refine following_write hid hw hm (by rw [hord]; decide) hleft hmore ?_
    rw [hord, ← hctx]
    exact hnext hmore
  have hexchange := exchange_eq h.now (N := N) ha.msgId hfollow
    (fun q hq => hsend.tellable q (List.mem_cons_of_mem _ hq)) (by dsimp only; omega) hrest
  rw [hmessage c hc, hwritten.1, hwritten.2, received]
  change (_, (rd.read T N ⟨tx, txs, fun _ => true⟩).1) :: exchange T N h.now (msgIdOf T ch) _
    (rd.read T N ⟨tx, txs, fun _ => true⟩).2 ps = _
  rw [hread, hpayload, hlast]
  exact congrArg _ hexchange

/-- **The first packet behind a header that ends with its last transaction** is passed over, if it
takes no more than a transaction. -/
theorem message_filled (haddr : Addressed T N api rd h i j k l ch)
    (hn : numTritsMessage ∣ msgHeaderSize (h.args T api j k l ch)) :
    (message T N true api rd h [⟨[], .none⟩]).map Prod.snd = [.ok none] := by
  have ha := haddr.header
  obtain ⟨api', m', hwrite, hfound, hroot, hm, hkeys⟩ := haddr.written
  obtain ⟨c, hc⟩ : ∃ c, c = (⟨[], .none⟩ : Outgoing).call h.now (msgIdOf T ch) true (bundleWrap h.now
      ch.mss.root (writeTag (msgIdOf T ch) 0) ((h.args T api j k l ch).header T N).cells []) :=
    ⟨_, rfl⟩
  obtain ⟨ctx, hctx⟩ : ∃ ctx, ctx = (h.args T api j k l ch).context T N (speakerRef i j k l) :=
    ⟨_, rfl⟩
  have hw : Writable api' c ctx m' := by
    rw [hc, hctx]
    exact ⟨rfl, hfound, rfl, rfl⟩
  have hchecksum : c.checksum = .none := by rw [hc]; rfl
  have hpayload : c.payload = [] := by rw [hc]; rfl
  have hleft : c.checksum = .sig → mssRemainingSks m' ≠ 0 := by
    rw [hchecksum]
    exact fun h => (nomatch h)
  have hsize : (c.packet T ctx m').cells.length = 6 := by
    have h3 : 3 ∣ c.payload.length := by rw [hpayload]; exact dvd_zero _
    have hshort : c.payload.length / 3 ≤ tritsSizeMax := by rw [hpayload]; exact Nat.zero_le _
    have hwrites := writes_packet hm hleft h3 hshort (c.ord ctx) ⟨ctx.spongos, []⟩
    rw [WriteCall.packet, hwrites, hchecksum, hpayload]
    show 0 + (sizeofSizeT 0 + pb3SizeofNtrytes 0 + 3 + 0) = 6
    decide
  obtain ⟨tx, txs, hbundle, htag, haddress, hmsg, hcount, -⟩ := bundleWrap_behind h.now ch.mss.root
    (writeTag (msgIdOf T ch) 0) (writeTag (msgIdOf T ch) (c.ord ctx))
    (c.packet T ctx m').cells haddr.header_ne_nil
  have hshort : (tx :: txs).length ≤
      msgHeaderSize (h.args T api j k l ch) / numTritsMessage + 1 := by
    rw [hcount, length_header ha, hsize]
    unfold numParts numTritsMessage at *
    omega
  obtain ⟨hread, -⟩ := read_header_alone (r := ⟨tx, txs, fun _ => true⟩) ha haddr.receives htag
    haddress (hmsg.trans (List.append_assoc _ _ _)) hshort rfl
  have hwritten : (api'.write T c).2.2 = tx :: txs := by
    rw [write_ok hw hleft, ← hbundle, hctx, hc]
    rfl
  have hmessage : message T N true api rd h [⟨[], .none⟩] =
      [((api'.write T c).1, (rd.readBundle T N (api'.write T c).2.2).1)] := by
    rw [message, hwrite, hc]
    rfl
  rw [hmessage, hwritten]
  exact congrArg (fun packet => [packet]) hread

end Messages

/-- **Exactly when the header does not end with its last transaction, or goes into a bundle of its
own**, every list of packets is read as it was written. -/
theorem message_round_trip {ok : Api M → Call → Prop} {api : Api M} (hreached : Reached T N ok api)
    {rd : Api M} {h : HeaderCall} {i : ℕ} {j k l : Option ℕ} {ch : Channel M}
    (hfound : headerArgs api h.chId h.epId h.ch1Id h.ep1Id = .ok (i, j, k, l))
    (hch : api.channels[i]? = some ch) (halloc : h.alloc 0 = true ∧ h.alloc 1 = true)
    (hfits : (h.args T api j k l ch).Fits)
    (hkey : CanAnnounce ch (h.args T api j k l ch).ch1 (h.args T api j k l ch).ep1)
    (hreceives : Receives N rd (h.args T api j k l ch)) (together : Bool) :
    (∀ ps, Sendable T N api h ps →
        message T N together api rd h ps = receivedMessage together ps) ↔
      ¬ (together = true ∧ numTritsMessage ∣ msgHeaderSize (h.args T api j k l ch)) := by
  have haddr : Addressed T N api rd h i j k l ch := by
    obtain ⟨ch', hplaces⟩ := places_of_headerArgs hfound
    obtain rfl := Option.some.inj (hplaces.channel.symm.trans hch)
    exact ⟨hreached.sound, hplaces, halloc, hfits, hkey, hreceives⟩
  constructor
  · rintro hread ⟨rfl, hn⟩
    have hsend : Sendable T N api h [⟨[], .none⟩] :=
      ⟨fun p hp => by
        obtain rfl := List.mem_singleton.mp hp
        exact ⟨dvd_zero _, Nat.zero_le _⟩, by decide, Nat.zero_le _⟩
    have hnone := message_filled haddr hn
    rw [hread _ hsend] at hnone
    exact nomatch hnone
  · intro hn ps hsend
    by_cases halone : together = false ∨ ps = []
    · rw [message_alone haddr halone hsend, receivedMessage, if_neg]
      rintro ⟨htogether, hps⟩
      rcases halone with h | h
      · exact absurd htogether (by rw [h]; decide)
      · exact hps h
    · rw [not_or, Bool.not_eq_false] at halone
      obtain ⟨rfl, hps⟩ := halone
      rw [receivedMessage, if_pos ⟨rfl, hps⟩]
      cases ps with
      | nil => exact absurd rfl hps
      | cons p ps => exact message_together haddr hsend fun hdvd => hn ⟨rfl, hdvd⟩

/-! ## A header that fills its transactions -/

namespace Filled

open Forged (prng)

/-- The channel of a node with nothing else. -/
def channel (height : ℕ) : Channel classic := channelCreate Forged.T prng height (put18 0)

/-- The node. -/
def writer (height : ℕ) : Api classic :=
  (Api.init prng).call Forged.T Forged.N (.channelCreate height fun _ => true)

theorem reached_writer (height : ℕ) : Reached Forged.T Forged.N (fun _ _ => True) (writer height) :=
  .call (.init prng) trivial

theorem channels_writer {height : ℕ} (hheight : height ≤ mssMaxD) :
    (writer height).channels = [channel height] := by
  show (apiChannelCreate Forged.T (Api.init prng) height fun _ => true).2.channels = _
  unfold apiChannelCreate
  rw [if_neg (not_lt.mpr hheight), if_neg (by decide)]
  dsimp only
  rw [if_neg fun h => (nomatch h.1)]
  rfl

def psk : Psk :=
  ⟨List.replicate 81 .zero, List.replicate 243 .zero, List.length_replicate, List.length_replicate⟩

/-- A public key for each number. -/
def publicKey (i : ℕ) : List Trit := put9 i ++ List.replicate 9207 .zero

/-- A header that announces the channel itself, to the holder of one key and nine others. -/
def announcement : HeaderCall where
  now := 0
  chId := (channel 4).mss.root
  epId := none
  ch1Id := some (channel 4).mss.root
  ep1Id := none
  psks := [psk]
  ntruPks := (List.range 9).map publicKey
  msgTypeId := 0
  alloc := fun _ => true

/-- A header for everyone. -/
def greeting : HeaderCall where
  now := 0
  chId := (channel 0).mss.root
  epId := none
  ch1Id := none
  ep1Id := none
  psks := []
  ntruPks := []
  msgTypeId := 0
  alloc := fun _ => true

/-- A reader that trusts the channel and has the key. -/
def reader (height : ℕ) : Api classic :=
  ((Api.init prng).call Forged.T Forged.N (.addTrustedChannelPk (channel height).mss.root true)).call Forged.T Forged.N
    (.addPsk psk true)

theorem trusted_reader (height : ℕ) :
    (reader height).trusted = ⟨[(channel height).mss.root], []⟩ := by
  show (apiAddPsk (apiAddTrustedChannelPk (Api.init prng) _ true) psk true).trusted = _
  unfold apiAddPsk
  rw [if_neg (fun h => h.elim (fun h => absurd h List.not_mem_nil) (fun h => nomatch h))]
  show (⟨pkSetAdd true [] (channel height).mss.root, []⟩ : Trusted) = _
  rw [pkSetAdd, if_neg List.not_mem_nil, if_pos rfl, List.nil_append]

theorem psks_reader (height : ℕ) : (reader height).psks = [psk] := by
  show (apiAddPsk (apiAddTrustedChannelPk (Api.init prng) _ true) psk true).psks = _
  unfold apiAddPsk
  rw [if_neg (fun h => h.elim (fun h => absurd h List.not_mem_nil) (fun h => nomatch h))]
  rfl

theorem headerArgs_announcement :
    headerArgs (writer 4) announcement.chId announcement.epId announcement.ch1Id
      announcement.ep1Id = .ok (0, none, some 0, none) := by
  have hget : (writer 4).channelGet (channel 4).mss.root = some 0 := by
    rw [Api.channelGet, channels_writer (by decide)]
    simp
  show headerArgs (writer 4) (channel 4).mss.root none (some (channel 4).mss.root) none = _
  have hplace : placeOf .channelNotFound (writer 4).channelGet (some (channel 4).mss.root) =
      .ok (some 0) := by
    rw [placeOf, hget]
  rw [headerArgs, hget]
  dsimp only
  rw [hplace]
  rfl

theorem channels_first : (writer 0).channels[0]? = some (channel 0) := by
  rw [channels_writer (by decide)]
  rfl

theorem headerArgs_greeting :
    headerArgs (writer 0) greeting.chId greeting.epId greeting.ch1Id greeting.ep1Id =
      .ok (0, none, none, none) := by
  have hget : (writer 0).channelGet (channel 0).mss.root = some 0 := by
    rw [Api.channelGet, channels_writer (by decide)]
    simp
  show headerArgs (writer 0) (channel 0).mss.root none none none = _
  rw [headerArgs, hget]
  rfl

/-- What the announcement is written with. -/
def announced : HeaderArgs classic :=
  ⟨prng, channel 4, none, some (channel 4), none, msgIdOf Forged.T (channel 4), 0, [psk],
    (List.range 9).map publicKey⟩

theorem args_announcement :
    announcement.args Forged.T (writer 4) none (some 0) none (channel 4) = announced := by
  have hchannel : (writer 4).channels[0]? = some (channel 4) := by
    rw [channels_writer (by decide)]
    rfl
  show HeaderArgs.mk _ _ _ (writer 4).channels[0]? _ _ _ _ _ = _
  rw [hchannel]
  rfl

/-- What the greeting is written with. -/
def greeted : HeaderArgs classic :=
  ⟨prng, channel 0, none, none, none, msgIdOf Forged.T (channel 0), 0, [], []⟩

theorem args_greeting :
    greeting.args Forged.T (writer 0) none none none (channel 0) = greeted := rfl

theorem length_publicKey : ∀ pk ∈ (List.range 9).map publicKey, pk.length = 9216 := by
  intro pk hpk
  obtain ⟨i, -, rfl⟩ := List.mem_map.mp hpk
  rw [publicKey, List.length_append, length_put9, List.length_replicate]

/-- The one key of the reader is one of those the announcement is for. -/
theorem receives_announcement : Receives Forged.N (reader 4) announced where
  trusts := by
    rw [trusted_reader]
    exact ⟨List.mem_singleton_self _, fun h => nomatch h⟩
  recipient := by
    rw [psks_reader]
    refine ⟨fun p hp q hq _ => ?_, fun pk _ sk hsk => absurd hsk List.not_mem_nil,
      .inr (.inl ⟨psk, List.mem_singleton_self _, List.mem_singleton_self _⟩)⟩
    exact (List.mem_singleton.mp hq).trans (List.mem_singleton.mp hp).symm
  unknown := rfl

theorem receives_greeting : Receives Forged.N (reader 0) greeted where
  trusts := by
    rw [trusted_reader]
    exact ⟨List.mem_singleton_self _, fun _ _ e he => nomatch he⟩
  recipient := ⟨fun p hp => absurd hp List.not_mem_nil, fun p hp => absurd hp List.not_mem_nil,
    .inl ⟨rfl, rfl⟩⟩
  unknown := rfl

theorem canAnnounce : CanAnnounce (channel 4) (some (channel 4)) none := by
  intro _
  rw [mssRemainingSks_eq]
  show 2 ^ 4 - 0 ≠ 0
  decide

/-- **The announcement ends with its fifteenth transaction.** -/
theorem size_announced : numTritsMessage ∣ msgHeaderSize announced := by
  refine ⟨15, ?_⟩
  show 3 + 3 + msgWrapSignedidSize 4 + 9 + (3 + msgWrapKeyloadPskSize) * 1 +
    (3 + msgWrapKeyloadNtruSize) * ((List.range 9).map publicKey).length +
    sizeofSizeT (1 + ((List.range 9).map publicKey).length) = _
  rw [List.length_map, List.length_range]
  decide

end Filled

/-- An empty packet behind a header for everyone. -/
theorem message_round_trip_greeting :
    message Forged.T Forged.N false (Filled.writer 0) (Filled.reader 0) Filled.greeting
        [⟨[], .none⟩] =
      [(.ok (), .ok none), (.ok (), .ok (some ⟨[], true⟩))] :=
  (message_round_trip (Filled.reached_writer 0) Filled.headerArgs_greeting
    Filled.channels_first ⟨rfl, rfl⟩
    ⟨by decide, by decide, fun pk hpk => absurd hpk List.not_mem_nil⟩
    (fun h => h.elim (fun h => absurd rfl h) (fun h => absurd rfl h)) Filled.receives_greeting
    false).mpr (fun h => nomatch h.1) [⟨[], .none⟩]
    ⟨fun p hp => by
      obtain rfl := List.mem_singleton.mp hp
      exact ⟨dvd_zero _, Nat.zero_le _⟩, by decide, Nat.zero_le _⟩

/-- **A packet behind a header that ends with its transaction** is not read. -/
theorem not_message_round_trip_filled :
    ¬ ∀ (M : MerkleMode) (T : Troika) (N : Ntru) (api rd : Api M) (h : HeaderCall) (i : ℕ)
      (j k l : Option ℕ) (ch : Channel M), Reached T N (fun _ _ => True) api →
      headerArgs api h.chId h.epId h.ch1Id h.ep1Id = .ok (i, j, k, l) →
      api.channels[i]? = some ch → h.alloc 0 = true ∧ h.alloc 1 = true →
      (h.args T api j k l ch).Fits →
      CanAnnounce ch (h.args T api j k l ch).ch1 (h.args T api j k l ch).ep1 →
      Receives N rd (h.args T api j k l ch) →
      ∀ together ps, Sendable T N api h ps →
        message T N together api rd h ps = receivedMessage together ps := by
  intro hall
  have hch : (Filled.writer 4).channels[0]? = some (Filled.channel 4) := by
    rw [Filled.channels_writer (by decide)]
    rfl
  have hargs := Filled.args_announcement
  have hfits : (Filled.announcement.args Forged.T (Filled.writer 4) none (some 0) none
      (Filled.channel 4)).Fits := by
    rw [hargs]
    exact ⟨by decide, by decide, Filled.length_publicKey⟩
  have hreceives : Receives Forged.N (Filled.reader 4) (Filled.announcement.args Forged.T
      (Filled.writer 4) none (some 0) none (Filled.channel 4)) := by
    rw [hargs]
    exact Filled.receives_announcement
  have hkey : CanAnnounce (Filled.channel 4) (Filled.announcement.args Forged.T (Filled.writer 4)
      none (some 0) none (Filled.channel 4)).ch1 (Filled.announcement.args Forged.T
      (Filled.writer 4) none (some 0) none (Filled.channel 4)).ep1 := by
    rw [hargs]
    exact Filled.canAnnounce
  obtain ⟨ch, hplaces⟩ := places_of_headerArgs Filled.headerArgs_announcement
  obtain rfl := Option.some.inj (hplaces.channel.symm.trans hch)
  have hnone := message_filled
    ⟨(Filled.reached_writer 4).sound, hplaces, ⟨rfl, rfl⟩, hfits, hkey, hreceives⟩
    (by rw [hargs]; exact Filled.size_announced)
  rw [hall classic Forged.T Forged.N (Filled.writer 4) (Filled.reader 4) Filled.announcement 0 none
    (some 0) none _ (Filled.reached_writer 4) Filled.headerArgs_announcement hch ⟨rfl, rfl⟩ hfits
    hkey hreceives true [⟨[], .none⟩]
    ⟨fun p hp => by
      obtain rfl := List.mem_singleton.mp hp
      exact ⟨dvd_zero _, Nat.zero_le _⟩, by decide, Nat.zero_le _⟩] at hnone
  exact nomatch hnone

end Mam

end Entangled
