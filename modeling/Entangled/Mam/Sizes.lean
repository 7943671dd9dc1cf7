import Entangled.Mam.Replays
/-!
# The sizes of messages

`mam_msg_header_size` and `mam_msg_packet_size` say how much room is made for a header and for a
packet before they are written. They are written into exactly that.
-/

namespace Entangled

namespace Mam

open Spongos

variable {M : MerkleMode}

/-- `mam_msg_wrap_mac_size`. -/
def msgWrapMacSize : ℕ := pb3SizeofNtrytes 81

/-- `mam_msg_wrap_mssig_size`, of the height of the key tree. -/
def msgWrapMssigSize (height : ℕ) : ℕ :=
  let sz := mssSigSize height / 3
  sizeofSizeT sz + pb3SizeofNtrytes sz

/-- `mam_msg_wrap_signedid_size`. -/
def msgWrapSignedidSize (height : ℕ) : ℕ := pb3SizeofNtrytes 81 + msgWrapMssigSize height

/-- `mam_msg_wrap_keyload_psk_size`. -/
def msgWrapKeyloadPskSize : ℕ := pb3SizeofNtrytes 27 + pb3SizeofNtrytes 81

/-- `mam_msg_wrap_keyload_ntru_size`. -/
def msgWrapKeyloadNtruSize : ℕ := pb3SizeofNtrytes 27 + pb3SizeofNtrytes 3072

/-- What of the size goes to who speaks. -/
def msgPubkeySize (height : ℕ) (ep : Option (Endpoint M)) (ch1 : Option (Channel M))
    (ep1 : Option (Endpoint M)) : ℕ :=
  match ch1, ep1, ep with
  | some _, _, _ => msgWrapSignedidSize height
  | none, some _, _ => msgWrapSignedidSize height
  | none, none, some _ => pb3SizeofNtrytes 81
  | none, none, none => 0

/-- `mam_msg_header_size`. -/
def msgHeaderSize (a : HeaderArgs M) : ℕ :=
  3 + 3 + msgPubkeySize a.ch.mss.height a.ep a.ch1 a.ep1 + 9
    + (3 + msgWrapKeyloadPskSize) * a.psks.length
    + (3 + msgWrapKeyloadNtruSize) * a.ntruPks.length
    + sizeofSizeT (a.psks.length + a.ntruPks.length)

/-- What of the size goes to what vouches for the packet. -/
def msgChecksumSize (height : ℕ) : Checksum → ℕ
  | .none => 0
  | .mac => msgWrapMacSize
  | .sig => msgWrapMssigSize height

/-- `mam_msg_packet_size`. -/
def msgPacketSize (checksum : Checksum) (height payloadSize : ℕ) : ℕ :=
  sizeofSizeT (payloadSize / 3) + pb3SizeofNtrytes (payloadSize / 3) + 3
    + msgChecksumSize height checksum

variable {T : Troika}

section Parts

theorem writes_absorb {out : List Trit} {n : ℕ} (hn : out.length = n) :
    Writes (wrapAbsorb T out) n := by
  intro t
  rw [← hn]
  exact List.length_append

theorem writes_tryte (tryte : ℤ) : Writes (pb3WrapAbsorbTryte T tryte) 3 :=
  writes_absorb (length_put3 tryte)

theorem writes_sizeT {n : ℕ} (hn : n ≤ tritsSizeMax) :
    Writes (pb3WrapAbsorbSizeT T n) (sizeofSizeT n) := writes_absorb (length_encodeSizeT hn)

theorem writes_crypt (trits : List Trit) :
    Writes (pb3WrapCryptNtrytes T trits) trits.length := by
  intro t
  exact List.length_append.trans (congrArg _ (length_encr _ _))

theorem writes_mac : Writes (msgWrapMac T) msgWrapMacSize := by
  intro t
  exact List.length_append.trans (congrArg _ (length_squeeze _ _))

theorem writes_signature {m : Mss M} (hm : m.Sound T) (hleft : mssRemainingSks m ≠ 0) :
    Writes (wrapSignature T m) (msgWrapMssigSize m.height) := by
  have hdiv := mssSigSize_div m.height
  have hheight := hm.height_le
  have hsize : mssSigSize m.height / 3 ≤ tritsSizeMax := by
    unfold mssMaxD at hheight
    unfold tritsSizeMax
    omega
  unfold msgWrapMssigSize
  dsimp only
  have hsig : ∀ mac, (signatureOf T m mac).length = pb3SizeofNtrytes (mssSigSize m.height / 3) :=
    fun mac => (mssVerify_mssSign hm (mssSign_signatureOf hleft mac)).1.trans
      (pb3SizeofNtrytes_mssSig hheight).symm
  have hwrites := (Writes.modify (α := Trit) (commit T)).comp
    (Writes.modifyGet (fun s => squeeze T s wotsHashSize)
      fun mac => (writes_sizeT (T := T) hsize).comp (Writes.append (hsig mac)))
  rwa [Nat.zero_add] at hwrites

end Parts

/-- **A packet takes the room that was made for it.** -/
theorem writes_packet {m : Mss M} {checksum : Checksum} {payload : List Trit} (hm : m.Sound T)
    (hleft : checksum = .sig → mssRemainingSks m ≠ 0) (h3 : 3 ∣ payload.length)
    (hsize : payload.length / 3 ≤ tritsSizeMax) (ord : ℤ) :
    Writes (wrapPacket T ord m checksum payload)
      (msgPacketSize checksum m.height payload.length) := by
  have hlen : pb3SizeofNtrytes (payload.length / 3) = payload.length := by
    unfold tritsSizeMax at hsize
    unfold pb3SizeofNtrytes
    omega
  have hchecksum : Writes (wrapChecksum T m checksum) (msgChecksumSize m.height checksum) := by
    cases checksum with
    | none => exact Writes.modify _
    | mac => exact writes_mac.comp (Writes.modify (commit T))
    | sig => exact (writes_signature hm (hleft rfl)).comp (Writes.modify (commit T))
  unfold msgPacketSize
  rw [hlen]
  intro t
  unfold wrapPacket
  dsimp only
  rw [hchecksum, writes_tryte, writes_crypt, writes_sizeT hsize]
  show t.cells.length + _ + _ + _ + _ = _
  omega

/-! ## Headers -/

section Header

variable {N : Ntru}

theorem writes_pubkey {ch : Channel M} {ep : Option (Endpoint M)} {ch1 : Option (Channel M)}
    {ep1 : Option (Endpoint M)} (hch : ch.mss.Sound T) (hspeaker : (speaker ch ep ch1 ep1).Sound T)
    (hleft : CanAnnounce ch ch1 ep1) :
    Writes (wrapPubkey T ch ep ch1 ep1) (3 + msgPubkeySize ch.mss.height ep ch1 ep1) := by
  have hroot := hspeaker.length_root
  have h81 : pb3SizeofNtrytes 81 = 243 := rfl
  have hsigned : ∀ {id : List Trit} (tryte : ℤ), id.length = 243 → mssRemainingSks ch.mss ≠ 0 →
      Writes (fun t => wrapSignature T ch.mss (pb3WrapAbsorbNtrytes T id
        (pb3WrapAbsorbTryte T tryte t))) (3 + msgWrapSignedidSize ch.mss.height) := by
    intro id tryte hid hremain
    have hwrites := ((writes_tryte (T := T) tryte).comp (writes_absorb (T := T) hid)).comp
      (writes_signature hch hremain)
    rwa [Nat.add_assoc, ← h81] at hwrites
  cases ch1 with
  | some ch1 => exact hsigned 2 hroot (hleft (.inl (Option.some_ne_none _)))
  | none =>
    cases ep1 with
    | some ep1 => exact hsigned 3 hroot (hleft (.inr (Option.some_ne_none _)))
    | none =>
      cases ep with
      | some ep => exact (writes_tryte (T := T) 1).comp (writes_absorb (T := T) (hroot.trans h81.symm))
      | none => exact writes_tryte 0

theorem writes_keyloadPsk {sessionKey : List Trit} (hkey : sessionKey.length = 243) (psk : Psk) :
    Writes (msgWrapKeyload T 1 (msgWrapKeyloadPsk T sessionKey psk)) (3 + msgWrapKeyloadPskSize) := by
  refine (writes_tryte (T := T) 1).comp (Writes.fork (fun t => ?_))
  unfold msgWrapKeyloadPsk
  dsimp only
  rw [writes_crypt, hkey]
  show (pb3WrapAbsorbNtrytes T psk.id t).cells.length + _ = _
  rw [pb3WrapAbsorbNtrytes, writes_absorb psk.length_id]
  rfl

theorem writes_keyloadNtru {publicKey : List Trit} (hpk : publicKey.length = 9216)
    (prng nonce sessionKey : List Trit) :
    Writes (msgWrapKeyload T 2 (msgWrapKeyloadNtru T N prng nonce sessionKey publicKey))
      (3 + msgWrapKeyloadNtruSize) := by
  have hid : (ntruPkId publicKey).length = 81 := by
    rw [ntruPkId, List.length_take, hpk]
    rfl
  have hsize : msgWrapKeyloadNtruSize = 81 + 9216 := by decide
  have hwrites := (writes_absorb (T := T) hid).comp
    (writes_absorb (T := T) (N.length_pkEncr prng publicKey nonce sessionKey))
  rw [hsize]
  exact (writes_tryte (T := T) 2).comp hwrites.fork

/-- **A header takes the room that was made for it.** -/
theorem writes_header {a : HeaderArgs M} (hfits : a.Fits) (hch : a.ch.mss.Sound T)
    (hspeaker : (speaker a.ch a.ep a.ch1 a.ep1).Sound T) (hleft : CanAnnounce a.ch a.ch1 a.ep1) :
    Writes (wrapHeader T N a) (msgHeaderSize a) := by
  intro t
  have hkey := length_msgSessionKey (T := T) a.prng a.ch a.ep a.psks a.ntruPks
  have hpsks := Writes.foldl (l := a.psks) (w := fun psk => msgWrapKeyload T 1
    (msgWrapKeyloadPsk T (msgSessionKey T a.prng a.ch a.ep a.psks a.ntruPks) psk))
    fun psk _ => writes_keyloadPsk hkey psk
  have hpks := Writes.foldl (l := a.ntruPks) (w := fun pk => msgWrapKeyload T 2
    (msgWrapKeyloadNtru T N a.prng a.msgId
      (msgSessionKey T a.prng a.ch a.ep a.psks a.ntruPks) pk))
    fun pk hpk => writes_keyloadNtru (hfits.pks pk hpk) _ _ _
  have htrint : ∀ t : Wire, (pb3WrapAbsorbTrint T a.msgTypeId t).cells.length =
      t.cells.length + 9 := writes_absorb (length_put9 a.msgTypeId)
  unfold wrapHeader msgWrapKeyloads msgHeaderSize
  show (List.foldl _ _ _ : Wire).cells.length = _
  rw [hpks, hpsks, writes_sizeT hfits.count, htrint]
  show (wrapPubkey T a.ch a.ep a.ch1 a.ep1 _).cells.length + _ + _ + _ + _ = _
  rw [writes_pubkey hch hspeaker hleft]
  show (pb3WrapAbsorbTryte T 0 t).cells.length + _ + _ + _ + _ + _ = _
  rw [writes_tryte]
  omega

end Header

end Mam

end Entangled
