import Entangled.Mam.Mss
import Entangled.Mam.Pb3
/-!
# Messages

A message is a header and the packets behind it. The header names who speaks, and carries the key
of the session once for each recipient; a packet is a payload and what vouches for it. Writer and
reader pass what they write and read through a spongos each, and what they both know besides: the
channel, the number of the message and of the packet, the keys.

`ntru_pk_encr` and `ntru_sk_decr` are a parameter.
-/

namespace Entangled

namespace Mam

open Spongos

/-- `mam_psk_t`. -/
structure Psk where
  id : List Trit
  key : List Trit
  length_id : id.length = 81
  length_key : key.length = 243
  deriving DecidableEq

/-- `mam_ntru_sk_t`. -/
structure NtruSk where
  publicKey : List Trit
  secretKey : List Trit
  deriving DecidableEq

/-- The encryption of a session key and its decryption. -/
structure Ntru where
  pkEncr : (prng publicKey nonce sessionKey : List Trit) → List Trit
  length_pkEncr : ∀ prng publicKey nonce sessionKey,
    (pkEncr prng publicKey nonce sessionKey).length = 9216
  skDecr : NtruSk → List Trit → Option (List Trit)

/-- `mam_ntru_pk_id`. -/
def ntruPkId (publicKey : List Trit) : List Trit := publicKey.take 81

/-- `mam_endpoint_t`. -/
structure Endpoint (M : MerkleMode) where
  nameSize : List Trit
  name : List Trit
  mss : Mss M

/-- `mam_channel_t`. -/
structure Channel (M : MerkleMode) where
  nameSize : List Trit
  name : List Trit
  msgOrd : List Trit
  mss : Mss M
  endpoints : List (Endpoint M)
  endpointOrd : ℤ

/-- `mam_msg_checksum_t`. -/
inductive Checksum
  | none
  | mac
  | sig
  deriving DecidableEq, Repr

/-- The number of a checksum. -/
def Checksum.code : Checksum → ℤ
  | .none => 0
  | .mac => 1
  | .sig => 2

section Parts

variable (T : Troika) {M : MerkleMode}

/-- `pb3_trits_take`, behind a look at what is left: trits that are not absorbed. -/
def pb3UnwrapSkip (n : ℕ) : Unwrap (List Trit) := fun t =>
  let (trits, buffer) := pb3DecodeNtrytes n t.cells
  (trits, ⟨t.state, buffer⟩)

/-! ## What vouches for a packet -/

/-- `mam_msg_wrap_mac`. -/
def msgWrapMac (t : Wire) : Wire := pb3WrapSqueezeNtrytes T 81 (t.modify (commit T))

/-- `mam_msg_unwrap_mac`. -/
def msgUnwrapMac : Unwrap Unit := do
  TapeReader.modify (commit T)
  pb3UnwrapSqueezeNtrytes T 81

/-- `mam_msg_wrap_mssig`: the key tree signs what is squeezed, and moves on. -/
def msgWrapMssig (m : Mss M) (t : Wire) : Except Error Unit × Mss M × Wire :=
  let (mac, s) := squeeze T (commit T t.state) wotsHashSize
  let t := pb3WrapAbsorbSizeT T (mssSigSize m.height / 3) ⟨s, t.cells⟩
  match mssSignAndNext T m mac with
  | (.ok sig, m) => (.ok (), m, t.append sig)
  | (.error e, m) => (.error e, m, t)

/-- `mam_msg_unwrap_mssig`. -/
def msgUnwrapMssig (pk : List Trit) : Unwrap Unit := do
  TapeReader.modify (commit T)
  let mac ← TapeReader.modifyGet fun s => squeeze T s wotsHashSize
  let sz ← pb3UnwrapAbsorbSizeT T
  let sig ← pb3UnwrapSkip (pb3SizeofNtrytes sz)
  TapeReader.guard (mssVerify T mac sig pk = true) .pb3BadSig

/-- `mam_msg_wrap_signedid`. -/
def msgWrapSignedid (id : List Trit) (m : Mss M) (t : Wire) : Except Error Unit × Mss M × Wire :=
  msgWrapMssig T m (pb3WrapAbsorbNtrytes T id t)

/-- `mam_msg_unwrap_signedid`. -/
def msgUnwrapSignedid (pk : List Trit) : Unwrap (List Trit) := do
  let id ← pb3UnwrapAbsorbNtrytes T 243
  msgUnwrapMssig T pk
  pure id

/-! ## The parts of a header -/

/-- `mam_msg_channel_wrap`. -/
def msgChannelWrap (version : ℤ) (channelId : List Trit) (t : Wire) : Wire :=
  (pb3WrapAbsorbTryte T version t).modify (absorb T · channelId)

/-- `mam_msg_channel_unwrap`. -/
def msgChannelUnwrap (channelId : List Trit) : Unwrap ℤ := do
  let version ← pb3UnwrapAbsorbTryte T
  TapeReader.modify (absorb T · channelId)
  pure version

/-- `mam_msg_wrap_keyload_psk`. -/
def msgWrapKeyloadPsk (key : List Trit) (psk : Psk) (t : Wire) : Wire :=
  let t := pb3WrapAbsorbNtrytes T psk.id t
  let t := (t.modify (absorb T · psk.key)).modify (commit T)
  pb3WrapCryptNtrytes T key t

/-- What a key found does to the one found before. -/
def msgKeyFound (key : Option (List Trit)) (key2 : List Trit) : Unwrap (Option (List Trit)) :=
  match key with
  | some k => do
    TapeReader.guard (k = key2) .keyloadOverloaded
    pure (some k)
  | none => pure (some key2)

/-- `mam_msg_unwrap_keyload_psk`. -/
def msgUnwrapKeyloadPsk (psks : List Psk) (key : Option (List Trit)) :
    Unwrap (Option (List Trit)) := do
  let id ← pb3UnwrapAbsorbNtrytes T 81
  match psks.find? (fun psk => psk.id = id) with
  | some psk =>
    TapeReader.modify (absorb T · psk.key)
    TapeReader.modify (commit T)
    let key2 ← pb3UnwrapCryptNtrytes T 243
    msgKeyFound key key2
  | none =>
    let _ ← pb3UnwrapSkip 243
    pure key

/-- `mam_msg_wrap_keyload_ntru`. -/
def msgWrapKeyloadNtru (N : Ntru) (prng nonce key publicKey : List Trit) (t : Wire) : Wire :=
  let t := pb3WrapAbsorbNtrytes T (ntruPkId publicKey) t
  wrapAbsorb T (N.pkEncr prng publicKey nonce key) t

/-- `mam_msg_unwrap_keyload_ntru`. -/
def msgUnwrapKeyloadNtru (N : Ntru) (ntruSks : List NtruSk) (key : Option (List Trit)) :
    Unwrap (Option (List Trit)) := do
  let id ← pb3UnwrapAbsorbNtrytes T 81
  match ntruSks.find? (fun sk => ntruPkId sk.publicKey = id) with
  | some sk =>
    let ekey ← pb3UnwrapSkip 9216
    match N.skDecr sk ekey with
    | some key2 =>
      TapeReader.modify (absorb T · ekey)
      msgKeyFound key key2
    | none => TapeReader.fail .pb3BadEkey
  | none =>
    let _ ← pb3UnwrapSkip 9216
    pure key

end Parts

/-! ## Headers -/

section Header

variable (T : Troika) (N : Ntru) {M : MerkleMode}

/-- What is signed, and what only told, in the header: `ch1`, `ep1` or `ep`, in this order. -/
def msgWrapPubkey (ch : Channel M) (ep : Option (Endpoint M)) (ch1 : Option (Channel M))
    (ep1 : Option (Endpoint M)) (t : Wire) : Except Error Unit × Mss M × Wire :=
  match ch1, ep1, ep with
  | some ch1, _, _ => msgWrapSignedid T ch1.mss.root ch.mss (pb3WrapAbsorbTryte T 2 t)
  | none, some ep1, _ => msgWrapSignedid T ep1.mss.root ch.mss (pb3WrapAbsorbTryte T 3 t)
  | none, none, some ep =>
    (.ok (), ch.mss, pb3WrapAbsorbNtrytes T ep.mss.root (pb3WrapAbsorbTryte T 1 t))
  | none, none, none => (.ok (), ch.mss, pb3WrapAbsorbTryte T 0 t)

/-- A keyload, written aside. -/
def msgWrapKeyload (keyload : ℤ) (w : Wire → Wire) (t : Wire) : Wire :=
  (pb3WrapAbsorbTryte T keyload t).fork w

/-- The part of `mam_msg_write_header` that follows the keys. -/
def msgWrapKeyloads (prng msgId : List Trit) (msgTypeId : ℤ) (psks : List Psk)
    (ntruPks : List (List Trit)) (sessionKey : List Trit) (t : Wire) : Wire :=
  let t := t.modify (absorb T · msgId)
  let t := pb3WrapAbsorbTrint T msgTypeId t
  let t := pb3WrapAbsorbSizeT T (psks.length + ntruPks.length) t
  let t := psks.foldl (fun t psk => msgWrapKeyload T 1 (msgWrapKeyloadPsk T sessionKey psk) t) t
  let t := ntruPks.foldl
    (fun t pk => msgWrapKeyload T 2 (msgWrapKeyloadNtru T N prng msgId sessionKey pk) t) t
  (t.modify (absorb T · sessionKey)).modify (commit T)

/-- The key of the session that the header is written with. -/
def msgSessionKey (prng : List Trit) (ch : Channel M) (ep : Option (Endpoint M)) (psks : List Psk)
    (ntruPks : List (List Trit)) : List Trit :=
  if psks = [] ∧ ntruPks = [] then List.replicate 243 .zero
  else
    match ep with
    | some ep => prngGen5 T prng 0 [ch.nameSize, ch.name, ep.nameSize, ep.name, mssSkn ep.mss] 243
    | none => prngGen5 T prng 0 [ch.nameSize, ch.name, [], [], mssSkn ch.mss] 243

/-- `mam_msg_write_header`, with the key tree of the channel. -/
def msgWriteHeader (prng : List Trit) (ch : Channel M) (ep : Option (Endpoint M))
    (ch1 : Option (Channel M)) (ep1 : Option (Endpoint M)) (msgId : List Trit) (msgTypeId : ℤ)
    (psks : List Psk) (ntruPks : List (List Trit)) : Except Error Unit × Mss M × Wire :=
  let sessionKey := msgSessionKey T prng ch ep psks ntruPks
  match msgWrapPubkey T ch ep ch1 ep1 (msgChannelWrap T 0 ch.mss.root ⟨init, []⟩) with
  | (.ok (), m, t) => (.ok (), m, msgWrapKeyloads T N prng msgId msgTypeId psks ntruPks sessionKey t)
  | (.error e, m, t) => (.error e, m, t)

/-- The sets of trusted keys. -/
structure Trusted where
  channelPks : List (List Trit)
  endpointPks : List (List Trit)

/-- `mam_pk_t_set_add`; without memory for the entry the set stays. -/
def pkSetAdd (alloc : Bool) (pks : List (List Trit)) (pk : List Trit) : List (List Trit) :=
  if pk ∈ pks then pks else if alloc then pks ++ [pk] else pks

/-- What is announced in a header or told, by its number. -/
def msgUnwrapPubkeyOf (chid : List Trit) (trusted : Trusted) (alloc : Bool) (pubkey : ℤ) :
    Unwrap (List Trit × Trusted) :=
  if pubkey = 2 then do
    let pk ← msgUnwrapSignedid T chid
    pure (pk, { trusted with channelPks := pkSetAdd alloc trusted.channelPks pk })
  else if pubkey = 3 then do
    let pk ← msgUnwrapSignedid T chid
    pure (pk, { trusted with endpointPks := pkSetAdd alloc trusted.endpointPks pk })
  else if pubkey = 1 then do
    let pk ← pb3UnwrapAbsorbNtrytes T 243
    TapeReader.guard (pk ∈ trusted.endpointPks) .endpointNotTrusted
    pure (pk, trusted)
  else pure (chid, trusted)

/-- The part of `mam_msg_read_header` that says who speaks: the key that packets are signed with,
and the sets of trusted keys. -/
def msgUnwrapPubkey (chid : List Trit) (trusted : Trusted) (alloc : Bool) :
    Unwrap (List Trit × Trusted) := do
  let version ← msgChannelUnwrap T chid
  TapeReader.guard (0 = version) .versionNotSupported
  TapeReader.guard (chid ∈ trusted.channelPks) .channelNotTrusted
  let pubkey ← pb3UnwrapAbsorbTryte T
  TapeReader.guard (0 ≤ pubkey ∧ pubkey ≤ 3) .pb3BadOneof
  msgUnwrapPubkeyOf T chid trusted alloc pubkey

/-- A keyload, read aside. -/
def msgUnwrapKeyload (psks : List Psk) (ntruSks : List NtruSk) (key : Option (List Trit))
    (keyload : ℤ) : Unwrap (Option (List Trit)) :=
  if keyload = 1 then TapeReader.fork (msgUnwrapKeyloadPsk T psks key)
  else TapeReader.fork (msgUnwrapKeyloadNtru T N ntruSks key)

/-- The loop over the keyloads. -/
def msgUnwrapKeyloadLoop (psks : List Psk) (ntruSks : List NtruSk) :
    ℕ → Option (List Trit) → Unwrap (Option (List Trit))
  | 0, key => pure key
  | keyloadCount + 1, key => do
    let keyload ← pb3UnwrapAbsorbTryte T
    TapeReader.guard (1 ≤ keyload ∧ keyload ≤ 2) .pb3BadOneof
    let key ← msgUnwrapKeyload T N psks ntruSks key keyload
    msgUnwrapKeyloadLoop psks ntruSks keyloadCount key

/-- The key of the session: none in public. -/
def msgUnwrapSessionKey (keyloadCount : ℕ) (key : Option (List Trit)) : Unwrap Unit :=
  match keyloadCount, key with
  | 0, _ => TapeReader.modify (absorb T · (List.replicate 243 .zero))
  | _ + 1, some key => TapeReader.modify (absorb T · key)
  | _ + 1, none => TapeReader.fail .keyloadIrrelevant

/-- The part of `mam_msg_read_header` that finds the key of the session. -/
def msgUnwrapKeyloads (psks : List Psk) (ntruSks : List NtruSk) (msgId : List Trit) :
    Unwrap Unit := do
  TapeReader.modify (absorb T · msgId)
  let _ ← pb3UnwrapAbsorbTrint T
  let keyloadCount ← pb3UnwrapAbsorbSizeT T
  let key ← msgUnwrapKeyloadLoop T N psks ntruSks keyloadCount none
  msgUnwrapSessionKey T keyloadCount key
  TapeReader.modify (commit T)

/-- `mam_msg_read_header`: the key that packets are signed with, and the sets of trusted keys, which
a failure further on leaves grown. -/
def msgReadHeader (chid : List Trit) (psks : List Psk) (ntruSks : List NtruSk) (msgId : List Trit)
    (trusted : Trusted) (alloc : Bool) (buffer : List Trit) :
    Except Error (List Trit) × Trusted × Wire :=
  match msgUnwrapPubkey T chid trusted alloc ⟨init, buffer⟩ with
  | (.error e, t) => (.error e, trusted, t)
  | (.ok (pk, trusted), t) =>
    match msgUnwrapKeyloads T N psks ntruSks msgId t with
    | (.error e, t) => (.error e, trusted, t)
    | (.ok (), t) => (.ok pk, trusted, t)

end Header

/-! ## Packets -/

section Packet

variable (T : Troika) {M : MerkleMode}

/-- `mam_msg_write_packet`, with the key tree of who speaks. -/
def msgWritePacket (ord : ℤ) (m : Mss M) (checksum : Checksum) (payload : List Trit) (t : Wire) :
    Except Error Unit × Mss M × Wire :=
  let t := t.modify (absorb T · (put18 ord))
  let t := pb3WrapAbsorbSizeT T (payload.length / 3) t
  let t := pb3WrapCryptNtrytes T payload t
  let t := pb3WrapAbsorbTryte T checksum.code t
  match checksum with
  | .none => (.ok (), m, t.modify (commit T))
  | .mac => (.ok (), m, (msgWrapMac T t).modify (commit T))
  | .sig =>
    match msgWrapMssig T m t with
    | (.ok (), m, t) => (.ok (), m, t.modify (commit T))
    | (.error e, m, t) => (.error e, m, t)

/-- What vouches for the packet, by its number. -/
def msgUnwrapChecksum (pk : List Trit) (checksum : ℤ) : Unwrap Unit :=
  if checksum = 0 then pure ()
  else if checksum = 1 then msgUnwrapMac T
  else if checksum = 2 then msgUnwrapMssig T pk
  else TapeReader.fail .pb3BadOneof

/-- `mam_msg_read_packet`, into a payload that is allocated. -/
def msgReadPacket (ord : ℤ) (pk : List Trit) (alloc : Bool) : Unwrap (List Trit) := do
  TapeReader.modify (absorb T · (put18 ord))
  let sz ← pb3UnwrapAbsorbSizeT T
  TapeReader.guard (alloc = true) .oom
  let payload ← pb3UnwrapCryptNtrytes T (pb3SizeofNtrytes sz)
  let checksum ← pb3UnwrapAbsorbTryte T
  msgUnwrapChecksum T pk checksum
  TapeReader.modify (commit T)
  pure payload

end Packet

end Mam

end Entangled
