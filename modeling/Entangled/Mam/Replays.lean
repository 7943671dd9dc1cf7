import Entangled.Mam.Message
/-!
# The reader of a message follows its writer

Each part of a message is read as it was written, from the same spongos on, and leaves both with the
same spongos again (`Replays`). The parts follow each other the way the functions put them together,
so a packet is read as it was written, and a header by whoever trusts the channel and holds one of
the keys.
-/

namespace Entangled

namespace Mam

open Spongos Ternary

variable {T : Troika} {M : MerkleMode}

theorem pb3UnwrapSkip_append {trits : List Trit} {n : ℕ} (hn : trits.length = n) (s : Spongos)
    (rest : List Trit) : pb3UnwrapSkip n ⟨s, trits ++ rest⟩ = (.ok trits, ⟨s, rest⟩) := by
  rw [pb3UnwrapSkip, pb3DecodeNtrytes, if_neg (by rw [List.length_append]; omega)]
  simp only [List.take_left' hn, List.drop_left' hn]

/-- What is not absorbed. -/
theorem replays_skip {trits : List Trit} {n : ℕ} (hn : trits.length = n) :
    Replays (Tape.append trits) (pb3UnwrapSkip n) trits :=
  fun s _ => ⟨s, trits, rfl, pb3UnwrapSkip_append hn s⟩

theorem replays_mac : Replays (msgWrapMac T) (msgUnwrapMac T) () :=
  (Replays.modify (commit T)).bind (replays_squeeze 81)

/-! ## Signatures -/

theorem mssSigSize_div (height : ℕ) : mssSigSize height / 3 = 4380 + 81 * height := by
  unfold mssSigSize mssSknSize wotsPrivateKeySize wotsPrivateKeyPartSize wotsPrivateKeyPartCount
    mssMtHashSize
  omega

theorem pb3SizeofNtrytes_mssSig {height : ℕ} (hheight : height ≤ mssMaxD) :
    pb3SizeofNtrytes (mssSigSize height / 3) = mssSigSize height := by
  have hdiv := mssSigSize_div height
  unfold mssMaxD at hheight
  rw [pb3SizeofNtrytes, hdiv]
  unfold mssSigSize mssSknSize wotsPrivateKeySize wotsPrivateKeyPartSize wotsPrivateKeyPartCount
    mssMtHashSize
  omega

/-- What a key tree signs a hash with. -/
def signatureOf (T : Troika) (m : Mss M) (mac : List Trit) : List Trit :=
  match mssSign T m mac with
  | .ok sig => sig
  | .error _ => []

theorem mssSign_signatureOf {m : Mss M} (hleft : mssRemainingSks m ≠ 0) (mac : List Trit) :
    mssSign T m mac = .ok (signatureOf T m mac) := by
  have hsign : ∃ sig, mssSign T m mac = .ok sig := ⟨_, if_neg hleft⟩
  obtain ⟨sig, hsig⟩ := hsign
  rw [signatureOf, hsig]

/-- The wrapping of a signature, if there is a key left. -/
def wrapSignature (T : Troika) (m : Mss M) (t : Wire) : Wire :=
  (t.modify (commit T)).modifyGet (fun s => squeeze T s wotsHashSize) fun mac t =>
    (pb3WrapAbsorbSizeT T (mssSigSize m.height / 3) t).append (signatureOf T m mac)

theorem msgWrapMssig_eq {m : Mss M} (hleft : mssRemainingSks m ≠ 0) (t : Wire) :
    msgWrapMssig T m t = (.ok (), mssNext T m, wrapSignature T m t) := by
  simp only [msgWrapMssig, mssSignAndNext, mssSign_signatureOf hleft]
  rfl

theorem replays_mssig {m : Mss M} (hm : m.Sound T) (hleft : mssRemainingSks m ≠ 0) :
    Replays (wrapSignature T m) (msgUnwrapMssig T m.root) () := by
  have hsize : mssSigSize m.height / 3 ≤ tritsSizeMax := by
    have hheight := hm.height_le
    unfold mssMaxD at hheight
    rw [mssSigSize_div, tritsSizeMax]
    omega
  refine (Replays.modify (commit T)).bind (Replays.modifyGet _ fun mac => ?_)
  obtain ⟨hlen, hverify⟩ := mssVerify_mssSign hm (mssSign_signatureOf hleft mac)
  refine (replays_absorbSizeT hsize).bind (Replays.bind (v := id) (replays_skip ?_) ?_)
  · rw [pb3SizeofNtrytes_mssSig hm.height_le, hlen]
  · exact Replays.guard hverify

/-! ## Packets -/

/-- What vouches for a packet, and the end of it, if there is a key left for a signature. -/
def wrapChecksum (T : Troika) (m : Mss M) (checksum : Checksum) (t : Wire) : Wire :=
  let t :=
    match checksum with
    | .none => t
    | .mac => msgWrapMac T t
    | .sig => wrapSignature T m t
  t.modify (commit T)

/-- The writing of a packet. -/
def wrapPacket (T : Troika) (ord : ℤ) (m : Mss M) (checksum : Checksum) (payload : List Trit)
    (t : Wire) : Wire :=
  let t := t.modify (absorb T · (put18 ord))
  let t := pb3WrapAbsorbSizeT T (payload.length / 3) t
  let t := pb3WrapCryptNtrytes T payload t
  wrapChecksum T m checksum (pb3WrapAbsorbTryte T checksum.code t)

/-- The key tree behind a packet. -/
def mssAfter (T : Troika) (m : Mss M) : Checksum → Mss M
  | .none => m
  | .mac => m
  | .sig => mssNext T m

theorem msgWritePacket_eq {m : Mss M} {checksum : Checksum}
    (hleft : checksum = .sig → mssRemainingSks m ≠ 0) (ord : ℤ) (payload : List Trit) (t : Wire) :
    msgWritePacket T ord m checksum payload t =
      (.ok (), mssAfter T m checksum, wrapPacket T ord m checksum payload t) := by
  cases checksum with
  | none => rfl
  | mac => rfl
  | sig => simp only [msgWritePacket, msgWrapMssig_eq (hleft rfl), mssAfter, wrapPacket, wrapChecksum]

/-- **A packet is read as it was written.** -/
theorem replays_packet {m : Mss M} {checksum : Checksum} {payload : List Trit} (hm : m.Sound T)
    (hleft : checksum = .sig → mssRemainingSks m ≠ 0) (h3 : 3 ∣ payload.length)
    (hsize : payload.length / 3 ≤ tritsSizeMax) (ord : ℤ) :
    Replays (wrapPacket T ord m checksum payload) (msgReadPacket T ord m.root true) payload := by
  have hlen : payload.length = pb3SizeofNtrytes (payload.length / 3) := by
    unfold tritsSizeMax at hsize
    unfold pb3SizeofNtrytes
    omega
  have hcode : 2 * |checksum.code| < 3 ^ 3 := by
    cases checksum <;> decide
  refine Replays.bind (v := fun t => wrapChecksum T m checksum (pb3WrapAbsorbTryte T checksum.code
    (pb3WrapCryptNtrytes T payload (pb3WrapAbsorbSizeT T (payload.length / 3) t))))
    (Replays.modify _) ?_
  refine Replays.bind (v := fun t => wrapChecksum T m checksum (pb3WrapAbsorbTryte T checksum.code
    (pb3WrapCryptNtrytes T payload t))) (replays_absorbSizeT hsize) ?_
  refine Replays.bind (w := id) (v := fun t => wrapChecksum T m checksum (pb3WrapAbsorbTryte T
    checksum.code (pb3WrapCryptNtrytes T payload t))) (Replays.guard rfl) ?_
  refine Replays.bind (v := fun t => wrapChecksum T m checksum (pb3WrapAbsorbTryte T checksum.code
    t)) (replays_crypt payload hlen) ?_
  refine Replays.bind (v := wrapChecksum T m checksum) (replays_absorbTryte hcode) ?_
  refine Replays.bind (b := ()) (v := Tape.modify (commit T)) ?_
    (Replays.bind (v := id) (Replays.modify _) (Replays.pure _))
  cases checksum with
  | none => exact Replays.pure ()
  | mac => exact replays_mac
  | sig => exact replays_mssig hm (hleft rfl)

/-! ## Headers -/

/-- The key that packets are signed with. -/
def speaker (ch : Channel M) (ep : Option (Endpoint M)) (ch1 : Option (Channel M))
    (ep1 : Option (Endpoint M)) : Mss M :=
  match ch1, ep1, ep with
  | some ch1, _, _ => ch1.mss
  | none, some ep1, _ => ep1.mss
  | none, none, some ep => ep.mss
  | none, none, none => ch.mss

/-- What the header is about is trusted, or signed by who is. -/
structure Trusts (trusted : Trusted) (ch : Channel M) (ep : Option (Endpoint M))
    (ch1 : Option (Channel M)) (ep1 : Option (Endpoint M)) : Prop where
  channel : ch.mss.root ∈ trusted.channelPks
  endpoint : ch1 = none → ep1 = none → ∀ e, ep = some e → e.mss.root ∈ trusted.endpointPks

/-- A key tree of the channel is there for what is announced. -/
def CanAnnounce (ch : Channel M) (ch1 : Option (Channel M)) (ep1 : Option (Endpoint M)) : Prop :=
  ch1 ≠ none ∨ ep1 ≠ none → mssRemainingSks ch.mss ≠ 0

/-- The sets behind a header. -/
def trustedAfter (trusted : Trusted) (alloc : Bool) (ch1 : Option (Channel M))
    (ep1 : Option (Endpoint M)) : Trusted :=
  match ch1, ep1 with
  | some ch1, _ => { trusted with channelPks := pkSetAdd alloc trusted.channelPks ch1.mss.root }
  | none, some ep1 => { trusted with endpointPks := pkSetAdd alloc trusted.endpointPks ep1.mss.root }
  | none, none => trusted

/-- The key tree of the channel behind a header. -/
def mssAnnounced (T : Troika) (ch : Channel M) (ch1 : Option (Channel M))
    (ep1 : Option (Endpoint M)) : Mss M :=
  match ch1, ep1 with
  | some _, _ => mssNext T ch.mss
  | none, some _ => mssNext T ch.mss
  | none, none => ch.mss

/-- `msgWrapPubkey`, if there is a key left for a signature. -/
def wrapPubkey (T : Troika) (ch : Channel M) (ep : Option (Endpoint M)) (ch1 : Option (Channel M))
    (ep1 : Option (Endpoint M)) (t : Wire) : Wire :=
  match ch1, ep1, ep with
  | some ch1, _, _ =>
    wrapSignature T ch.mss (pb3WrapAbsorbNtrytes T ch1.mss.root (pb3WrapAbsorbTryte T 2 t))
  | none, some ep1, _ =>
    wrapSignature T ch.mss (pb3WrapAbsorbNtrytes T ep1.mss.root (pb3WrapAbsorbTryte T 3 t))
  | none, none, some ep => pb3WrapAbsorbNtrytes T ep.mss.root (pb3WrapAbsorbTryte T 1 t)
  | none, none, none => pb3WrapAbsorbTryte T 0 t

theorem msgWrapPubkey_eq {ch : Channel M} {ep : Option (Endpoint M)} {ch1 : Option (Channel M)}
    {ep1 : Option (Endpoint M)} (hleft : CanAnnounce ch ch1 ep1) (t : Wire) :
    msgWrapPubkey T ch ep ch1 ep1 t =
      (.ok (), mssAnnounced T ch ch1 ep1, wrapPubkey T ch ep ch1 ep1 t) := by
  cases ch1 with
  | some ch1 => exact msgWrapMssig_eq (hleft (.inl (Option.some_ne_none _))) _
  | none =>
    cases ep1 with
    | some ep1 => exact msgWrapMssig_eq (hleft (.inr (Option.some_ne_none _))) _
    | none => cases ep <;> rfl

/-- The root of a tree is a hash. -/
theorem Mss.Sound.length_root {m : Mss M} (hm : m.Sound T) : m.root.length = 243 := by
  rw [hm.root_eq]
  exact length_nodeOf (length_mssMtGenLeaf m) _ _

theorem replays_signedid {m : Mss M} {id : List Trit} (hm : m.Sound T)
    (hleft : mssRemainingSks m ≠ 0) (hid : id.length = 243) :
    Replays (fun t => wrapSignature T m (pb3WrapAbsorbNtrytes T id t)) (msgUnwrapSignedid T m.root)
      id := by
  refine (replays_absorbNtrytes id hid).bind ?_
  exact Replays.bind (v := fun t => t) (replays_mssig hm hleft) (Replays.pure _)

theorem replays_channel (channelId : List Trit) :
    Replays (msgChannelWrap T 0 channelId) (msgChannelUnwrap T channelId) 0 := by
  refine Replays.bind (v := Tape.modify (absorb T · channelId))
    (replays_absorbTryte (by decide)) ?_
  exact Replays.bind (v := fun t => t) (Replays.modify _) (Replays.pure _)

/-- **Who speaks is told** to whoever trusts the channel. -/
theorem replays_pubkey {ch : Channel M} {ep : Option (Endpoint M)} {ch1 : Option (Channel M)}
    {ep1 : Option (Endpoint M)} {trusted : Trusted} (hch : ch.mss.Sound T)
    (hspeaker : (speaker ch ep ch1 ep1).Sound T) (hleft : CanAnnounce ch ch1 ep1)
    (htrust : Trusts trusted ch ep ch1 ep1) (alloc : Bool) :
    Replays (fun t => wrapPubkey T ch ep ch1 ep1 (msgChannelWrap T 0 ch.mss.root t))
      (msgUnwrapPubkey T ch.mss.root trusted alloc)
      ((speaker ch ep ch1 ep1).root, trustedAfter trusted alloc ch1 ep1) := by
  have hnamed : ∀ (pubkey : ℤ) {v : Wire → Wire} {b : List Trit × Trusted}, 0 ≤ pubkey →
      pubkey ≤ 3 → Replays v (msgUnwrapPubkeyOf T ch.mss.root trusted alloc pubkey) b →
      Replays (fun t => v (pb3WrapAbsorbTryte T pubkey (msgChannelWrap T 0 ch.mss.root t)))
        (msgUnwrapPubkey T ch.mss.root trusted alloc) b := by
    intro pubkey v b h0 h3 hv
    refine Replays.bind (v := fun t => v (pb3WrapAbsorbTryte T pubkey t)) (replays_channel _) ?_
    refine Replays.bind (w := id) (v := fun t => v (pb3WrapAbsorbTryte T pubkey t))
      (Replays.guard rfl) ?_
    refine Replays.bind (w := id) (v := fun t => v (pb3WrapAbsorbTryte T pubkey t))
      (Replays.guard htrust.channel) ?_
    refine (replays_absorbTryte (by rw [two_mul_abs_lt]; omega)).bind ?_
    exact Replays.bind (w := id) (v := v) (Replays.guard ⟨h0, h3⟩) hv
  have hid := hspeaker.length_root
  cases ch1 with
  | some ch1 =>
    exact hnamed 2 (by decide) (by decide) (Replays.bind (v := fun t => t)
      (replays_signedid hch (hleft (.inl (Option.some_ne_none _))) hid) (Replays.pure _))
  | none =>
    cases ep1 with
    | some ep1 =>
      exact hnamed 3 (by decide) (by decide) (Replays.bind (v := fun t => t)
        (replays_signedid hch (hleft (.inr (Option.some_ne_none _))) hid) (Replays.pure _))
    | none =>
      cases ep with
      | some ep =>
        exact hnamed 1 (by decide) (by decide) (Replays.bind (v := fun t => t)
          (replays_absorbNtrytes _ hid) (Replays.bind (w := id) (v := fun t => t)
          (Replays.guard (htrust.endpoint rfl rfl ep rfl)) (Replays.pure _)))
      | none => exact hnamed 0 (v := id) (by decide) (by decide) (Replays.pure _)

/-! ## The key of the session -/

/-- Written to be skipped. -/
theorem getsPast_skip {w : Wire → Wire} {n : ℕ} {β : Type} (b : β)
    (hw : ∀ t, ∃ out, out.length = n ∧ (w t).cells = t.cells ++ out) :
    GetsPast w (do let _ ← pb3UnwrapSkip n; pure b) b := by
  intro s written
  obtain ⟨out, hlen, hcells⟩ := hw ⟨s, written⟩
  exact ⟨out, hcells, fun rest => ⟨s, TapeReader.bind_ok (pb3UnwrapSkip_append hlen s rest)⟩⟩

/-- A key that was found, if any, is the one of the session. -/
def AgreesWith (sessionKey : List Trit) (key : Option (List Trit)) : Prop :=
  ∀ k, key = some k → k = sessionKey

theorem replays_keyFound {sessionKey : List Trit} {key : Option (List Trit)}
    (hkey : AgreesWith sessionKey key) :
    Replays id (msgKeyFound key sessionKey) (some sessionKey) := by
  cases key with
  | none => exact Replays.pure _
  | some k =>
    obtain rfl := hkey k rfl
    exact Replays.bind (w := id) (v := id) (Replays.guard rfl) (Replays.pure _)

/-- What the reader knows of the pre-shared keys a header is written for. -/
def PskAgrees (held : List Psk) (psk : Psk) : Prop := ∀ q ∈ held, q.id = psk.id → q = psk

/-- What a keyload leaves of the key found before: the key of the session for who can read it. -/
def Finds (sessionKey : List Trit) (held : Prop) (key key' : Option (List Trit)) : Prop :=
  (key' = key ∨ key' = some sessionKey) ∧ (held → key' = some sessionKey)

/-- **The key of the session under a pre-shared key** is found by who holds it, and passed over by
who does not. -/
theorem getsPast_keyloadPsk {sessionKey : List Trit} {key : Option (List Trit)} {held : List Psk}
    {psk : Psk} (hsize : sessionKey.length = 243) (hkey : AgreesWith sessionKey key)
    (hagree : PskAgrees held psk) :
    ∃ key', GetsPast (msgWrapKeyloadPsk T sessionKey psk) (msgUnwrapKeyloadPsk T held key) key' ∧
      Finds sessionKey (psk ∈ held) key key' := by
  let v := fun t : Wire => pb3WrapCryptNtrytes T sessionKey
    ((t.modify (absorb T · psk.key)).modify (commit T))
  have hload := replays_absorbNtrytes (T := T) psk.id psk.length_id
  cases hfind : held.find? (fun q => q.id = psk.id) with
  | some q =>
    have hid : q.id = psk.id := by simpa using List.find?_some hfind
    obtain rfl := hagree q (List.mem_of_find?_eq_some hfind) hid
    refine ⟨some sessionKey, Replays.bind_getsPast (v := v) hload ?_, .inr rfl, fun _ => rfl⟩
    simp only [hfind]
    refine Replays.getsPast ?_
    refine Replays.bind (v := fun t => pb3WrapCryptNtrytes T sessionKey (t.modify (commit T)))
      (Replays.modify _) ?_
    refine Replays.bind (v := pb3WrapCryptNtrytes T sessionKey) (Replays.modify _) ?_
    exact Replays.bind (v := id) (replays_crypt _ hsize) (replays_keyFound hkey)
  | none =>
    refine ⟨key, Replays.bind_getsPast (v := v) hload ?_, .inl rfl, fun hmem => ?_⟩
    · simp only [hfind]
      exact getsPast_skip key fun t => ⟨_, (length_encr _ _).trans hsize, rfl⟩
    · exact absurd (List.find?_eq_none.mp hfind psk hmem) (by simp)

/-- What the reader knows of the public keys a header is written for. -/
def NtruAgrees (N : Ntru) (held : List NtruSk) (publicKey : List Trit) : Prop :=
  ∀ sk ∈ held, ntruPkId sk.publicKey = ntruPkId publicKey → sk.publicKey = publicKey ∧
    ∀ prng nonce sessionKey, sessionKey.length = 243 →
      N.skDecr sk (N.pkEncr prng publicKey nonce sessionKey) = some sessionKey

/-- Whether one of the secret keys is that of a public key. -/
def HoldsSk (held : List NtruSk) (publicKey : List Trit) : Prop :=
  ∃ sk ∈ held, sk.publicKey = publicKey

/-- **The key of the session under a public key** is found by who holds the secret key, and passed
over by who does not. -/
theorem getsPast_keyloadNtru {N : Ntru} {sessionKey : List Trit} {key : Option (List Trit)}
    {held : List NtruSk} {publicKey : List Trit} (prng nonce : List Trit)
    (hsize : sessionKey.length = 243) (hpk : publicKey.length = 9216)
    (hkey : AgreesWith sessionKey key) (hagree : NtruAgrees N held publicKey) :
    ∃ key', GetsPast (msgWrapKeyloadNtru T N prng nonce sessionKey publicKey)
      (msgUnwrapKeyloadNtru T N held key) key' ∧
      Finds sessionKey (HoldsSk held publicKey) key key' := by
  have hid : (ntruPkId publicKey).length = 81 := by
    rw [ntruPkId, List.length_take, hpk]
    rfl
  have hload := replays_absorbNtrytes (T := T) (ntruPkId publicKey) hid
  have hekey := N.length_pkEncr prng publicKey nonce sessionKey
  cases hfind : held.find? (fun sk => ntruPkId sk.publicKey = ntruPkId publicKey) with
  | some sk =>
    obtain ⟨-, hdecr⟩ := hagree sk (List.mem_of_find?_eq_some hfind)
      (by simpa using List.find?_some hfind)
    refine ⟨some sessionKey, ?_, .inr rfl, fun _ => rfl⟩
    refine Replays.bind_getsPast (v := wrapAbsorb T (N.pkEncr prng publicKey nonce sessionKey))
      hload ?_
    simp only [hfind]
    refine Replays.getsPast (Replays.bind (w := Tape.append (N.pkEncr prng publicKey nonce sessionKey))
      (v := Tape.modify (absorb T · (N.pkEncr prng publicKey nonce sessionKey)))
      (replays_skip hekey) ?_)
    simp only [hdecr prng nonce sessionKey hsize]
    exact Replays.bind (v := id)
      (Replays.modify (absorb T · (N.pkEncr prng publicKey nonce sessionKey)))
      (replays_keyFound hkey)
  | none =>
    refine ⟨key, ?_, .inl rfl, ?_⟩
    · refine Replays.bind_getsPast (v := wrapAbsorb T (N.pkEncr prng publicKey nonce sessionKey))
        hload ?_
      simp only [hfind]
      exact getsPast_skip key fun t => ⟨_, hekey, rfl⟩
    · rintro ⟨sk, hmem, rfl⟩
      exact absurd (List.find?_eq_none.mp hfind sk hmem) (by simp)

/-- A keyload to be written, and whether the reader can read it. -/
structure Keyload where
  code : ℤ
  wrap : Wire → Wire
  held : Prop

/-- A keyload read aside does what the reader of its kind does. -/
def Keyload.Readable (T : Troika) (N : Ntru) (psks : List Psk) (ntruSks : List NtruSk)
    (sessionKey : List Trit) (l : Keyload) : Prop :=
  (l.code = 1 ∨ l.code = 2) ∧ ∀ key, AgreesWith sessionKey key →
    ∃ key', Replays (Tape.fork l.wrap) (msgUnwrapKeyload T N psks ntruSks key l.code) key' ∧
      Finds sessionKey l.held key key'

theorem AgreesWith.finds {sessionKey : List Trit} {held : Prop} {key key' : Option (List Trit)}
    (hkey : AgreesWith sessionKey key) (hfinds : Finds sessionKey held key key') :
    AgreesWith sessionKey key' := by
  rcases hfinds.1 with rfl | rfl
  · exact hkey
  · intro k hk
    exact (Option.some.inj hk).symm

/-- **The loop over the keyloads** finds the key if one of them can be read. -/
theorem replays_keyloadLoop {N : Ntru} {psks : List Psk} {ntruSks : List NtruSk}
    {sessionKey : List Trit} {loads : List Keyload} {key : Option (List Trit)}
    (hloads : ∀ l ∈ loads, l.Readable T N psks ntruSks sessionKey)
    (hkey : AgreesWith sessionKey key) :
    ∃ key', Replays (fun t => loads.foldl (fun t l => msgWrapKeyload T l.code l.wrap t) t)
      (msgUnwrapKeyloadLoop T N psks ntruSks loads.length key) key' ∧
      Finds sessionKey (∃ l ∈ loads, l.held) key key' := by
  induction loads generalizing key with
  | nil => exact ⟨key, Replays.pure key, .inl rfl, fun ⟨_, hmem, _⟩ => absurd hmem List.not_mem_nil⟩
  | cons l loads ih =>
    obtain ⟨hcode, hread⟩ := hloads l List.mem_cons_self
    obtain ⟨key₁, hone, hfinds₁⟩ := hread key hkey
    obtain ⟨key₂, hrest, hfinds₂⟩ := ih (fun l' hl' => hloads l' (List.mem_cons_of_mem _ hl'))
      (hkey.finds hfinds₁)
    have hsmall : 2 * |l.code| < 3 ^ 3 := by
      rw [two_mul_abs_lt]
      omega
    refine ⟨key₂, ?_, ?_, ?_⟩
    · refine Replays.bind
        (v := fun t => loads.foldl (fun t l => msgWrapKeyload T l.code l.wrap t) (t.fork l.wrap))
        (replays_absorbTryte hsmall) ?_
      refine Replays.bind (w := id)
        (v := fun t => loads.foldl (fun t l => msgWrapKeyload T l.code l.wrap t) (t.fork l.wrap))
        (Replays.guard (p := 1 ≤ l.code ∧ l.code ≤ 2) (by omega)) ?_
      exact hone.bind hrest
    · rcases hfinds₂.1 with rfl | rfl
      · exact hfinds₁.1
      · exact .inr rfl
    · rintro ⟨l', hmem, hheld⟩
      rcases List.mem_cons.mp hmem with rfl | hmem
      · rcases hfinds₂.1 with rfl | rfl
        · exact hfinds₁.2 hheld
        · rfl
      · exact hfinds₂.2 ⟨l', hmem, hheld⟩

/-- Who a header is written for: a reader that holds one of the keys, and no other under the same
identifier; or everyone. -/
structure Recipient (N : Ntru) (psks : List Psk) (ntruPks : List (List Trit)) (held : List Psk)
    (ntruSks : List NtruSk) : Prop where
  psk_agrees : ∀ psk ∈ psks, PskAgrees held psk
  ntru_agrees : ∀ pk ∈ ntruPks, NtruAgrees N ntruSks pk
  holds : (psks = [] ∧ ntruPks = []) ∨ (∃ psk ∈ psks, psk ∈ held) ∨
    ∃ pk ∈ ntruPks, HoldsSk ntruSks pk

/-- The keyloads of a header. -/
def keyloads (T : Troika) (N : Ntru) (prng msgId sessionKey : List Trit) (psks held : List Psk)
    (ntruPks : List (List Trit)) (ntruSks : List NtruSk) : List Keyload :=
  psks.map (fun psk => ⟨1, msgWrapKeyloadPsk T sessionKey psk, psk ∈ held⟩) ++
    ntruPks.map fun pk => ⟨2, msgWrapKeyloadNtru T N prng msgId sessionKey pk, HoldsSk ntruSks pk⟩

section Keyloads

variable {N : Ntru} {psks held : List Psk} {ntruPks : List (List Trit)} {ntruSks : List NtruSk}
variable {sessionKey : List Trit} {msgTypeId : ℤ} (prng msgId : List Trit)

theorem length_keyloads : (keyloads T N prng msgId sessionKey psks held ntruPks ntruSks).length =
    psks.length + ntruPks.length := by
  simp only [keyloads, List.length_append, List.length_map]

theorem readable_keyloads (hrecipient : Recipient N psks ntruPks held ntruSks)
    (hsize : sessionKey.length = 243) (hpks : ∀ pk ∈ ntruPks, pk.length = 9216) :
    ∀ l ∈ keyloads T N prng msgId sessionKey psks held ntruPks ntruSks,
      l.Readable T N held ntruSks sessionKey := by
  intro l hl
  rcases List.mem_append.mp hl with hl | hl
  · obtain ⟨psk, hpsk, rfl⟩ := List.mem_map.mp hl
    refine ⟨.inl rfl, fun key hkey => ?_⟩
    obtain ⟨key', hpast, hfinds⟩ :=
      getsPast_keyloadPsk (T := T) hsize hkey (hrecipient.psk_agrees psk hpsk)
    exact ⟨key', hpast.fork, hfinds⟩
  · obtain ⟨pk, hpk, rfl⟩ := List.mem_map.mp hl
    refine ⟨.inr rfl, fun key hkey => ?_⟩
    obtain ⟨key', hpast, hfinds⟩ := getsPast_keyloadNtru (T := T) prng msgId hsize (hpks pk hpk)
      hkey (hrecipient.ntru_agrees pk hpk)
    exact ⟨key', hpast.fork, hfinds⟩

/-- The loops of the writer as one. -/
def wrapKeyloadLoop (T : Troika) (loads : List Keyload) (t : Wire) : Wire :=
  loads.foldl (fun t l => msgWrapKeyload T l.code l.wrap t) t

/-- The end of a header. -/
def wrapSessionKey (T : Troika) (sessionKey : List Trit) (t : Wire) : Wire :=
  (t.modify (absorb T · sessionKey)).modify (commit T)

theorem msgWrapKeyloads_eq (held : List Psk) (ntruSks : List NtruSk) :
    msgWrapKeyloads T N prng msgId msgTypeId psks ntruPks sessionKey =
    fun t => wrapSessionKey T sessionKey (wrapKeyloadLoop T
      (keyloads T N prng msgId sessionKey psks held ntruPks ntruSks)
      (pb3WrapAbsorbSizeT T (psks.length + ntruPks.length) (pb3WrapAbsorbTrint T msgTypeId
        (t.modify (absorb T · msgId))))) := by
  funext t
  rw [wrapKeyloadLoop, keyloads, List.foldl_append, List.foldl_map, List.foldl_map]
  rfl

/-- The key that the loop finds is the one that was written. -/
theorem replays_sessionKey {key : Option (List Trit)}
    (hrecipient : Recipient N psks ntruPks held ntruSks)
    (hpublic : psks = [] → ntruPks = [] → sessionKey = List.replicate 243 .zero)
    (hfinds : (∃ l ∈ keyloads T N prng msgId sessionKey psks held ntruPks ntruSks, l.held) →
      key = some sessionKey) :
    Replays (Tape.modify (absorb T · sessionKey))
      (msgUnwrapSessionKey T (psks.length + ntruPks.length) key) () := by
  rcases hrecipient.holds with ⟨rfl, rfl⟩ | hheld
  · obtain rfl := hpublic rfl rfl
    exact Replays.modify _
  · have hfound : key = some sessionKey := by
      refine hfinds ?_
      rcases hheld with ⟨psk, hpsk, hmem⟩ | ⟨pk, hpk, hmem⟩
      · exact ⟨_, List.mem_append_left _ (List.mem_map_of_mem hpsk), hmem⟩
      · exact ⟨_, List.mem_append_right _ (List.mem_map_of_mem hpk), hmem⟩
    obtain ⟨n, hn⟩ : ∃ n, psks.length + ntruPks.length = n + 1 := by
      refine Nat.exists_eq_succ_of_ne_zero ?_
      rcases hheld with ⟨psk, hpsk, -⟩ | ⟨pk, hpk, -⟩
      · have := List.length_pos_of_mem hpsk
        omega
      · have := List.length_pos_of_mem hpk
        omega
    rw [hn, hfound]
    exact Replays.modify _

/-- **The key of the session** gets to a recipient. -/
theorem replays_keyloads (hrecipient : Recipient N psks ntruPks held ntruSks)
    (hsize : sessionKey.length = 243)
    (hpublic : psks = [] → ntruPks = [] → sessionKey = List.replicate 243 .zero)
    (hpks : ∀ pk ∈ ntruPks, pk.length = 9216) (htype : 2 * |msgTypeId| < 3 ^ 9)
    (hcount : psks.length + ntruPks.length ≤ tritsSizeMax) :
    Replays (msgWrapKeyloads T N prng msgId msgTypeId psks ntruPks sessionKey)
      (msgUnwrapKeyloads T N held ntruSks msgId) () := by
  obtain ⟨key, hloop, hfinds⟩ :=
    replays_keyloadLoop (readable_keyloads (T := T) prng msgId hrecipient hsize hpks)
      (show AgreesWith sessionKey none from fun k hk => nomatch hk)
  have hkey := replays_sessionKey prng msgId hrecipient hpublic hfinds.2
  rw [length_keyloads] at hloop
  rw [msgWrapKeyloads_eq prng msgId held ntruSks]
  generalize keyloads T N prng msgId sessionKey psks held ntruPks ntruSks = loads at *
  generalize psks.length + ntruPks.length = n at *
  refine Replays.bind (v := fun t => wrapSessionKey T sessionKey (wrapKeyloadLoop T loads
    (pb3WrapAbsorbSizeT T n (pb3WrapAbsorbTrint T msgTypeId t)))) (Replays.modify _) ?_
  refine Replays.bind (v := fun t => wrapSessionKey T sessionKey (wrapKeyloadLoop T loads
    (pb3WrapAbsorbSizeT T n t))) (replays_absorbTrint htype) ?_
  refine Replays.bind (v := fun t => wrapSessionKey T sessionKey (wrapKeyloadLoop T loads t))
    (replays_absorbSizeT hcount) ?_
  refine Replays.bind (v := wrapSessionKey T sessionKey) hloop ?_
  exact Replays.bind (v := Tape.modify (commit T)) hkey (Replays.modify _)

end Keyloads

/-! ## Whole headers -/

/-- What a header is written with. -/
structure HeaderArgs (M : MerkleMode) where
  prng : List Trit
  ch : Channel M
  ep : Option (Endpoint M)
  ch1 : Option (Channel M)
  ep1 : Option (Endpoint M)
  msgId : List Trit
  msgTypeId : ℤ
  psks : List Psk
  ntruPks : List (List Trit)

/-- What the sizes of the fields allow. -/
structure HeaderArgs.Fits (a : HeaderArgs M) : Prop where
  type : 2 * |a.msgTypeId| < 3 ^ 9
  count : a.psks.length + a.ntruPks.length ≤ tritsSizeMax
  pks : ∀ pk ∈ a.ntruPks, pk.length = 9216

/-- The header that is written if there is a key left for a signature. -/
def wrapHeader (T : Troika) (N : Ntru) (a : HeaderArgs M) (t : Wire) : Wire :=
  msgWrapKeyloads T N a.prng a.msgId a.msgTypeId a.psks a.ntruPks
    (msgSessionKey T a.prng a.ch a.ep a.psks a.ntruPks)
    (wrapPubkey T a.ch a.ep a.ch1 a.ep1 (msgChannelWrap T 0 a.ch.mss.root t))

theorem msgWriteHeader_eq {N : Ntru} {a : HeaderArgs M} (hleft : CanAnnounce a.ch a.ch1 a.ep1) :
    msgWriteHeader T N a.prng a.ch a.ep a.ch1 a.ep1 a.msgId a.msgTypeId a.psks a.ntruPks =
      (.ok (), mssAnnounced T a.ch a.ch1 a.ep1, wrapHeader T N a ⟨init, []⟩) := by
  simp only [msgWriteHeader, msgWrapPubkey_eq hleft, wrapHeader]

theorem length_msgSessionKey (prng : List Trit) (ch : Channel M) (ep : Option (Endpoint M))
    (psks : List Psk) (ntruPks : List (List Trit)) :
    (msgSessionKey T prng ch ep psks ntruPks).length = 243 := by
  unfold msgSessionKey
  split_ifs
  · exact List.length_replicate
  · cases ep <;> exact length_prngGen5 _ _ _ _

/-- **A header is read as it was written**, by who trusts the channel and is a recipient. -/
theorem msgReadHeader_wrapHeader {N : Ntru} {a : HeaderArgs M} {trusted : Trusted}
    {held : List Psk} {ntruSks : List NtruSk} (hfits : a.Fits) (hch : a.ch.mss.Sound T)
    (hspeaker : (speaker a.ch a.ep a.ch1 a.ep1).Sound T) (hleft : CanAnnounce a.ch a.ch1 a.ep1)
    (htrust : Trusts trusted a.ch a.ep a.ch1 a.ep1)
    (hrecipient : Recipient N a.psks a.ntruPks held ntruSks) (alloc : Bool) (rest : List Trit) :
    msgReadHeader T N a.ch.mss.root held ntruSks a.msgId trusted alloc
        ((wrapHeader T N a ⟨init, []⟩).cells ++ rest) =
      (.ok (speaker a.ch a.ep a.ch1 a.ep1).root, trustedAfter trusted alloc a.ch1 a.ep1,
        ⟨(wrapHeader T N a ⟨init, []⟩).state, rest⟩) := by
  obtain ⟨s₁, out₁, hw₁, hu₁⟩ := replays_pubkey hch hspeaker hleft htrust alloc init []
  obtain ⟨s₂, out₂, hw₂, hu₂⟩ := replays_keyloads (T := T) a.prng a.msgId hrecipient
    (length_msgSessionKey (T := T) a.prng a.ch a.ep a.psks a.ntruPks)
    (fun h₁ h₂ => if_pos ⟨h₁, h₂⟩) hfits.pks hfits.type hfits.count s₁ ([] ++ out₁)
  change wrapPubkey T a.ch a.ep a.ch1 a.ep1 (msgChannelWrap T 0 a.ch.mss.root ⟨init, []⟩) = _ at hw₁
  have hheader : wrapHeader T N a ⟨init, []⟩ = ⟨s₂, out₁ ++ out₂⟩ := by
    rw [wrapHeader, hw₁, hw₂, List.nil_append]
  rw [msgReadHeader, hheader]
  simp only [List.append_assoc, hu₁, hu₂]

end Mam

end Entangled
